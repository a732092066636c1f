import BitSchema.Proofs.SourceDeclarations
import BitSchema.Proofs.Registration

/-!
# Declared types

The messages and enums of a source, each with the names of the messages around it.  They are what
registration enters, as long as no name is empty: an empty name would not open a scope of its own.

Around every type that stands inside a message, that message is declared too.
-/

namespace BitSchema

open List

namespace Source

/-- A message or an enum, and the names of the messages around it. -/
structure DeclaredType where
  path : List String
  name : Ident
  kind : TypeKind

namespace DeclaredType

/-- The names of the messages around a type, and its own. -/
def names (d : DeclaredType) : List String := d.path ++ [d.name.value]

/-- The entry of a type that is declared in a file of a package. -/
def symbol (package : PackageName) (file : String) (d : DeclaredType) : Symbol :=
  ⟨⟨package, d.path, d.name.value⟩, d.kind, file, d.name.span⟩

end DeclaredType

mutual
/-- A message and all types in it, in the order of the source. -/
def Message.declared (path : List String) : Message → List DeclaredType
  | ⟨_, _, name, members⟩ => ⟨path, name, .message⟩ :: declaredIn (path ++ [name.value]) members
def declaredIn (path : List String) : List Member → List DeclaredType
  | [] => []
  | m :: ms => m.declared path ++ declaredIn path ms
def Member.declared (path : List String) : Member → List DeclaredType
  | .field _ => []
  | .message m => m.declared path
  | .enum e => [⟨path, e.name, .enum⟩]
end

def Item.declared : Item → List DeclaredType
  | .message m => m.declared []
  | .enum e => [⟨[], e.name, .enum⟩]
  | _ => []

def Schema.declared (s : Schema) : List DeclaredType := s.items.flatMap Item.declared

/-! ## Entries -/

section

variable {package : PackageName} {file : String}

-- A name that is not empty is what makes a scope of a message.
theorem Message.symbols_eq (m : Message) (path : List String)
    (named : ∀ name ∈ m.typeNames, IsPart name) :
    m.symbols file ⟨package, path, ""⟩ = (m.declared path).map (·.symbol package file) := by
  induction m using Message.induct generalizing path with
  | step span doc name members ih =>
    rw [Message.typeNames, forall_mem_cons] at named
    obtain ⟨part, named⟩ := named
    rw [Message.symbols, Message.declared, Descriptor.scope_child _ part.some]
    refine congrArg (_ :: ·) ?_
    induction members with
    | nil => rfl
    | cons member members rest =>
      rw [typeNamesIn, forall_mem_append] at named
      rw [symbolsIn, declaredIn, map_append,
        rest (fun m mem => ih m (mem_cons_of_mem _ mem)) named.2]
      refine congrArg (· ++ _) ?_
      cases member with
      | field f | enum e => rfl
      | message m => exact ih m mem_cons_self _ named.1

theorem Schema.symbols_eq {s : Schema} (named : ∀ name ∈ s.typeNames, IsPart name) :
    s.symbols package = s.declared.map (·.symbol package s.span.file) := by
  rw [symbols, declared, map_flatMap]
  refine flatMap_congr fun item mem => ?_
  have named' : ∀ name ∈ item.typeNames, IsPart name := fun name inside =>
    named name (mem_flatMap.mpr ⟨item, mem, inside⟩)
  cases item with
  | package | inclusion | enum e => rfl
  | message m => exact m.symbols_eq [] named'

end

/-! ## Enclosing messages -/

/-- A type among `ds`, which stand in a scope of this path: it is declared right there or in a
message that is among them too, and its names are known. -/
structure DeclaredType.Within (path known : List String) (ds : List DeclaredType)
    (d : DeclaredType) : Prop where
  type : d.kind ≠ .package
  names : ∀ name ∈ d.names, name ∈ path ∨ name ∈ known
  around : d.path = path ∨ ∃ m ∈ ds, m.kind = .message ∧ m.names = d.path

section

variable {path known known' : List String} {ds ds' : List DeclaredType} {d : DeclaredType}

theorem DeclaredType.Within.mono (within : d.Within path known ds) (names : known ⊆ known')
    (types : ds ⊆ ds') : d.Within path known' ds' where
  type := within.type
  names name mem := (within.names name mem).imp_right fun inside => names inside
  around := within.around.imp_right fun ⟨m, mem, is⟩ => ⟨m, types mem, is⟩

/-- What stands in a message does so in the scope around it. -/
theorem DeclaredType.Within.inside {name : Ident}
    (within : d.Within (path ++ [name.value]) known ds) :
    d.Within path (name.value :: known) (⟨path, name, .message⟩ :: ds) where
  type := within.type
  names part mem := by
    rcases within.names part mem with outer | inner
    · rcases mem_append.mp outer with before | last
      · exact .inl before
      · exact .inr (mem_cons.mpr (.inl (mem_singleton.mp last)))
    · exact .inr (mem_cons_of_mem _ inner)
  around := by
    rcases within.around with direct | ⟨m, mem, is⟩
    · exact .inr ⟨_, mem_cons_self, rfl, direct.symm⟩
    · exact .inr ⟨m, mem_cons_of_mem _ mem, is⟩

theorem DeclaredType.within_self {name : Ident} {kind : TypeKind} (type : kind ≠ .package)
    (mem : name.value ∈ known) : DeclaredType.Within path known ds ⟨path, name, kind⟩ where
  type := type
  names part inside := by
    rcases mem_append.mp inside with before | last
    · exact .inl before
    · exact .inr (mem_singleton.mp last ▸ mem)
  around := .inl rfl

theorem Message.within (m : Message) (path : List String) :
    ∀ d ∈ m.declared path, d.Within path m.typeNames (m.declared path) := by
  induction m using Message.induct generalizing path with
  | step span doc name members ih =>
    rw [Message.declared, Message.typeNames, forall_mem_cons]
    refine ⟨DeclaredType.within_self (by simp) mem_cons_self, fun d mem => .inside ?_⟩
    generalize path ++ [name.value] = path at mem
    induction members with
    | nil => cases mem
    | cons member members rest =>
      rw [declaredIn, typeNamesIn]
      rcases mem_append.mp mem with here | later
      · refine .mono ?_ (subset_append_left _ _) (subset_append_left _ _)
        cases member with
        | field f => cases here
        | message m => exact ih m mem_cons_self path d here
        | enum e =>
          cases mem_singleton.mp here
          exact DeclaredType.within_self (by simp) mem_cons_self
      · exact (rest (fun m mem => ih m (mem_cons_of_mem _ mem)) later).mono
          (subset_append_right _ _) (subset_append_right _ _)

theorem Schema.within (s : Schema) : ∀ d ∈ s.declared, d.Within [] s.typeNames s.declared := by
  intro d mem
  obtain ⟨item, inside, declared⟩ := mem_flatMap.mp mem
  have names : item.typeNames ⊆ s.typeNames := fun name mem =>
    mem_flatMap.mpr ⟨item, inside, mem⟩
  have types : item.declared ⊆ s.declared := fun d mem => mem_flatMap.mpr ⟨item, inside, mem⟩
  refine DeclaredType.Within.mono ?_ names types
  cases item with
  | package | inclusion => simp [Item.declared] at declared
  | message m => exact m.within [] d declared
  | enum e =>
    obtain rfl := mem_singleton.mp declared
    exact DeclaredType.within_self nofun mem_cons_self

end

end Source

end BitSchema
