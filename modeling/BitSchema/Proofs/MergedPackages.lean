import BitSchema.Proofs.LoweredParts
import BitSchema.Proofs.Lookup

/-!
# Merged packages

Lowering makes a part of every file and merges the parts of one package.  The packages come out in
the order of their paths, and each of them holds what its files declare.  So the order of the files
shows only in the order of the definitions inside a package, and a search by a full name does not
see that as long as no two of them have the same name.
-/

namespace BitSchema

open List

/-! ## Searches -/

namespace Ir

theorem Schema.findMessageAt_perm {ms ms' : List Message} (same : ms.Perm ms')
    (present : ∀ m ∈ ms, m.absent = false) (distinct : (ms.map (·.name)).Nodup)
    (names : List String) : findMessageAt ms names = findMessageAt ms' names := by
  rcases names with _ | ⟨name, _ | ⟨next, rest⟩⟩
  · rfl
  · exact search_perm same present distinct (fun _ => beq_iff_eq)
  · have first := search_perm same present distinct fun _ => beq_iff_eq (b := name)
    rw [findMessageAt, findMessageAt, first]
    · simp
    · simp

/-! ## The order inside packages -/

/-- The packages have the same definitions, in any order. -/
structure Package.Reorders (p q : Package) : Prop where
  path : p.path = q.path
  absent : p.absent = q.absent
  messages : p.messages.Perm q.messages
  enums : p.enums.Perm q.enums

theorem andThen_search_congr {α β : Type} {absent wanted : α → Bool} {next : α → Search β}
    {as bs : List α} (same : List.Forall₂ (fun a b => absent a = absent b ∧
      wanted a = wanted b ∧ next a = next b) as bs) :
    (search absent wanted as).andThen next = (search absent wanted bs).andThen next := by
  induction same with
  | nil => rfl
  | @cons a b as bs first _ ih =>
    obtain ⟨absent', wanted', next'⟩ := first
    rw [search, search, ← absent', ← wanted']
    split
    next => rfl
    next =>
      split
      next => exact next'
      next => exact ih

namespace Schema

variable {s s' : Schema} {p q : Package}

section

variable (filed : s.Filed) (mem : p ∈ s.packages)

include filed mem

/-- In one package the messages have names of their own, and so have the enums. -/
theorem Filed.names : (p.messages.map (·.name)).Nodup ∧ (p.enums.map (·.name)).Nodup := by
  obtain ⟨-, ⟨messages, enums, -⟩⟩ := filed.packages p mem
  constructor
  · refine nodup_names (fun m inside => (messages m inside).2) (filed.messages.sublist ?_)
    have part : (familyOf p.messages).Sublist s.allMessages :=
      sublist_flatMap (f := fun p : Package => familyOf p.messages) mem
    exact ((sublist_familyOf p.messages).trans part).map _
  · refine nodup_names (fun e inside => (enums e inside).2) (filed.enums.sublist ?_)
    have part : (p.enums ++ (familyOf p.messages).flatMap (·.enums)).Sublist s.allEnums :=
      sublist_flatMap (f := fun p : Package => p.enums ++ (familyOf p.messages).flatMap (·.enums))
        mem
    exact ((sublist_append_left _ _).trans part).map _

theorem Filed.findMessageAt_reorders (same : p.Reorders q) (names : List String) :
    Schema.findMessageAt p.messages names = Schema.findMessageAt q.messages names := by
  obtain ⟨-, ⟨messages, -, -⟩⟩ := filed.packages p mem
  exact findMessageAt_perm same.messages (fun m inside => (messages m inside).1)
    (filed.names mem).1 names

theorem Filed.search_enums_reorders (same : p.Reorders q) (path : List String) (name : String) :
    (enumsAt p path).andThen (search (·.absent) (·.name == name)) =
      (enumsAt q path).andThen (search (·.absent) (·.name == name)) := by
  cases path with
  | nil =>
    obtain ⟨-, ⟨-, enums, -⟩⟩ := filed.packages p mem
    exact search_perm same.enums (fun e inside => (enums e inside).1) (filed.names mem).2
      fun _ => beq_iff_eq
  | cons outer path =>
    rw [enumsAt, enumsAt, filed.findMessageAt_reorders mem same]
    · simp
    · simp

end

/-- Where every definition is filed under its own descriptor, a search by a descriptor does not
see the order inside the packages. -/
theorem Filed.find_reorders (filed : s.Filed)
    (same : List.Forall₂ Package.Reorders s.packages s'.packages) (d : Descriptor) :
    s.findMessage d = s'.findMessage d ∧ s.findEnum d = s'.findEnum d := by
  have inside : List.Forall₂ (fun p q => p ∈ s.packages ∧ p.Reorders q) s.packages s'.packages :=
    (forall₂_and_left _ _).mpr ⟨fun p mem => mem, same⟩
  constructor
  · refine andThen_search_congr (inside.imp fun p q pair => ?_)
    obtain ⟨mem, same⟩ := pair
    exact ⟨same.absent, by rw [same.path], filed.findMessageAt_reorders mem same _⟩
  · refine andThen_search_congr (inside.imp fun p q pair => ?_)
    obtain ⟨mem, same⟩ := pair
    exact ⟨same.absent, by rw [same.path], filed.search_enums_reorders mem same _ _⟩

end Schema

end Ir

namespace Lowering

variable {parts parts' : List (String × Members)}

/-! ## The order of the files -/

theorem reorders_pack (same : parts.Perm parts') (path : String) :
    (pack parts path).Reorders (pack parts' path) where
  path := rfl
  absent := rfl
  messages := (same.filter _).flatMap_right _
  enums := (same.filter _).flatMap_right _

theorem perm_parts {table : SymbolTable} {files files' : List Source.Schema}
    (same : files.Perm files') (ok : files.mapM (part table) = .ok parts)
    (ok' : files'.mapM (part table) = .ok parts') : parts.Perm parts' := by
  refine rel_perm_imp (fun file a b here here' => ?_) (mapM_ok ok) (mapM_ok ok') same
  exact Except.ok.inj (here.symm.trans here')

/-- Lowering the same files in another order gives the same packages, up to the order of the
definitions inside each. -/
theorem reorders_of_lower {table : SymbolTable} {files files' : List Source.Schema}
    {schema schema' : Ir.Schema} (same : files.Perm files') (ok : lower table files = .ok schema)
    (ok' : lower table files' = .ok schema') :
    schema.packages.map (·.path) = schema'.packages.map (·.path) ∧
      List.Forall₂ Ir.Package.Reorders schema.packages schema'.packages := by
  obtain ⟨sorted, parts, lowered, merged⟩ := merged_of_lower ok
  obtain ⟨sorted', parts', lowered', merged'⟩ := merged_of_lower ok'
  have parted := perm_parts same lowered lowered'
  have paths : schema.packages.map (·.path) = schema'.packages.map (·.path) := by
    refine List.Perm.eq_of_pairwise (fun a b _ _ => le_antisymm) sorted sorted' ?_
    rw [perm_ext_iff_of_nodup merged.distinct merged'.distinct]
    intro path
    rw [merged.paths, merged'.paths, (parted.map _).mem_iff]
  refine ⟨paths, ?_⟩
  rw [merged.eq_map, merged'.eq_map, ← paths, forall₂_map_left_iff, forall₂_map_right_iff]
  exact forall₂_same.mpr fun path _ => reorders_pack parted path

end Lowering

end BitSchema
