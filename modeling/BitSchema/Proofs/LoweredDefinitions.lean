import BitSchema.Proofs.Lookup
import BitSchema.Proofs.LoweredSchemas
import BitSchema.Proofs.Registration

/-!
# Lowered definitions

Lowering makes one definition of every declared type, at the place that the descriptor of the type
names, and an encoding that refers to a type has the descriptor of a symbol of the table.  Files of
one package are merged, which only adds up their definitions.
-/

namespace BitSchema

open List
open Ir (Encoding familyOf)

/-! ## References -/

/-- Where the encoding embeds a message or an enum, it has the descriptor of such a symbol. -/
structure Resolved (table : SymbolTable) (e : Encoding) : Prop where
  message : e.native.kind = .message → ∃ name s, table.get? name = some s ∧ s.kind = .message ∧
    e.native.descriptor = some s.descriptor.toIr
  enum : e.native.kind = .enum → ∃ name s, table.get? name = some s ∧ s.kind = .enum ∧
    e.native.descriptor = some s.descriptor.toIr

section

variable {table : SymbolTable} {scope : Descriptor} {enc : Encoding}

theorem resolved_of_kind (value : enc.native.kind ∉ [.message, .enum]) : Resolved table enc := by
  simp only [mem_cons, not_mem_nil, or_false, not_or] at value
  exact ⟨fun kind => absurd kind value.1, fun kind => absurd kind value.2⟩

theorem get?_of_resolveType {r : Reference} {s : Symbol}
    (ok : table.resolveType scope r = .ok s) :
    s.kind ≠ .package ∧ ∃ name, table.get? name = some s := by
  unfold SymbolTable.resolveType at ok
  split at ok
  next => cases ok
  next found resolved =>
    split at ok
    next => cases ok
    next type =>
      cases ok
      obtain ⟨name, -, there⟩ := exists_of_findSome?_eq_some resolved
      exact ⟨type, name, there⟩

theorem resolved_of_referenceEncoding {absolute : Bool} {path : List Source.Ident}
    {name : Source.Ident}
    (ok : Lowering.referenceEncoding table scope absolute path name = .ok enc) :
    Resolved table enc := by
  obtain ⟨r, -, ok⟩ := bind_ok_iff.mp ok
  obtain ⟨s, resolved, eq⟩ := bind_ok_iff.mp ok
  cases eq
  obtain ⟨type, fullName, there⟩ := get?_of_resolveType (mapError_ok_iff.mp resolved)
  constructor
  · intro kind
    refine ⟨fullName, s, there, ?_, rfl⟩
    cases isKind : s.kind with
    | message => rfl
    | enum => simp [isKind] at kind
    | package => exact absurd isKind type
  · intro kind
    refine ⟨fullName, s, there, ?_, rfl⟩
    by_contra other
    simp [other] at kind

theorem resolved_of_typeEncoding {type : Source.TypeExpr}
    (ok : Lowering.typeEncoding table scope type = .ok enc) : enc.Throughout (Resolved table) := by
  intro e mem
  obtain ⟨inner, ok, -⟩ := EncodingCheck.typeEncoding_of_level ok mem
  cases inner with
  | scalar span s =>
    cases ok
    refine resolved_of_kind ?_
    cases s <;> simp [Source.Scalar.encoding, Source.Scalar.native]
  | named span absolute path name => exact resolved_of_referenceEncoding ok
  | array span element =>
    obtain ⟨inner, -, rfl⟩ := EncodingCheck.typeEncoding_array_ok.mp ok
    exact resolved_of_kind (by simp)
  | map span key value =>
    obtain ⟨innerKey, innerValue, -, -, rfl⟩ := EncodingCheck.typeEncoding_map_ok.mp ok
    exact resolved_of_kind (by simp)

theorem resolved_of_fieldEncoding {f : Source.Field}
    (ok : Lowering.fieldEncoding table scope f = .ok enc) : enc.Throughout (Resolved table) := by
  obtain ⟨bare, bareOk, shape⟩ := EncodingCheck.fieldEncoding_ok ok
  have below := resolved_of_typeEncoding bareOk
  intro e mem
  rcases shape with ⟨-, rfl⟩ | ⟨-, rfl⟩
  · exact below e mem
  · rcases EncodingCheck.mem_levels_foldl mem with rfl | mem
    · -- Directives leave the type alone, and only the type counts here.
      obtain ⟨message, enum⟩ := below bare bare.self_mem_levels
      constructor
      · rwa [Directive.native_foldl_apply]
      · rwa [Directive.native_foldl_apply]
    · exact below e mem

end

/-! ## Lists of definitions -/

/-- The enums among definitions, at any depth. -/
def enumsOf (ms : List Ir.Message) (es : List Ir.Enum) : List Ir.Enum :=
  es ++ (familyOf ms).flatMap (·.enums)

/-- Definitions at any depth by what they are and their descriptors. -/
def definitions (ms : List Ir.Message) (es : List Ir.Enum) : List (TypeKind × Ir.Descriptor) :=
  (familyOf ms).map (fun m => (.message, m.descriptor)) ++
    (enumsOf ms es).map fun e => (.enum, e.descriptor)

/-- The definition that a declared type is lowered to. -/
def Symbol.definition (s : Symbol) : TypeKind × Ir.Descriptor := (s.kind, s.descriptor.toIr)

section

variable {ms ms' : List Ir.Message} {es es' : List Ir.Enum} {m : Ir.Message} {e : Ir.Enum}

theorem familyOf_append (ms ms' : List Ir.Message) :
    familyOf (ms ++ ms') = familyOf ms ++ familyOf ms' := by
  rw [Ir.familyOf_eq, Ir.familyOf_eq, Ir.familyOf_eq, flatMap_append]

theorem familyOf_singleton (m : Ir.Message) : familyOf [m] = m :: familyOf m.messages := by
  rw [familyOf, familyOf, append_nil, m.family_eq]

theorem perm_append_swap {α : Type} (as bs cs ds : List α) :
    (as ++ bs ++ (cs ++ ds)).Perm (as ++ cs ++ (bs ++ ds)) := by
  simp only [append_assoc]
  exact (perm_append_comm_assoc bs cs ds).append_left as

theorem enumsOf_append :
    (enumsOf (ms ++ ms') (es ++ es')).Perm (enumsOf ms es ++ enumsOf ms' es') := by
  unfold enumsOf
  rw [familyOf_append, flatMap_append]
  exact perm_append_swap _ _ _ _

theorem enumsOf_message : enumsOf [m] [] = enumsOf m.messages m.enums := by
  unfold enumsOf
  rw [familyOf_singleton, nil_append, flatMap_cons]

theorem definitions_append :
    (definitions (ms ++ ms') (es ++ es')).Perm (definitions ms es ++ definitions ms' es') := by
  unfold definitions
  rw [familyOf_append, map_append]
  refine ((enumsOf_append.map _).append_left _).trans ?_
  rw [map_append]
  exact perm_append_swap _ _ _ _

theorem definitions_message :
    definitions [m] [] = (.message, m.descriptor) :: definitions m.messages m.enums := by
  unfold definitions
  rw [enumsOf_message, familyOf_singleton, map_cons, cons_append]

theorem definitions_enum : definitions [] [e] = [(.enum, e.descriptor)] := by
  simp [definitions, enumsOf, familyOf]

theorem descriptors_definitions :
    (definitions ms es).map Prod.snd =
      (familyOf ms).map (·.descriptor) ++ (enumsOf ms es).map (·.descriptor) := by
  rw [definitions, map_append, map_map, map_map]
  rfl

variable {d : Ir.Descriptor}

theorem mem_definitions_message :
    (.message, d) ∈ definitions ms es ↔ ∃ m ∈ familyOf ms, m.descriptor = d := by
  simp [definitions]

theorem mem_definitions_enum :
    (.enum, d) ∈ definitions ms es ↔ ∃ e ∈ enumsOf ms es, e.descriptor = d := by
  simp [definitions]

end

/-! ## Declarations -/

/-- What declared types are lowered to in a scope: one definition for each of them, in its
place. -/
structure Lowered (scope : Descriptor) (symbols : List Symbol) (ms : List Ir.Message)
    (es : List Ir.Enum) : Prop where
  placed : Ir.Placed scope.package.text scope.path ms es
  listed : (definitions ms es).Perm (symbols.map Symbol.definition)

theorem Lowered.append {scope : Descriptor} {as bs : List Symbol} {ms ms' : List Ir.Message}
    {es es' : List Ir.Enum} (first : Lowered scope as ms es) (second : Lowered scope bs ms' es') :
    Lowered scope (as ++ bs) (ms ++ ms') (es ++ es') where
  placed := first.placed.append second.placed
  listed := by
    rw [map_append]
    exact definitions_append.trans (first.listed.append second.listed)

namespace Lowering

variable {table : SymbolTable} {file : String}

variable {scope : Descriptor} {name : String}

theorem lowered_enum {e : Source.Enum} {lowered : Ir.Enum} (ok : enum table scope e = .ok lowered) :
    Lowered scope [e.symbol file scope] [] [lowered] := by
  obtain ⟨variants, -, eq⟩ := bind_ok_iff.mp ok
  cases eq
  refine ⟨.ofEnum rfl rfl, ?_⟩
  rw [definitions_enum]
  exact List.Perm.refl _

theorem lowered_of_inner {span : Span} {m : Ir.Message} {symbols : List Symbol} (named : name ≠ "")
    (present : m.absent = false) (descriptor : m.descriptor = (scope.child name).toIr)
    (isName : m.name = name) (inner : Lowered (scope.child name).scope symbols m.messages m.enums) :
    Lowered scope (⟨scope.child name, .message, file, span⟩ :: symbols) [m] [] := by
  obtain ⟨placed, listed⟩ := inner
  rw [scope.scope_child named] at placed
  refine ⟨.ofMessage present ?_ ?_, ?_⟩
  · rw [descriptor, isName]
    rfl
  · rw [isName]
    exact placed
  · rw [definitions_message, descriptor, map_cons]
    exact listed.cons _

-- By induction on the source: a message holds members, and a member can be a message.
mutual
theorem lowered_message (m : Source.Message) (scope : Descriptor) {lowered : Ir.Message}
    (named : ∀ s ∈ m.symbols file scope, s.descriptor.name ≠ "")
    (ok : message table scope m = .ok lowered) :
    Lowered scope (m.symbols file scope) [lowered] [] := by
  obtain ⟨span, doc, name, members⟩ := m
  rw [Source.Message.symbols] at named ⊢
  obtain ⟨here, below⟩ := forall_mem_cons.mp named
  rw [message] at ok
  obtain ⟨inner, lowers, eq⟩ := bind_ok_iff.mp ok
  cases eq
  exact lowered_of_inner here rfl rfl rfl
    (lowered_members members below (yields_of_lowerMembers lowers))
theorem lowered_members (members : List Source.Member) {scope : Descriptor}
    {given : List UInt32} {lowered : Members}
    (named : ∀ s ∈ Source.symbolsIn file scope members, s.descriptor.name ≠ "")
    (yields : Yields table scope given members lowered) :
    Lowered scope (Source.symbolsIn file scope members) lowered.messages lowered.enums := by
  cases members with
  | nil =>
    cases yields
    rw [Source.symbolsIn]
    exact ⟨.nil, by simp [definitions, enumsOf, familyOf]⟩
  | cons member members =>
    rw [Source.symbolsIn] at named ⊢
    obtain ⟨first, later⟩ := forall_mem_append.mp named
    cases member with
    | field f =>
      cases yields with | field _ others =>
      have inner := lowered_members members later others
      rwa [Source.Member.symbols, nil_append]
    | message m =>
      cases yields with | message lowers others =>
      rw [Source.Member.symbols] at first ⊢
      exact (lowered_message m scope first lowers).append (lowered_members members later others)
    | enum e =>
      cases yields with | enum lowers others =>
      rw [Source.Member.symbols]
      exact (lowered_enum lowers).append (lowered_members members later others)
end

theorem symbolsIn_members (is : List Source.Item) (scope : Descriptor) :
    Source.symbolsIn file scope (is.filterMap Source.Item.member?) =
      is.flatMap (Source.Item.symbols file scope) := by
  induction is with
  | nil => rw [filterMap_nil, Source.symbolsIn, flatMap_nil]
  | cons item is ih =>
    rw [flatMap_cons, ← ih]
    cases item with
    | message m | enum e =>
      exact (Source.symbolsIn.eq_2 ..).trans (by rw [Source.Member.symbols]; rfl)
    | package p | inclusion i => rfl

end Lowering

/-! ## Packages -/

/-- What files are lowered to: packages of different paths, with one definition for each type. -/
structure Gathered (symbols : List Symbol) (ps : List Ir.Package) : Prop where
  paths : (ps.map (·.path)).Nodup
  packages : ∀ p ∈ ps, p.absent = false ∧ Ir.Placed p.path [] p.messages p.enums
  listed : (ps.flatMap fun p => definitions p.messages p.enums).Perm (symbols.map Symbol.definition)

section

variable {table : SymbolTable} {as bs : List Symbol} {done : List Ir.Package}

theorem Gathered.perm {ps : List Ir.Package} (gathered : Gathered as done)
    (same : ps.Perm done) : Gathered as ps where
  paths := ((same.map _).nodup_iff).mpr gathered.paths
  packages p mem := gathered.packages p (same.mem_iff.mp mem)
  listed := (same.flatMap_right _).trans gathered.listed

theorem Gathered.perm_symbols (gathered : Gathered as done) (same : as.Perm bs) :
    Gathered bs done :=
  { gathered with listed := gathered.listed.trans (same.map _) }

theorem gathered_merge {p : PackageName} {ms : Lowering.Members}
    (before : Gathered as done)
    (new : Lowered (Descriptor.ofPackage p) bs ms.messages ms.enums) :
    Gathered (as ++ bs) (Lowering.merge done p.text ms) := by
  rcases Lowering.merge_cases p.text ms before.paths with
    ⟨fresh, eq⟩ | ⟨front, q, back, rfl, same, eq⟩
  · rw [eq]
    refine ⟨?_, ?_, ?_⟩
    · rw [map_append, map_singleton, ← concat_eq_append]
      exact before.paths.concat fresh
    · exact forall_mem_append.mpr ⟨before.packages, forall_mem_singleton.mpr ⟨rfl, new.placed⟩⟩
    · rw [flatMap_append, flatMap_singleton, map_append]
      exact before.listed.append new.listed
  · rw [eq]
    obtain ⟨paths, packages, listed⟩ := before
    rw [forall_mem_append, forall_mem_cons] at packages
    obtain ⟨early, ⟨present, placed⟩, late⟩ := packages
    refine ⟨?_, ?_, ?_⟩
    · rw [map_append, map_cons] at paths ⊢
      exact paths
    · refine forall_mem_append.mpr ⟨early, forall_mem_cons.mpr ⟨⟨present, ?_⟩, late⟩⟩
      have added : Ir.Placed p.text [] ms.messages ms.enums := new.placed
      rw [← same] at added
      exact placed.append added
    · rw [flatMap_append, flatMap_cons] at listed ⊢
      rw [map_append]
      refine List.Perm.trans ?_ (listed.append new.listed)
      rw [append_assoc, append_assoc]
      refine List.Perm.append_left _ ((definitions_append.append_right _).trans ?_)
      rw [append_assoc]
      exact perm_append_comm.append_left _

/-- Every file adds the types it declares. -/
theorem gathered_packages {lowered : List Ir.Package} {files : List Source.Schema}
    (before : Gathered as done)
    (named : ∀ file ∈ files, ∀ s ∈ file.types, s.descriptor.name ≠ "")
    (ok : Lowering.packages table done files = .ok lowered) :
    Gathered (as ++ files.flatMap Source.Schema.types) lowered := by
  induction files generalizing as done with
  | nil =>
    rw [Lowering.packages] at ok
    cases ok
    rwa [flatMap_nil, append_nil]
  | cons file files ih =>
    obtain ⟨first, others⟩ := forall_mem_cons.mp named
    rw [Lowering.packages] at ok
    split at ok
    next => cases ok
    next p package =>
      obtain ⟨ms, lowers, ok⟩ := bind_ok_iff.mp ok
      have types : file.types = Source.symbolsIn file.span.file (Descriptor.ofPackage p)
          file.members := by
        rw [Source.Schema.types_eq package, Source.Schema.members, Lowering.symbolsIn_members]
        rfl
      rw [types] at first
      rw [flatMap_cons, types, ← append_assoc]
      have new := Lowering.lowered_members file.members first (Lowering.yields_of_items lowers)
      exact ih (gathered_merge before new) others ok

end

variable {table : SymbolTable} {schema : Ir.Schema}

/-- Every type is lowered to one definition. -/
theorem gathered_of_lower {files : List Source.Schema}
    (named : ∀ file ∈ files, ∀ s ∈ file.types, s.descriptor.name ≠ "")
    (ok : lower table files = .ok schema) :
    Gathered (files.flatMap Source.Schema.types) schema.packages := by
  obtain ⟨packages, lowers, eq⟩ := bind_ok_iff.mp ok
  cases eq
  have nothing : Gathered [] [] := ⟨nodup_nil, by simp, by simp⟩
  exact (gathered_packages nothing named lowers).perm (mergeSort_perm _ _)

/-! ## Schemas -/

theorem SchemaBuilt.resolved {sites : List Source.FieldSite}
    (built : SchemaBuilt table sites schema) {e : Encoding} (mem : e ∈ schema.encodings) :
    Resolved table e := by
  obtain ⟨s, -, enc, encodes, level⟩ := built.origin mem
  exact resolved_of_fieldEncoding encodes e level

namespace Gathered

variable {symbols : List Symbol} {schema : Ir.Schema}

variable {s : Symbol}

section

variable (gathered : Gathered symbols schema.packages)

include gathered

theorem exists_package (mem : s ∈ symbols) :
    ∃ p ∈ schema.packages, s.definition ∈ definitions p.messages p.enums :=
  mem_flatMap.mp (gathered.listed.mem_iff.mpr (mem_map_of_mem mem))

/-- Every declared message has a definition. -/
theorem exists_message (mem : s ∈ symbols)
    (kind : s.kind = .message) : ∃ m ∈ schema.allMessages, m.descriptor = s.descriptor.toIr := by
  obtain ⟨p, package, inside⟩ := gathered.exists_package mem
  rw [Symbol.definition, kind, mem_definitions_message] at inside
  obtain ⟨m, message, same⟩ := inside
  exact ⟨m, mem_flatMap.mpr ⟨p, package, message⟩, same⟩

theorem exists_enum (mem : s ∈ symbols)
    (kind : s.kind = .enum) : ∃ e ∈ schema.allEnums, e.descriptor = s.descriptor.toIr := by
  obtain ⟨p, package, inside⟩ := gathered.exists_package mem
  rw [Symbol.definition, kind, mem_definitions_enum] at inside
  obtain ⟨e, enum, same⟩ := inside
  exact ⟨e, mem_flatMap.mpr ⟨p, package, enum⟩, same⟩

/-- If no two declared types have one descriptor, every definition is filed under its own. -/
theorem filed (distinct : (symbols.map (·.descriptor.toIr)).Nodup) : schema.Filed := by
  have all : (schema.packages.flatMap fun p => (familyOf p.messages).map (·.descriptor) ++
      (enumsOf p.messages p.enums).map (·.descriptor)).Nodup := by
    simp only [← descriptors_definitions, ← map_flatMap]
    refine ((gathered.listed.map Prod.snd).nodup_iff).mpr ?_
    rwa [map_map]
  refine ⟨gathered.paths, gathered.packages, ?_, ?_⟩
  · rw [Ir.Schema.allMessages, map_flatMap]
    exact all.sublist (List.Sublist.flatMap_right _ fun p _ => sublist_append_left _ _)
  · rw [Ir.Schema.allEnums, map_flatMap]
    exact all.sublist (List.Sublist.flatMap_right _ fun p _ => sublist_append_right _ _)

end

end Gathered

end BitSchema
