import BitSchema.Proofs.RegisteredSymbols

/-!
# Lexical scopes

A reference is tried as text below each scope around it, from the innermost outwards.  In a table of
registered files this finds what lexical scoping means: a type that is declared in one of these
scopes, or in a package inside the package of the scope if the reference names that package.

The texts alone do not say where a package ends and a message begins.  A hit in another package
around the scope would need a message with the name of a package, and so would a hit below a message
that reaches into a package; both were refused by registration.
-/

namespace BitSchema

open List
open Compilation

/-! ## Scopes around a reference -/

/-- The full name that a reference has if it is meant this deep in a scope. -/
def Reference.nameAt (r : Reference) (scope : Descriptor) (depth : Nat) : String :=
  joinName (scope.package.segments ++ scope.path.take depth ++ r.parts)

/-- The scope of a package that files declare, or the scope inside one of their types. -/
inductive IsScope (files : List LoadedFile) : Descriptor → Prop where
  | package (p : PackageName) : DeclaredPackage files p → IsScope files (.ofPackage p)
  | type (s : Symbol) : s ∈ declaredTypes files → IsScope files s.descriptor.scope

/-- A type or a package of the files has this full name. -/
def IsDeclared (files : List LoadedFile) (name : String) : Prop :=
  (∃ s ∈ declaredTypes files, s.fullName = name) ∨ ∃ p, DeclaredPackage files p ∧ p.text = name

theorem findSome?_reverse_range {α : Type} {f : Nat → Option α} {n : Nat} {a : α}
    (found : (List.range n).reverse.findSome? f = some a) :
    ∃ i < n, f i = some a ∧ ∀ j, i < j → j < n → f j = none := by
  induction n with
  | zero => cases found
  | succ n ih =>
    rw [range_succ, reverse_append, reverse_singleton, singleton_append, findSome?_cons] at found
    cases last : f n with
    | some b =>
      rw [last] at found
      exact ⟨n, Nat.lt_succ_self n, last.trans found, fun j above below => by omega⟩
    | none =>
      rw [last] at found
      obtain ⟨i, below, here, later⟩ := ih found
      refine ⟨i, Nat.lt_succ_of_lt below, here, fun j above inside => ?_⟩
      rcases Nat.lt_succ_iff_lt_or_eq.mp inside with before | rfl
      · exact later j above before
      · exact last

namespace SymbolTable

variable {t : SymbolTable} {scope : Descriptor} {r : Reference} {s : Symbol}

theorem resolve?_relative (relative : r.absolute = false) :
    t.resolve? scope r =
      (List.range (scope.path.length + 1)).reverse.findSome? fun d =>
        t.get? (r.nameAt scope d) := by
  rw [resolve?, candidates, if_neg (by simp [relative]), findSome?_map]
  rfl

/-- A hit is the innermost of its name. -/
theorem innermost_of_resolve? (relative : r.absolute = false)
    (found : t.resolve? scope r = some s) :
    ∃ depth ≤ scope.path.length, t.get? (r.nameAt scope depth) = some s ∧
      ∀ d, depth < d → d ≤ scope.path.length → t.get? (r.nameAt scope d) = none := by
  rw [resolve?_relative relative] at found
  obtain ⟨depth, short, here, later⟩ := findSome?_reverse_range found
  exact ⟨depth, Nat.le_of_lt_succ short, here, fun d above inside =>
    later d above (Nat.lt_succ_of_le inside)⟩

theorem resolve?_eq_none_iff (relative : r.absolute = false) :
    t.resolve? scope r = none ↔
      ∀ d ≤ scope.path.length, t.get? (r.nameAt scope d) = none := by
  rw [resolve?_relative relative, findSome?_eq_none_iff]
  simp only [mem_reverse, mem_range, Nat.lt_succ_iff]

end SymbolTable

/-! ## Types that are hit -/

section

variable {files : List LoadedFile} {table : SymbolTable} {scope : Descriptor} {s : Symbol}
  {r : Reference}

theorem get?_eq_none_iff_not_isDeclared
    (records : table.Records (declaredTypes files) (packagesIn files))
    (hierarchy : Hierarchy (declaredTypes files) (packagesIn files)) {name : String} :
    table.get? name = none ↔ ¬ IsDeclared files name := by
  have texts : ∀ p, DeclaredPackage files p → (Descriptor.ofPackage p).text = p.text := by
    intro p declared
    rw [Descriptor.text_ofPackage, hierarchy.joinName_segments (mem_packagesIn.mpr declared)]
  rw [records.get?_eq_none_iff, IsDeclared, not_or]
  refine and_congr (by simp) ?_
  constructor
  · rintro other ⟨p, declared, same⟩
    exact other p (mem_packagesIn.mpr declared) ((texts p declared).trans same)
  · intro none p mem same
    have declared := mem_packagesIn.mp mem
    exact none ⟨p, declared, (texts p declared).symm.trans same⟩

variable {ts : List Symbol} {ps : List PackageName}

theorem Hierarchy.scope_of_type (hierarchy : Hierarchy ts ps) (mem : s ∈ ts) : s.descriptor.scope =
      ⟨s.descriptor.package, s.descriptor.path ++ [s.descriptor.name], ""⟩ := by
  rw [Descriptor.scope, if_neg]
  simpa [Descriptor.isScope] using (hierarchy.proper mem).named

section

variable (isScope : IsScope files scope)
  (hierarchy : Hierarchy (declaredTypes files) (packagesIn files))

include isScope hierarchy

/-- Every step of the path of a scope is a type. -/
theorem IsScope.exists_type {k : Nat}
    (positive : 0 < k) (short : k ≤ scope.path.length) : ∃ m ∈ declaredTypes files,
      m.descriptor.package = scope.package ∧
      m.descriptor.path ++ [m.descriptor.name] = scope.path.take k := by
  cases isScope with
  | package p declared => exact absurd (Nat.lt_of_lt_of_le positive short) (Nat.lt_irrefl 0)
  | type s mem =>
    rw [hierarchy.scope_of_type mem] at short ⊢
    rw [length_append, length_singleton] at short
    rcases Nat.eq_or_lt_of_le short with whole | inside
    · refine ⟨s, mem, rfl, ?_⟩
      rw [take_of_length_le (by simp [whole])]
    · have shorter := Nat.le_of_lt_succ inside
      obtain ⟨m, isType, -, package, path⟩ := hierarchy.outer_message mem positive shorter
      exact ⟨m, isType, package, by rw [path, take_append_of_le_length shorter]⟩

theorem IsScope.package_mem : scope.package ∈ packagesIn files := by
  cases isScope with
  | package p declared => exact mem_packagesIn.mpr declared
  | type s mem =>
    rw [hierarchy.scope_of_type mem]
    exact hierarchy.package s mem

theorem IsScope.isPart : ∀ part ∈ scope.path, IsPart part := by
  cases isScope with
  | package p declared => exact forall_mem_nil _
  | type s mem =>
    rw [hierarchy.scope_of_type mem]
    intro part inside
    refine hierarchy.parts s mem part ?_
    rw [Descriptor.parts, append_assoc]
    exact mem_append_right _ inside

end

/-- No type has the parts of a package for its own. -/
theorem Hierarchy.parts_ne (hierarchy : Hierarchy ts ps) (mem : s ∈ ts) {p : PackageName}
    (isPackage : p ∈ ps) : s.descriptor.parts ≠ p.segments := by
  intro same
  refine hierarchy.apart s mem p isPackage ?_
  rw [Symbol.fullName_eq, same, Descriptor.text_ofPackage]

/-- A type is not in a package around that of the scope: a message around it, or the type itself,
would be called like the package of the scope. -/
theorem Hierarchy.not_outside (hierarchy : Hierarchy ts ps) (mem : s ∈ ts) {p : PackageName}
    (isPackage : p ∈ ps) {extra rest : List String}
    (outer : p.segments = s.descriptor.package.segments ++ extra) (some : extra ≠ [])
    (more : rest ≠ []) : s.descriptor.path ++ [s.descriptor.name] ≠ extra ++ rest := by
  intro inner
  have short : extra.length ≤ s.descriptor.path.length := by
    have lengths := congrArg List.length inner
    have positive := length_pos_of_ne_nil more
    rw [length_append, length_append, length_singleton] at lengths
    omega
  have front : s.descriptor.path.take extra.length = extra := by
    rw [← take_append_of_le_length short, inner, take_left']
    rfl
  obtain ⟨m, isType, -, package, path⟩ :=
    hierarchy.outer_message mem (length_pos_of_ne_nil some) short
  refine hierarchy.parts_ne isType isPackage ?_
  rw [Descriptor.parts, append_assoc, package, path, front, outer]

/-- Below a type of the scope, a type is not in another package: the outermost type of the scope
would be called like a package. -/
theorem IsScope.not_inside (isScope : IsScope files scope)
    (hierarchy : Hierarchy (declaredTypes files) (packagesIn files)) (mem : s ∈ declaredTypes files)
    {depth : Nat} (positive : 0 < depth) (short : depth ≤ scope.path.length)
    {extra front back : List String}
    (outer : s.descriptor.package.segments = scope.package.segments ++ extra) (some : extra ≠ []) :
    scope.path.take depth ++ front ≠ extra ++ back := by
  intro inner
  have first : extra.take 1 = scope.path.take 1 := by
    have long := length_pos_of_ne_nil some
    have heads := congrArg (List.take 1) inner
    rw [take_append_of_le_length (by rw [length_take]; omega), take_take,
      Nat.min_eq_left positive, take_append_of_le_length long] at heads
    exact heads.symm
  have around := hierarchy.around _ (hierarchy.package s mem) (scope.package.segments.length + 1)
    (Nat.succ_pos _)
  obtain ⟨m, isType, package, path⟩ :=
    isScope.exists_type hierarchy Nat.zero_lt_one (Nat.le_trans positive short)
  refine hierarchy.parts_ne isType around ?_
  rw [Descriptor.parts, append_assoc, package, path, ← first, outer, take_length_add_append]

/-- A type with the full name of a reference is in the package of the scope, or in one inside it. -/
theorem IsScope.package_of_parts (isScope : IsScope files scope)
    (hierarchy : Hierarchy (declaredTypes files) (packagesIn files)) (mem : s ∈ declaredTypes files)
    {depth : Nat} (short : depth ≤ scope.path.length)
    (parts : s.descriptor.parts = scope.package.segments ++ scope.path.take depth ++ r.parts) :
    (s.descriptor.package = scope.package ∧
        s.descriptor.path ++ [s.descriptor.name] = scope.path.take depth ++ r.parts) ∨
      (depth = 0 ∧ ∃ k, 0 < k ∧ k ≤ r.path.length ∧
        s.descriptor.package.segments = scope.package.segments ++ r.path.take k ∧
        s.descriptor.path ++ [s.descriptor.name] = r.path.drop k ++ [r.name]) := by
  rw [Descriptor.parts, append_assoc, append_assoc] at parts
  have isPackage := isScope.package_mem hierarchy
  rcases append_eq_append_iff.mp parts with ⟨extra, outer, inner⟩ | ⟨extra, outer, inner⟩
  · rcases eq_or_ne extra [] with rfl | some
    · rw [append_nil] at outer
      exact .inl ⟨congrArg PackageName.mk outer.symm, inner⟩
    · have more : scope.path.take depth ++ r.parts ≠ [] := by simp [Reference.parts]
      exact absurd inner (hierarchy.not_outside mem isPackage outer some more)
  · rcases eq_or_ne extra [] with rfl | some
    · rw [append_nil] at outer
      exact .inl ⟨congrArg PackageName.mk outer, inner.symm⟩
    · rcases Nat.eq_zero_or_pos depth with rfl | positive
      · rw [take_zero, nil_append, Reference.parts] at inner
        have shorter : extra.length ≤ r.path.length := by
          have lengths := congrArg List.length inner
          rw [length_append, length_append, length_append, length_singleton,
            length_singleton] at lengths
          omega
        refine .inr ⟨rfl, extra.length, length_pos_of_ne_nil some, shorter, ?_, ?_⟩
        · rw [outer, ← take_append_of_le_length shorter, inner, take_left' rfl]
        · rw [← drop_append_of_le_length shorter, inner, drop_left' rfl]
      · exact absurd inner (isScope.not_inside hierarchy mem positive short outer some)

end

/-- In a table of registered files, a relative reference finds the innermost name that is declared.
If it is a type, then it is one of the package of the scope, at a depth of the scope, or one of a
package inside it that the reference names. -/
theorem resolve?_lexical {files : List LoadedFile} {registered : List Registered}
    {table : SymbolTable} {problems : List Diagnostic} {scope : Descriptor} {r : Reference}
    {path : List String} {name : String} (parsed : ∀ file ∈ files, Loading.Parsed file)
    (run : registerAll .refuse {} files = (registered, table, problems))
    (clean : ErrorFree problems) (isScope : IsScope files scope)
    (valid : Reference.ofParts false path name = .ok r) :
    (table.resolve? scope r = none ↔
      ∀ depth ≤ scope.path.length, ¬ IsDeclared files (r.nameAt scope depth)) ∧
    ∀ s, table.resolve? scope r = some s → ∃ depth ≤ scope.path.length,
      s.fullName = r.nameAt scope depth ∧
      (∀ d, depth < d → d ≤ scope.path.length → ¬ IsDeclared files (r.nameAt scope d)) ∧
      (s.kind ≠ .package → s ∈ declaredTypes files ∧
        scope.package.segments <+: s.descriptor.package.segments ∧
        ((s.descriptor.package = scope.package ∧
            s.descriptor.path ++ [s.descriptor.name] =
              scope.path.take depth ++ r.path ++ [r.name]) ∨
          (depth = 0 ∧ ∃ k, 0 < k ∧ k ≤ r.path.length ∧
            s.descriptor.package.segments = scope.package.segments ++ r.path.take k ∧
            s.descriptor.path ++ [s.descriptor.name] = r.path.drop k ++ [r.name]))) := by
  obtain ⟨records, hierarchy⟩ := records_of_registerAll parsed run clean
  obtain ⟨rfl, areParts⟩ := Reference.isPart_of_ofParts valid
  refine ⟨?_, fun s found => ?_⟩
  · rw [SymbolTable.resolve?_eq_none_iff rfl]
    exact forall₂_congr fun d _ => get?_eq_none_iff_not_isDeclared records hierarchy
  · obtain ⟨depth, short, here, inner⟩ := SymbolTable.innermost_of_resolve? rfl found
    obtain ⟨ss, holds, -⟩ := id records
    refine ⟨depth, short, (holds.mem_of_get? here).2, fun d above inside =>
      (get?_eq_none_iff_not_isDeclared records hierarchy).mp (inner d above inside), fun type => ?_⟩
    obtain ⟨mem, named⟩ := records.get?_type.mp ⟨here, type⟩
    have isParts : ∀ part ∈ scope.package.segments ++ scope.path.take depth ++
        Reference.parts ⟨false, path, name⟩, IsPart part := by
      rw [forall_mem_append, forall_mem_append]
      exact ⟨⟨(hierarchy.segments _ (isScope.package_mem hierarchy)).2, fun part mem =>
        isScope.isPart hierarchy part (mem_of_mem_take mem)⟩, areParts⟩
    have parts := joinName_injective (hierarchy.parts s mem) isParts named
    have placed := isScope.package_of_parts hierarchy mem short parts
    refine ⟨mem, ?_, ?_⟩
    · rcases placed with ⟨package, -⟩ | ⟨-, k, -, -, package, -⟩
      · rw [package]
      · rw [package]
        exact prefix_append _ _
    · rw [append_assoc]
      exact placed

/-- A message that has an enum of the name that a message of the package has too, and a second file
with a package inside that of the first. -/
def shadowImporter : Importer where
  fileCount := 2
  resolve path := .ok (if path == Octets.ofString "use" then "use" else "inner")
  read path := .ok (if path == "use" then
      "package a; include \"inner\"; message Kind \x7b \x7d message Outer \x7b ".toUTF8 ++
        "enum Kind \x7b On; \x7d message Inner \x7b Kind kind; b.Deep deep; \x7d \x7d".toUTF8
    else "package a.b; message Deep \x7b \x7d".toUTF8)

theorem resolve?_lexical_shadow :
    ∃ registered table problems, ∃ kind deep : Symbol,
      registerAll .refuse {} (load shadowImporter ["use"]).files = (registered, table, problems) ∧
      ErrorFree problems ∧
      table.resolve? ⟨⟨["a"]⟩, ["Outer", "Inner"], ""⟩ ⟨false, [], "Kind"⟩ = some kind ∧
      kind.descriptor = ⟨⟨["a"]⟩, ["Outer"], "Kind"⟩ ∧
      ¬ IsDeclared (load shadowImporter ["use"]).files "a.Outer.Inner.Kind" ∧
      table.resolve? ⟨⟨["a"]⟩, ["Outer", "Inner"], ""⟩ ⟨false, ["b"], "Deep"⟩ = some deep ∧
      deep.descriptor = ⟨⟨["a", "b"]⟩, [], "Deep"⟩ ∧
      ["a"] <+: deep.descriptor.package.segments := by
  have clean : ∀ d ∈ (registerAll .refuse {} (load shadowImporter ["use"]).files).2.2,
      d.isError = false := by
    decide +kernel
  have inner : ∃ s ∈ declaredTypes (load shadowImporter ["use"]).files,
      s.descriptor.scope = ⟨⟨["a"]⟩, ["Outer", "Inner"], ""⟩ := by
    decide +kernel
  have hits : ∃ kind ∈ (registerAll .refuse {} (load shadowImporter ["use"]).files).2.1.resolve?
        ⟨⟨["a"]⟩, ["Outer", "Inner"], ""⟩ ⟨false, [], "Kind"⟩,
      kind.descriptor = ⟨⟨["a"]⟩, ["Outer"], "Kind"⟩ ∧
      ∃ deep ∈ (registerAll .refuse {} (load shadowImporter ["use"]).files).2.1.resolve?
        ⟨⟨["a"]⟩, ["Outer", "Inner"], ""⟩ ⟨false, ["b"], "Deep"⟩,
      deep.descriptor = ⟨⟨["a", "b"]⟩, [], "Deep"⟩ ∧ deep.kind ≠ .package := by
    decide +kernel
  obtain ⟨s, mem, same⟩ := inner
  obtain ⟨kind, found, isKind, deep, found', isDeep, type⟩ := hits
  have isScope : IsScope (load shadowImporter ["use"]).files ⟨⟨["a"]⟩, ["Outer", "Inner"], ""⟩ :=
    same ▸ IsScope.type s mem
  have parsed := parsed_load shadowImporter ["use"]
  obtain ⟨-, lexical⟩ := resolve?_lexical parsed rfl clean isScope
    (show Reference.ofParts false [] "Kind" = .ok ⟨false, [], "Kind"⟩ by decide +kernel)
  obtain ⟨-, lexical'⟩ := resolve?_lexical parsed rfl clean isScope
    (show Reference.ofParts false ["b"] "Deep" = .ok ⟨false, ["b"], "Deep"⟩ by decide +kernel)
  obtain ⟨depth, short, named, later, -⟩ := lexical kind found
  obtain ⟨_, -, -, -, placed⟩ := lexical' deep found'
  have outer : depth < 2 := by
    have names : kind.fullName = "a.Outer.Kind" := by rw [Symbol.fullName, isKind]; decide +kernel
    refine lt_of_le_of_ne short fun whole => ?_
    rw [whole, names] at named
    exact absurd named (by decide +kernel)
  refine ⟨_, _, _, kind, deep, rfl, clean, found, isKind, ?_, found', isDeep, (placed type).2.1⟩
  have innermost := later 2 outer (Nat.le_refl 2)
  rwa [show Reference.nameAt ⟨false, [], "Kind"⟩ ⟨⟨["a"]⟩, ["Outer", "Inner"], ""⟩ 2 =
    "a.Outer.Inner.Kind" by decide +kernel] at innermost

end BitSchema
