import BitSchema.Proofs.IncludePaths
import BitSchema.Proofs.LoadedFiles

/-!
# Include paths in normal form

An include path is checked as it is written and then cleaned.  Its last element ends in the schema
extension, so it is a name and cleaning keeps it; what is found is therefore a path of names with
the same extension (`resolveLocal_normal`).

`Path.walk?` says where a path leads without cleaning it.  Two include paths that lead to the same
place are found under the same name.
-/

namespace BitSchema

open List BitSchema.Path

namespace Path

/-- Where the elements of a path lead from a place, given by the names on the way to it; nowhere if
they leave the tree. -/
def walk? : List String → List String → Option (List String)
  | place, [] => some place
  | place, e :: es =>
    if e = "" ∨ e = "." then walk? place es
    else if e = ".." then if place = [] then none else walk? place.dropLast es
    else walk? (place ++ [e]) es

/-! ## Cleaned elements -/

section

variable {e : String} {done es : List String}

/-- A way out of the tree is never undone. -/
theorem dots_mem_foldl (mem : ".." ∈ done) : ".." ∈ es.foldl (pushElement false) done := by
  induction es generalizing done with
  | nil => exact mem
  | cons e es ih =>
    apply ih
    unfold pushElement
    split
    next => exact mem
    next =>
      split
      next =>
        cases done with
        | nil => cases mem
        | cons top rest =>
          dsimp only
          split
          next => exact mem_cons_self
          next other => exact (mem_cons.mp mem).resolve_left (Ne.symm other)
      next => exact mem_cons_of_mem e mem

/-- Elements that stay inside the tree lead where they are cleaned to. -/
theorem walk?_of_foldl (inside : ".." ∉ es.foldl (pushElement false) done) :
    walk? done.reverse es = some (es.foldl (pushElement false) done).reverse := by
  induction es generalizing done with
  | nil => rfl
  | cons e es ih =>
    rw [foldl_cons] at inside ⊢
    rw [walk?, ← ih inside]
    unfold pushElement at inside ⊢
    split
    next => rfl
    next =>
      split
      next dots =>
        cases done with
        | nil => exact absurd (dots_mem_foldl (by simp [dots])) inside
        | cons top rest =>
          have below : top ≠ ".." := by
            rintro rfl
            exact inside (dots_mem_foldl (by simp [dots]))
          simp [below]
      next => rw [reverse_cons]

end

/-! ## Paths that end in a name -/

section

variable {path : String}

theorem ext_congr {other : String} (same : lastElement path = lastElement other) :
    ext path = ext other := by
  rw [ext, ext, same]

/-- With an extension that is more than a dot, the last element is a name, and stays in place. -/
theorem cleanElements_of_ext (schema : ext path = schemaExtension) :
    ∃ front, cleanElements path = front ++ [lastElement path] ∧ IsName (lastElement path) := by
  obtain ⟨front, last, split⟩ := eq_nil_or_concat (elements path) |>.resolve_left
    (by simp [elements, splitOn_ne_nil])
  have isLast : lastElement path = last := by simp [lastElement, split]
  have mem : lastElement path ∈ elements path := by simp [split, isLast]
  have differs : ∀ other, ext other ≠ schemaExtension → lastElement path ≠ lastElement other :=
    fun other none same => none ((ext_congr same).symm.trans schema)
  have name : IsName (lastElement path) :=
    ⟨differs "" (by decide), differs "." (by decide), differs ".." (by decide),
      slash_not_mem_of_mem_elements mem⟩
  refine ⟨(front.foldl (pushElement (isAbsolute path)) []).reverse, ?_, name⟩
  rw [cleanElements, split, concat_eq_append, foldl_append, ← isLast,
    foldl_pushElement (forall_mem_singleton.mpr name)]
  simp

/-- A path of names, and where it comes from. -/
structure Normal (path normal : String) (names : List String) : Prop where
  some : names ≠ []
  areNames : ∀ name ∈ names, IsName name
  normal_eq : normal = "/".intercalate names
  cleaned : cleanElements path = names
  last : lastElement normal = lastElement path

theorem exists_normal (isRelative : isAbsolute path = false) (schema : ext path = schemaExtension)
    (inside : isLocal (clean path) = true) :
    ∃ names, Normal path (clean path) names := by
  obtain ⟨front, cleaned, name⟩ := cleanElements_of_ext schema
  have joined : clean path = "/".intercalate (cleanElements path) := by
    rw [clean, isRelative, ofElements, cleaned]
    simp
  have slash : ∀ e ∈ cleanElements path, '/' ∉ e.toList := by
    intro e mem
    exact slash_not_mem_of_mem_elements (mem_of_mem_cleanElements mem)
  have split : elements (clean path) = cleanElements path := by
    rw [joined, elements_joined slash (by simp [cleaned])]
  have last : lastElement (clean path) = lastElement path := by
    rw [lastElement, split, cleaned]
    simp
  have areNames : ∀ name ∈ cleanElements path, IsName name := by
    have more : clean path ≠ "." := by
      intro dot
      rw [dot] at last
      exact name.ne_dot (last.symm.trans (by decide))
    intro e mem
    simp only [isLocal, more, decide_false, Bool.false_or, all_eq_true, Bool.and_eq_true,
      bne_iff_ne, split] at inside
    obtain ⟨⟨empty, dot⟩, dots⟩ := inside e mem
    exact ⟨empty, dot, dots, slash e mem⟩
  exact ⟨_, by simp [cleaned], areNames, joined, rfl, last⟩

variable {normal : String} {names : List String}

section

variable (n : Normal path normal names)

include n

theorem Normal.ne_empty : normal ≠ "" := n.normal_eq ▸ intercalate_ne_empty n.areNames n.some

theorem Normal.elements_eq :
    elements normal = names := n.normal_eq ▸ elements_intercalate n.areNames n.some

theorem Normal.isRelative :
    isAbsolute normal = false := n.normal_eq ▸ isAbsolute_intercalate n.areNames n.some

theorem Normal.clean_eq : clean normal = normal := by
  rw [clean, n.isRelative, cleanElements, n.elements_eq, foldl_pushElement n.areNames]
  simp [ofElements, n.some, n.normal_eq]

theorem Normal.walk?_eq
    (isRelative : isAbsolute path = false) : walk? [] (elements path) = .some names := by
  have cleaned := n.cleaned
  rw [cleanElements, isRelative] at cleaned
  have inside : ".." ∉ (elements path).foldl (pushElement false) [] := fun dots =>
    (n.areNames ".." (cleaned ▸ mem_reverse.mpr dots)).ne_dots rfl
  rw [← cleaned]
  exact walk?_of_foldl inside

end

end

end Path

/-! ## Resolved includes -/

theorem checkIncludePath_ok_iff {written : Octets} :
    checkIncludePath written = .ok () ↔ written.isEmpty = false ∧
      isAbsolute written.octetwise = false ∧ ext written.octetwise = schemaExtension := by
  unfold checkIncludePath
  split_ifs <;> simp_all

section

variable {status : String → FileStatus} {written : Octets} {path : String}

/-- The octets of what is found are the names that the octets of the include path lead to. -/
theorem normal_of_resolveLocal (found : resolveLocal status written = .ok path) :
    ∃ names, Normal written.octetwise (Octets.spell path) names ∧
      walk? [] (elements written.octetwise) = some names := by
  obtain ⟨⟨checked, inside⟩, cleaned, -⟩ := resolveLocal_ok_iff.mp found
  obtain ⟨-, isRelative, schema⟩ := checkIncludePath_ok_iff.mp checked
  have same : clean written.octetwise = Octets.spell path := by
    rw [← octetwise_cleanOctets, cleaned, Octets.spell]
  obtain ⟨names, normal⟩ := exists_normal isRelative schema (by rw [same, isLocal_spell, inside])
  exact ⟨names, same ▸ normal, normal.walk?_eq isRelative⟩

/-- What an include path leads to is a regular file inside the tree, and a path in normal form that
leads to itself.  Two include paths lead to the same if and only if their clean forms are equal,
which is if and only if they lead to the same place. -/
theorem resolveLocal_normal (found : resolveLocal status written = .ok path) :
    (isAbsolute path = false ∧
      (∀ e ∈ elements path, e ≠ "" ∧ e ≠ "." ∧ e ≠ "..") ∧
      ext path = schemaExtension ∧ status path = .regular ∧
      resolveLocal status (Octets.ofString path) = .ok path) ∧
    ∀ other otherPath, resolveLocal status other = .ok otherPath →
      (path = otherPath ↔ cleanOctets written = cleanOctets other) ∧
      (path = otherPath ↔ walk? [] (elements written.octetwise) =
        walk? [] (elements other.octetwise)) := by
  obtain ⟨names, normal, leads⟩ := normal_of_resolveLocal found
  obtain ⟨⟨checked, inside⟩, cleaned, regular⟩ := resolveLocal_ok_iff.mp found
  obtain ⟨-, -, schema⟩ := checkIncludePath_ok_iff.mp checked
  have sameExt : ext (Octets.spell path) = schemaExtension :=
    (ext_congr normal.last).trans schema
  refine ⟨⟨(isAbsolute_spell path).symm.trans normal.isRelative, fun e mem => ?_,
    ext_spell_eq_iff.mp sameExt, regular, ?_⟩, fun other otherPath otherFound => ⟨?_, ?_⟩⟩
  · have split := normal.elements_eq
    rw [elements_spell] at split
    have name := normal.areNames (Octets.spell e) (split ▸ mem_map_of_mem mem)
    exact ⟨fun empty => name.ne_empty (spell_eq_empty.mpr empty),
      fun dot => name.ne_dot (spell_eq_dot.mpr dot),
      fun dots => name.ne_dots (spell_eq_dots.mpr dots)⟩
  · rw [resolveLocal_ok_iff, checkIncludePath_ok_iff]
    refine ⟨⟨⟨?_, normal.isRelative, sameExt⟩, inside⟩, ?_, regular⟩
    · exact ImportRoots.isEmpty_ofString (mt spell_eq_empty.mpr normal.ne_empty)
    · rw [cleanOctets_ofString, Octets.ofString_inj, ← Octets.spell_inj, ← clean_spell,
        normal.clean_eq]
  · obtain ⟨-, otherCleaned, -⟩ := resolveLocal_ok_iff.mp otherFound
    rw [cleaned, otherCleaned, Octets.ofString_inj]
  · obtain ⟨otherNames, otherNormal, otherLeads⟩ := normal_of_resolveLocal otherFound
    rw [leads, otherLeads, Option.some.injEq, ← Octets.spell_inj]
    constructor
    · intro same
      rw [← normal.elements_eq, same, otherNormal.elements_eq]
    · rintro rfl
      rw [normal.normal_eq, otherNormal.normal_eq]

/-- The first element of one of the paths is an octet that starts no character. -/
theorem resolveLocal_normal_winding :
    let status path := if path = "d/y.baproto" then FileStatus.regular else .missing
    let winding : Octets := 0xFF :: Octets.ofString "/../d/x/..//y.baproto"
    resolveLocal status winding = .ok "d/y.baproto" ∧
      resolveLocal status (Octets.ofString "d/y.baproto") = .ok "d/y.baproto" ∧
      walk? [] (elements winding.octetwise) =
        walk? [] (elements (Octets.ofString "d/y.baproto").octetwise) := by
  intro status winding
  have found : resolveLocal status winding = .ok "d/y.baproto" :=
    toOption_eq_some_iff.mp (by decide +kernel)
  obtain ⟨⟨-, -, -, -, again⟩, others⟩ := resolveLocal_normal found
  exact ⟨found, again, (others _ _ again).2.mp rfl⟩

end

end BitSchema
