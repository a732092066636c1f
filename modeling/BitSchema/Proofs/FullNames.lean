import Mathlib
import BitSchema.Name.Basic

/-!
# Full names

A full name is made of parts with dots between them.  If no part is empty and none has a dot in it,
the parts can be read off the name again, and what stands before a dot is the name of the first
parts.  The segments of packages and the parts of references are of this kind, so their names are
read back as they were printed (`names_read_back`).
-/

namespace BitSchema

open List

/-- A text that a dot separates from what stands beside it. -/
structure IsPart (part : String) : Prop where
  some : part ≠ ""
  dotless : '.' ∉ part.toList

section

variable {parts as bs : List String}

theorem joinName_of_ne_empty (named : ∀ part ∈ parts, part ≠ "") :
    joinName parts = ".".intercalate parts := by
  have kept : parts.filter (· != "") = parts := by
    rw [filter_eq_self]
    simpa using named
  rw [joinName, kept]

@[simp] theorem joinName_append_empty : joinName (parts ++ [""]) = joinName parts := by
  simp [joinName]

theorem joinName_singleton {part : String} (isPart : IsPart part) : joinName [part] = part := by
  rw [joinName_of_ne_empty (by simpa using isPart.some), String.intercalate_singleton]

theorem joinName_cons {part : String} (arePart : ∀ p ∈ part :: parts, IsPart p)
    (more : parts ≠ []) : joinName (part :: parts) = part ++ "." ++ joinName parts := by
  rw [joinName_of_ne_empty fun p mem => (arePart p mem).some,
    joinName_of_ne_empty fun p mem => (arePart p (mem_cons_of_mem _ mem)).some,
    String.intercalate_cons_of_ne_nil more]

theorem joinName_ne_empty (areParts : ∀ part ∈ parts, IsPart part) (some : parts ≠ []) :
    joinName parts ≠ "" := by
  cases parts with
  | nil => exact absurd rfl some
  | cons part parts =>
    have first := (areParts part mem_cons_self).some
    by_cases more : parts = []
    · rw [more, joinName_singleton (areParts part mem_cons_self)]
      exact first
    · rw [joinName_cons areParts more]
      simp [String.append_eq_empty_iff, first]

theorem splitOn_joinName (areParts : ∀ part ∈ parts, IsPart part) (some : parts ≠ []) :
    (joinName parts).toList.splitOn '.' = parts.map String.toList := by
  rw [joinName_of_ne_empty fun part mem => (areParts part mem).some, String.toList_intercalate]
  apply splitOn_intercalate
  · intro chars mem
    obtain ⟨part, inside, rfl⟩ := mem_map.mp mem
    exact (areParts part inside).dotless
  · simpa using some

/-- Different parts make different names. -/
theorem joinName_injective (left : ∀ part ∈ as, IsPart part) (right : ∀ part ∈ bs, IsPart part)
    (same : joinName as = joinName bs) : as = bs := by
  rcases eq_or_ne as [] with rfl | someLeft
  · by_contra other
    exact joinName_ne_empty right (Ne.symm other) same.symm
  · rcases eq_or_ne bs [] with rfl | someRight
    · exact absurd same (joinName_ne_empty left someLeft)
    · have split := splitOn_joinName left someLeft
      rw [same, splitOn_joinName right someRight] at split
      exact (map_injective_iff.mpr (fun _ _ => String.toList_injective) split).symm

section

variable (areParts : ∀ part ∈ parts, IsPart part)

include areParts

/-- What stands before a dot of a name is the name of its first parts. -/
theorem joinName_take_of_dot {front back : String} (dot : joinName parts = front ++ "." ++ back) :
    ∃ k, 0 < k ∧ k < parts.length ∧ front = joinName (parts.take k) := by
  have some : parts ≠ [] := by
    rintro rfl
    have empty : front ++ "." ++ back = "" := dot.symm
    simp [String.append_eq_empty_iff] at empty
  have split : parts.map String.toList =
      front.toList.splitOn '.' ++ back.toList.splitOn '.' := by
    have chars : (front ++ "." ++ back).toList = front.toList ++ '.' :: back.toList := by simp
    rw [← splitOn_joinName areParts some, dot, chars]
    exact splitOnP_append_cons _ _ (by simp)
  have length := congrArg List.length split
  rw [length_map, length_append] at length
  have before := length_pos_of_ne_nil (splitOnP_ne_nil (· == '.') front.toList)
  have behind := length_pos_of_ne_nil (splitOnP_ne_nil (· == '.') back.toList)
  refine ⟨(front.toList.splitOn '.').length, before, ?_, ?_⟩
  · rw [length]
    exact Nat.lt_add_of_pos_right behind
  · have first : (parts.take (front.toList.splitOn '.').length).map String.toList =
        front.toList.splitOn '.' := by
      rw [map_take, split, take_left']
      rfl
    rw [joinName_of_ne_empty fun part mem => (areParts part (mem_of_mem_take mem)).some,
      ← String.toList_inj, String.toList_intercalate, first]
    exact (intercalate_splitOn '.').symm

/-- The parts of a text are those it is joined from. -/
theorem splitOn_eq_iff {chars : List Char} :
    (chars.splitOn '.').map String.ofList = parts ↔
      parts ≠ [] ∧ (joinName parts).toList = chars := by
  constructor
  · rintro rfl
    refine ⟨by simp [splitOn_ne_nil], ?_⟩
    rw [joinName_of_ne_empty fun part mem => (areParts part mem).some, String.toList_intercalate]
    simp [Function.comp_def]
  · rintro ⟨some, rfl⟩
    rw [splitOn_joinName areParts some]
    simp [Function.comp_def]

theorem head?_joinName : (joinName parts).toList.head? ≠ some '.' := by
  intro dot
  obtain ⟨chars, same⟩ := head?_eq_some_iff.mp dot
  have parted : joinName parts = "" ++ "." ++ String.ofList chars :=
    String.toList_inj.mp (by simp [same])
  obtain ⟨k, some, short, none⟩ := joinName_take_of_dot areParts parted
  refine joinName_ne_empty (fun part mem => areParts part (mem_of_mem_take mem)) ?_ none.symm
  exact ne_nil_of_length_pos (by rw [length_take]; omega)

end

end

/-! ## Packages and references -/

variable {segment : String}

theorem PackageName.not_mem_of_isSegment (valid : isSegment segment = true) {c : Char}
    (other : (isSmall c || isDigit c || c == '_') = false) : c ∉ segment.toList := by
  intro mem
  unfold isSegment at valid
  split at valid
  next => cases valid
  next d ds chars =>
    rw [Bool.and_eq_true, all_eq_true] at valid
    rw [chars] at mem
    rcases mem_cons.mp mem with rfl | mem
    · simp [valid.1] at other
    · simp [valid.2 c mem] at other

theorem PackageName.isPart_of_isSegment (valid : isSegment segment = true) : IsPart segment := by
  refine ⟨?_, not_mem_of_isSegment valid (by decide)⟩
  rintro rfl
  simp [isSegment] at valid

theorem Reference.isPart_of_isSegment (valid : isSegment segment = true) : IsPart segment := by
  rw [isSegment, Bool.and_eq_true, all_eq_true] at valid
  exact ⟨by simpa using valid.1, fun mem => absurd (valid.2 _ mem) (by decide)⟩

namespace PackageName

variable {p : PackageName}

theorem ofSegments_ok_iff {segments : List String} :
    ofSegments segments = .ok p ↔
      segments = p.segments ∧ segments ≠ [] ∧ ∀ segment ∈ segments, isSegment segment = true := by
  have valid : (∀ segment ∈ segments, isSegment segment = true) ↔
      segments.find? (!isSegment ·) = none := by simp
  unfold ofSegments
  rw [valid]
  cases segments.find? (!isSegment ·) <;> cases segments <;> cases p <;> simp

/-- A package that has a name. -/
def IsValid (p : PackageName) : Prop := ofSegments p.segments = .ok p

theorem isValid_iff :
    p.IsValid ↔ p.segments ≠ [] ∧ ∀ segment ∈ p.segments, isSegment segment = true := by
  simp [IsValid, ofSegments_ok_iff]

theorem IsValid.some (valid : p.IsValid) : p.segments ≠ [] :=
  (isValid_iff.mp valid).1

theorem IsValid.isPart (valid : p.IsValid) : ∀ segment ∈ p.segments, IsPart segment :=
  fun segment mem => isPart_of_isSegment ((isValid_iff.mp valid).2 segment mem)

theorem IsValid.joinName (valid : p.IsValid) : joinName p.segments = p.text :=
  joinName_of_ne_empty fun segment mem => (valid.isPart segment mem).some

theorem parse_ok_iff {s : String} : parse s = .ok p ↔ p.IsValid ∧ p.text = s := by
  constructor
  · intro ok
    obtain ⟨split, some, valid⟩ := ofSegments_ok_iff.mp ok
    rw [split] at some valid
    have valid := isValid_iff.mpr ⟨some, valid⟩
    have joined := ((splitOn_eq_iff valid.isPart).mp split).2
    exact ⟨valid, valid.joinName.symm.trans (String.toList_inj.mp joined)⟩
  · rintro ⟨valid, rfl⟩
    rw [parse, ← valid.joinName, (splitOn_eq_iff valid.isPart).mpr ⟨valid.some, rfl⟩]
    exact valid

theorem isSegment_iff {segment : String} :
    isSegment segment = true ↔ ∃ c cs,
      segment.toList = c :: cs ∧ c.isLower ∧ ∀ d ∈ cs, d.isLower ∨ d.isDigit ∨ d = '_' := by
  unfold isSegment
  cases segment.toList <;>
    simp [isSmall, isDigit, Char.isLower, Char.isDigit, Char.le_def, or_assoc]

end PackageName

namespace Reference

variable {absolute : Bool} {r : Reference}

theorem ofParts_ok_iff {path : List String} {name : String} :
    ofParts absolute path name = .ok r ↔
      r = ⟨absolute, path, name⟩ ∧ ∀ part ∈ path ++ [name], isSegment part = true := by
  have valid : (∀ part ∈ path, isSegment part = true) ↔ path.find? (!isSegment ·) = none := by simp
  unfold ofParts
  rw [forall_mem_append, forall_mem_singleton, valid]
  cases path.find? (!isSegment ·) <;> cases isSegment name <;> simp [eq_comm]

/-- All parts of a reference can be told apart in its name. -/
theorem isPart_of_ofParts {path : List String} {name : String}
    (ok : ofParts absolute path name = .ok r) :
    r = ⟨absolute, path, name⟩ ∧ ∀ part ∈ r.parts, IsPart part := by
  obtain ⟨rfl, valid⟩ := ofParts_ok_iff.mp ok
  exact ⟨rfl, fun part mem => isPart_of_isSegment (valid part mem)⟩

/-- A reference whose parts can stand in a schema. -/
def IsValid (r : Reference) : Prop := ofParts r.absolute r.path r.name = .ok r

theorem isValid_iff : r.IsValid ↔ ∀ part ∈ r.parts, isSegment part = true := by
  simp [IsValid, ofParts_ok_iff, parts]

theorem ofParts_dropLast {all : List String} (some : all ≠ []) :
    ofParts absolute all.dropLast (all.getLast?.getD "") = .ok r ↔
      r.IsValid ∧ r.absolute = absolute ∧ all = r.parts := by
  obtain ⟨path, name, rfl⟩ := (eq_nil_or_concat all).resolve_left some
  cases r
  simp only [ofParts_ok_iff, isValid_iff, parts, concat_eq_append, dropLast_concat,
    getLast?_concat, Option.getD_some, mk.injEq, append_singleton_inj]
  constructor
  · rintro ⟨⟨rfl, rfl, rfl⟩, valid⟩
    exact ⟨valid, rfl, rfl, rfl⟩
  · rintro ⟨valid, rfl, rfl, rfl⟩
    exact ⟨⟨rfl, rfl, rfl⟩, valid⟩

theorem parse_ok_iff {s : String} : parse s = .ok r ↔ r.IsValid ∧ r.text = s := by
  unfold parse
  dsimp only
  rw [ofParts_dropLast (by simp [splitOn_ne_nil])]
  refine and_congr_right fun valid => ?_
  have areParts := (isPart_of_ofParts valid).2
  have some : r.parts ≠ [] := by simp [parts]
  have first := head?_joinName areParts
  rw [splitOn_eq_iff areParts, text, ← String.toList_inj, String.toList_append]
  -- A text that starts with a dot has it from `absolute`, since no first part does.
  generalize s.toList = chars, (joinName r.parts).toList = joined at first ⊢
  rcases chars with - | ⟨c, chars⟩ <;> cases r.absolute <;> grind

theorem isSegment_iff {segment : String} :
    isSegment segment = true ↔
      segment ≠ "" ∧ ∀ c ∈ segment.toList, c.isAlphanum ∨ c = '_' := by
  simp [isSegment, PackageName.isSmall, PackageName.isDigit, Char.isAlphanum, Char.isAlpha,
    Char.isUpper, Char.isLower, Char.isDigit, Char.le_def, or_comm]

end Reference

/-! ## Reading names -/

/-- Some segments of small letters, digits and underscores with dots between them, each beginning
with a letter. -/
def IsPackageText (s : String) : Prop :=
  ∃ segments ≠ [], s = ".".intercalate segments ∧ ∀ segment ∈ segments, ∃ c cs,
    segment.toList = c :: cs ∧ c.isLower ∧ ∀ d ∈ cs, d.isLower ∨ d.isDigit ∨ d = '_'

/-- Some segments of letters, digits and underscores with dots between them, perhaps after a dot. -/
def IsReferenceText (s : String) : Prop :=
  ∃ dot ∈ ["", "."], ∃ parts ≠ [], s = dot ++ ".".intercalate parts ∧
    ∀ part ∈ parts, part ≠ "" ∧ ∀ c ∈ part.toList, c.isAlphanum ∨ c = '_'

/-- Values that are read from what they are printed as do not print alike. -/
theorem injOn_of_parse {α ε : Type} {parse : String → Except ε α} {text : α → String}
    {IsValid : α → Prop} (read : ∀ s a, parse s = .ok a ↔ IsValid a ∧ text a = s) :
    Set.InjOn text {a | IsValid a} := by
  intro a left b right same
  have both := (read _ a).mpr ⟨left, same⟩
  rw [(read _ b).mpr ⟨right, rfl⟩] at both
  exact (Except.ok.inj both).symm

/-- Reading and printing a name undo each other.  A text is read exactly if it is of the form of
references, or of packages; what is read is valid and is printed as that text, and whatever is valid
is read from what it is printed as, so no two print alike. -/
theorem names_read_back :
    (∀ s, (∃ r, Reference.parse s = .ok r) ↔ IsReferenceText s) ∧
    (∀ s r, Reference.parse s = .ok r ↔ r.IsValid ∧ r.text = s) ∧
    (∀ s, (∃ p, PackageName.parse s = .ok p) ↔ IsPackageText s) ∧
    (∀ s p, PackageName.parse s = .ok p ↔ p.IsValid ∧ p.text = s) ∧
    Set.InjOn Reference.text {r | r.IsValid} ∧ Set.InjOn PackageName.text {p | p.IsValid} := by
  refine ⟨fun s => ?_, fun _ _ => Reference.parse_ok_iff, fun s => ?_,
    fun _ _ => PackageName.parse_ok_iff, injOn_of_parse fun _ _ => Reference.parse_ok_iff,
    injOn_of_parse fun _ _ => PackageName.parse_ok_iff⟩
  · simp only [Reference.parse_ok_iff, Reference.isValid_iff, Reference.isSegment_iff]
    constructor
    · rintro ⟨r, valid, rfl⟩
      refine ⟨if r.absolute then "." else "", by cases r.absolute <;> simp, r.parts,
        by simp [Reference.parts], ?_, valid⟩
      rw [Reference.text, joinName_of_ne_empty fun part mem => (valid part mem).1]
    · rintro ⟨dot, isDot, parts, some, rfl, valid⟩
      obtain ⟨path, name, rfl⟩ := (eq_nil_or_concat parts).resolve_left some
      rw [concat_eq_append] at valid ⊢
      refine ⟨⟨dot == ".", path, name⟩, valid, ?_⟩
      rw [Reference.text, Reference.parts, joinName_of_ne_empty fun part mem => (valid part mem).1]
      rcases mem_pair.mp isDot with rfl | rfl <;> rfl
  · simp only [PackageName.parse_ok_iff, PackageName.isValid_iff, PackageName.isSegment_iff]
    constructor
    · rintro ⟨p, ⟨some, valid⟩, rfl⟩
      exact ⟨p.segments, some, rfl, valid⟩
    · rintro ⟨segments, some, rfl, valid⟩
      exact ⟨⟨segments⟩, ⟨some, valid⟩, rfl⟩

end BitSchema
