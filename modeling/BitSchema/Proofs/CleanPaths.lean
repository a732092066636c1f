import Mathlib
import BitSchema.File.Path

/-!
# Clean paths

The elements of a clean path are tidy: the way up comes first, then come names, and a rooted path
has no way up.  Cleaning keeps tidy elements, so a clean path is as good as its elements and whether
it is rooted, and names joined to a path are appended to its elements (`join_names`).
-/

namespace BitSchema.Path

open List

/-! ## Elements -/

/-- Paths joined by a slash have the elements of both. -/
theorem elements_append (front back : String) :
    elements (front ++ "/" ++ back) = elements front ++ elements back := by
  have chars : (front ++ "/" ++ back).toList = front.toList ++ '/' :: back.toList := by simp
  rw [elements, chars, splitOn_append_cons_self, map_append]
  rfl

/-- A piece is made of what was split, without what it was split at. -/
theorem spec_of_mem_splitOn {c : Char} {chars piece : List Char}
    (mem : piece ∈ chars.splitOn c) : c ∉ piece ∧ piece ⊆ chars := by
  induction chars generalizing piece with
  | nil => simp_all
  | cons d chars ih =>
    obtain ⟨first, rest, split⟩ := exists_cons_of_ne_nil (splitOn_ne_nil c chars)
    rw [split] at ih
    rw [splitOn_cons_eq_if_modifyHead, split] at mem
    by_cases same : d = c
    · rw [if_pos (by simpa using same), mem_cons] at mem
      rcases mem with rfl | later
      · exact ⟨not_mem_nil, nil_subset _⟩
      · exact ⟨(ih later).1, subset_cons_of_subset d (ih later).2⟩
    · rw [if_neg (by simpa using same), modifyHead_cons, mem_cons] at mem
      rcases mem with rfl | later
      · obtain ⟨without, inside⟩ := ih mem_cons_self
        exact ⟨not_mem_cons_of_ne_of_not_mem (Ne.symm same) without, cons_subset_cons d inside⟩
      · obtain ⟨without, inside⟩ := ih (mem_cons_of_mem first later)
        exact ⟨without, subset_cons_of_subset d inside⟩

/-- An element is a part of the path without slashes. -/
theorem spec_of_mem_elements {path element : String} (mem : element ∈ elements path) :
    '/' ∉ element.toList ∧ element.toList ⊆ path.toList := by
  obtain ⟨chars, among, rfl⟩ := mem_map.mp mem
  rw [String.toList_ofList]
  exact spec_of_mem_splitOn among

theorem slash_not_mem_of_mem_elements {path element : String} (mem : element ∈ elements path) :
    '/' ∉ element.toList := (spec_of_mem_elements mem).1

/-- A name that stands for itself in a path. -/
structure IsName (name : String) : Prop where
  ne_empty : name ≠ ""
  ne_dot : name ≠ "."
  ne_dots : name ≠ ".."
  slash : '/' ∉ name.toList

section

variable {names : List String}

/-- Names without slashes are the elements of the path that they make. -/
theorem elements_joined (slash : ∀ name ∈ names, '/' ∉ name.toList) (some : names ≠ []) :
    elements ("/".intercalate names) = names := by
  have split : ("/".intercalate names).toList.splitOn '/' = names.map String.toList := by
    rw [String.toList_intercalate]
    apply splitOn_intercalate
    · simpa using slash
    · simpa using some
  rw [elements, split]
  simp [Function.comp_def]

theorem elements_intercalate (areNames : ∀ name ∈ names, IsName name) (some : names ≠ []) :
    elements ("/".intercalate names) = names :=
  elements_joined (fun name mem => (areNames name mem).slash) some

theorem mem_intercalate {sep : String} {c : Char} (other : c ∉ sep.toList)
    (mem : c ∈ (sep.intercalate names).toList) : ∃ name ∈ names, c ∈ name.toList := by
  induction names with
  | nil => simp at mem
  | cons first names ih =>
    cases names with
    | nil => exact ⟨first, mem_cons_self, by simpa using mem⟩
    | cons second names =>
      rw [String.intercalate_cons_cons, String.toList_append, String.toList_append] at mem
      rcases mem_append.mp mem with before | later
      · exact ⟨first, mem_cons_self, by simpa [other] using before⟩
      · obtain ⟨name, among, inside⟩ := ih later
        exact ⟨name, mem_cons_of_mem first among, inside⟩

/-- Names are kept as they are. -/
theorem foldl_pushElement (areNames : ∀ name ∈ names, IsName name) (rooted : Bool)
    (done : List String) : names.foldl (pushElement rooted) done = names.reverse ++ done := by
  induction names generalizing done with
  | nil => rfl
  | cons name names ih =>
    obtain ⟨here, later⟩ := forall_mem_cons.mp areNames
    have push : pushElement rooted done name = name :: done := by
      unfold pushElement
      rw [if_neg (by simp [here.ne_empty, here.ne_dot]), if_neg here.ne_dots]
    rw [foldl_cons, push, ih later, reverse_cons, append_assoc, singleton_append]

end

/-! ## Clean elements -/

/-- Double dots, of which a rooted path has none, and names after them. -/
def Tidy (rooted : Bool) (es : List String) : Prop :=
  ∃ ups names, es = List.replicate ups ".." ++ names ∧ (∀ name ∈ names, IsName name) ∧
    (rooted = true → ups = 0)

section

variable {rooted : Bool} {es done down : List String} {e path : String}

theorem Tidy.of_names (areNames : ∀ name ∈ es, IsName name) : Tidy rooted es :=
  ⟨0, es, rfl, areNames, fun _ => rfl⟩

/-- Names can be added to tidy elements. -/
theorem Tidy.append (tidy : Tidy rooted es) (downNames : ∀ name ∈ down, IsName name) :
    Tidy rooted (es ++ down) := by
  obtain ⟨ups, names, rfl, areNames, top⟩ := tidy
  exact ⟨ups, names ++ down, append_assoc .., forall_mem_append.mpr ⟨areNames, downNames⟩, top⟩

theorem Tidy.of_concat (tidy : Tidy rooted (es ++ [e])) : Tidy rooted es := by
  obtain ⟨ups, names, split, areNames, top⟩ := tidy
  rcases eq_nil_or_concat names with rfl | ⟨names, last, rfl⟩
  · cases ups with
    | zero => simp at split
    | succ ups =>
      rw [append_nil, replicate_succ'] at split
      exact ⟨ups, [], by rw [(append_inj' split rfl).1, append_nil], by simp,
        fun isRooted => absurd (top isRooted) (by simp)⟩
  · rw [concat_eq_append, ← append_assoc] at split
    exact ⟨ups, names, (append_inj' split rfl).1, fun name mem => areNames name (by simp [mem]),
      top⟩

/-- The first of some tidy elements are tidy. -/
theorem Tidy.of_prefix (tidy : Tidy rooted es) (before : done <+: es) : Tidy rooted done := by
  obtain ⟨rest, rfl⟩ := before
  induction rest using List.reverseRecOn with
  | nil => rwa [append_nil] at tidy
  | append_singleton rest e ih =>
    rw [← append_assoc] at tidy
    exact ih tidy.of_concat

theorem Tidy.of_mem (tidy : Tidy rooted es) (mem : e ∈ es) : e ≠ "" ∧ '/' ∉ e.toList := by
  obtain ⟨ups, names, rfl, areNames, -⟩ := tidy
  rcases mem_append.mp mem with up | name
  · rw [eq_of_mem_replicate up]
    decide
  · exact ⟨(areNames e name).ne_empty, (areNames e name).slash⟩

/-- One more element keeps the elements so far tidy. -/
theorem Tidy.push (tidy : Tidy rooted done.reverse) (slash : '/' ∉ e.toList) :
    Tidy rooted (pushElement rooted done e).reverse := by
  unfold pushElement
  split
  next => exact tidy
  next dot =>
    split
    next dots =>
      cases done with
      | nil =>
        cases rooted with
        | true => exact tidy
        | false => exact ⟨1, [], rfl, by simp, by simp⟩
      | cons top rest =>
        rw [reverse_cons] at tidy
        dsimp only
        split
        next up =>
          -- A way up has only ways up before it.
          obtain ⟨ups, names, split, areNames, least⟩ := tidy
          rcases eq_nil_or_concat names with rfl | ⟨names, last, rfl⟩
          · refine ⟨ups + 1, [], ?_, by simp, fun isRooted => ?_⟩
            · rw [reverse_cons, reverse_cons, split, append_nil, append_nil, replicate_succ']
            · rw [least isRooted] at split
              simp at split
          · rw [concat_eq_append, ← append_assoc] at split
            have same : last = ".." := by
              simpa [up] using (append_inj' split rfl).2.symm
            exact absurd same (areNames last (by simp)).ne_dots
        next => exact tidy.of_concat
    next dots =>
      rw [reverse_cons]
      have isName : IsName e := ⟨fun h => dot (.inl h), fun h => dot (.inr h), dots, slash⟩
      exact tidy.append (forall_mem_singleton.mpr isName)

/-- Cleaning gives tidy elements. -/
theorem tidy_cleanElements (path : String) : Tidy (isAbsolute path) (cleanElements path) := by
  refine List.foldlRecOn (motive := fun done : List String => Tidy (isAbsolute path) done.reverse)
    (elements path) _ ⟨0, [], rfl, by simp, by simp⟩ fun done tidy e mem => ?_
  exact tidy.push (slash_not_mem_of_mem_elements mem)

/-- Nothing is kept that was not written. -/
theorem mem_of_mem_foldl (mem : e ∈ es.foldl (pushElement rooted) done) : e ∈ es ∨ e ∈ done := by
  induction es generalizing done with
  | nil => exact .inr mem
  | cons first es ih =>
    rcases ih mem with later | kept
    · exact .inl (mem_cons_of_mem first later)
    · unfold pushElement at kept
      grind

/-- Cleaning brings in no elements. -/
theorem mem_of_mem_cleanElements (mem : e ∈ cleanElements path) : e ∈ elements path :=
  (mem_of_mem_foldl (mem_reverse.mp mem)).resolve_right not_mem_nil

/-- Tidy elements stay as they are. -/
theorem Tidy.foldl_eq (tidy : Tidy rooted es) : es.foldl (pushElement rooted) [] = es.reverse := by
  obtain ⟨ups, names, rfl, areNames, top⟩ := tidy
  have way : (List.replicate ups "..").foldl (pushElement rooted) [] = List.replicate ups ".." := by
    induction ups with
    | zero => rfl
    | succ ups ih =>
      cases rooted with
      | true => exact absurd (top rfl) (by simp)
      | false =>
        have up : pushElement false (List.replicate ups "..") ".." =
            List.replicate (ups + 1) ".." := by
          cases ups <;> rfl
        rw [replicate_succ', foldl_append, ih (by simp), ← replicate_succ']
        exact up
  rw [foldl_append, way, foldl_pushElement areNames, reverse_append, reverse_replicate]

/-! ## Paths from elements -/

theorem isAbsolute_slash (path : String) : isAbsolute ("/" ++ path) = true := by
  simp [isAbsolute]

/-- The path of some elements has these elements. -/
theorem elements_ofElements (slash : ∀ e ∈ es, '/' ∉ e.toList) (some : es ≠ []) :
    elements (ofElements rooted es) = (if rooted then [""] else []) ++ es := by
  cases rooted with
  | true =>
    have start : ofElements true es = "" ++ "/" ++ "/".intercalate es := by
      rw [String.empty_append]
      rfl
    rw [start, elements_append, elements_joined slash some]
    rfl
  | false => simpa [ofElements, some] using elements_joined slash some

theorem Tidy.isAbsolute_eq (tidy : Tidy rooted es) :
    isAbsolute (ofElements rooted es) = rooted := by
  cases rooted with
  | true => exact isAbsolute_slash _
  | false =>
    cases es with
    | nil => rfl
    | cons first rest =>
      have split := @elements_ofElements false _ (fun e mem => (tidy.of_mem mem).2)
        (cons_ne_nil first rest)
      rw [Bool.eq_false_iff]
      intro absolute
      obtain ⟨chars, same⟩ := head?_eq_some_iff.mp (beq_iff_eq.mp absolute)
      rw [elements, same, splitOn_cons_eq_if_modifyHead] at split
      exact (tidy.of_mem mem_cons_self).1 (by simpa using congrArg List.head? split.symm)

/-- Cleaning changes no tidy elements. -/
theorem Tidy.cleanElements_eq (tidy : Tidy rooted es) :
    cleanElements (ofElements rooted es) = es := by
  rw [cleanElements, tidy.isAbsolute_eq]
  by_cases none : es = []
  · subst none
    cases rooted <;> decide
  · rw [elements_ofElements (fun e mem => (tidy.of_mem mem).2) none, foldl_append]
    have start : (if rooted then [""] else []).foldl (pushElement rooted) [] = [] := by
      cases rooted <;> rfl
    rw [start, tidy.foldl_eq, reverse_reverse]

theorem Tidy.ofElements_ne_empty (tidy : Tidy rooted es) : ofElements rooted es ≠ "" := by
  intro empty
  have split := tidy.cleanElements_eq
  rw [empty] at split
  obtain rfl : [] = es := split
  cases rooted <;> exact absurd empty (by decide)

theorem cleanElements_clean (path : String) : cleanElements (clean path) = cleanElements path :=
  (tidy_cleanElements path).cleanElements_eq

theorem isAbsolute_clean (path : String) : isAbsolute (clean path) = isAbsolute path :=
  (tidy_cleanElements path).isAbsolute_eq

/-! ## Joined paths -/

theorem isAbsolute_append {path : String} (some : path ≠ "") (rest : String) :
    isAbsolute (path ++ rest) = isAbsolute path := by
  obtain ⟨c, chars, same⟩ := exists_cons_of_ne_nil (fun h => some (String.toList_eq_nil_iff.mp h))
  simp [isAbsolute, same]

/-- What follows a slash is pushed onto what comes before it. -/
theorem cleanElements_append (some : path ≠ "") (rest : String) :
    cleanElements (path ++ "/" ++ rest) = ((elements rest).foldl (pushElement (isAbsolute path))
      (cleanElements path).reverse).reverse := by
  rw [cleanElements, String.append_assoc, isAbsolute_append some, ← String.append_assoc,
    elements_append, foldl_append, cleanElements, reverse_reverse]

/-- Two paths are joined with a slash and cleaned. -/
theorem join_eq_clean {rest : String} (some : path ≠ "") (more : rest ≠ "") :
    join [path, rest] = clean (path ++ "/" ++ rest) := by
  simp [join, some, more, String.intercalate_cons_cons, String.intercalate_singleton]

/-- Names joined to a path are appended to its elements. -/
theorem join_names {key : String} (some : path ≠ "") (names : ∀ name ∈ elements key, IsName name) :
    join [path, key] = ofElements (isAbsolute path) (cleanElements path ++ elements key) := by
  have more : key ≠ "" := by
    rintro rfl
    exact (names "" (by decide)).ne_empty rfl
  rw [join_eq_clean some more, clean, cleanElements_append some, foldl_pushElement names,
    String.append_assoc, isAbsolute_append some]
  simp

/-! ## Ends of paths -/

theorem cleanElements_slash (some : path ≠ "") :
    cleanElements (path ++ "/") = cleanElements path := by
  have cleaned := cleanElements_append some ""
  rw [String.append_empty] at cleaned
  exact cleaned.trans (reverse_reverse _)

theorem ofElements_append {down : List String} (some : es ≠ []) (more : down ≠ []) :
    ofElements rooted (es ++ down) = ofElements rooted es ++ "/" ++ "/".intercalate down := by
  cases rooted <;>
    simp [ofElements, some, String.intercalate_append_of_ne_nil some more, String.append_assoc]

/-- The directory of a path has all its elements but the last. -/
theorem dir_ofElements (tidy : Tidy rooted es) (slash : '/' ∉ e.toList) :
    Path.dir (ofElements rooted (es ++ [e])) = ofElements rooted es := by
  have cut : ∀ front, Path.dir (front ++ "/" ++ e) = clean (front ++ "/") := by
    intro front
    have chars : (front ++ "/" ++ e).toList.reverse =
        e.toList.reverse ++ '/' :: front.toList.reverse := by
      simp
    rw [Path.dir, chars, dropWhile_append_of_pos]
    · simp
    · simp only [mem_reverse, bne_iff_ne]
      rintro c mem rfl
      exact slash mem
  by_cases none : es = []
  · subst none
    cases rooted with
    | true => exact cut ""
    | false =>
      have all : e.toList.reverse.dropWhile (· != '/') = [] := by
        rw [dropWhile_eq_nil_iff]
        simp only [mem_reverse, bne_iff_ne]
        rintro c mem rfl
        exact slash mem
      have alone : ofElements false ([] ++ [e]) = e := by simp [ofElements]
      rw [alone, Path.dir, all]
      decide
  · have some := tidy.ofElements_ne_empty
    rw [ofElements_append none (by simp), String.intercalate_singleton, cut, clean,
      isAbsolute_append some, cleanElements_slash some, tidy.isAbsolute_eq, tidy.cleanElements_eq]

/-- The path of a name ends in no slash. -/
theorem endsInSlash_ofElements (isName : IsName e) :
    endsInSlash (ofElements rooted (es ++ [e])) = false := by
  have ends : ∃ front, ofElements rooted (es ++ [e]) = front ++ e := by
    by_cases none : es = []
    · cases rooted with
      | true => exact ⟨"/", by simp [none, ofElements]⟩
      | false => exact ⟨"", by simp [none, ofElements]⟩
    · rw [ofElements_append none (by simp), String.intercalate_singleton]
      exact ⟨_, rfl⟩
  obtain ⟨front, same⟩ := ends
  have some : e.toList ≠ [] := fun empty => isName.ne_empty (String.toList_eq_nil_iff.mp empty)
  rw [endsInSlash, same, String.toList_append, getLast?_append_of_ne_nil _ some,
    beq_eq_false_iff_ne]
  exact fun last => isName.slash (mem_of_getLast? last)

theorem dropSlashes_append (ends : endsInSlash path = false) {slash : String}
    (slashes : slash = "" ∨ slash = "/") : dropSlashes (path ++ slash) = path := by
  have keep : path.toList.reverse.dropWhile (· == '/') = path.toList.reverse := by
    cases chars : path.toList.reverse with
    | nil => rfl
    | cons c rest =>
      rw [endsInSlash, ← head?_reverse, chars] at ends
      exact dropWhile_cons_of_neg (by simpa using ends)
  rcases slashes with rfl | rfl <;> simp [dropSlashes, keep]

end

end BitSchema.Path
