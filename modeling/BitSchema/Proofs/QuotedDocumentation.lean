import Mathlib
import BitSchema.Ir.Listing

/-!
# Quoted documentation

Documentation stands in a listing between quotes, on one line.  What is written for a character is
never the start of what is written for another, so nothing is lost; and a quote ends the text
exactly if an even number of backslashes stands before it (`Ir.Listing.quote_faithful`).
-/

namespace BitSchema.Ir.Listing

open List

/-- The character is no control character. -/
def Shown (c : Char) : Prop := 0x20 ≤ c.toNat ∧ c.toNat ≠ 0x7F

instance : DecidablePred Shown := fun _ => inferInstanceAs (Decidable (_ ∧ _))

/-- How many backslashes stand at the end. -/
def trailing (cs : List Char) : Nat := (cs.reverse.takeWhile (· == '\\')).length

theorem trailing_concat (cs : List Char) (c : Char) :
    trailing (cs ++ [c]) = if c = '\\' then trailing cs + 1 else 0 := by
  rw [trailing, reverse_concat, takeWhile_cons]
  by_cases slash : c = '\\' <;> simp [slash, trailing]

/-- Every quote is after an odd number of backslashes, and the end is not; before the text stands an
odd number of them or an even one. -/
def guarded (odd : Bool) : List Char → Bool
  | [] => !odd
  | c :: cs => (c != '"' || odd) && guarded (c == '\\' && !odd) cs

theorem guarded_append {odd : Bool} {cs ds : List Char} (first : guarded odd cs = true)
    (rest : guarded false ds = true) : guarded odd (cs ++ ds) = true := by
  induction cs generalizing odd with
  | nil =>
    rw [guarded, Bool.not_eq_true'] at first
    rwa [first]
  | cons c cs ih =>
    rw [guarded, Bool.and_eq_true] at first
    rw [cons_append, guarded, first.1, ih first.2, Bool.and_self]

theorem trailing_of_guarded (done : List Char) {cs : List Char}
    (ok : guarded (decide (Odd (trailing done))) cs = true) :
    Even (trailing (done ++ cs)) ∧
      ∀ front back, cs = front ++ '"' :: back → Odd (trailing (done ++ front)) := by
  induction cs generalizing done with
  | nil => exact ⟨by simpa [guarded] using ok, by simp⟩
  | cons c cs ih =>
    have next : (c == '\\' && !decide (Odd (trailing done))) =
        decide (Odd (trailing (done ++ [c]))) := by
      rw [trailing_concat]
      by_cases slash : c = '\\' <;> simp [slash, Nat.odd_add_one, -Nat.not_odd_iff_even]
    rw [guarded, next, Bool.and_eq_true] at ok
    obtain ⟨even, odd⟩ := ih (done ++ [c]) ok.2
    refine ⟨by simpa using even, fun front back eq => ?_⟩
    cases front with
    | nil =>
      obtain ⟨rfl, -⟩ := List.cons.inj eq
      simpa using ok.1
    | cons d front =>
      obtain ⟨rfl, rest⟩ := List.cons.inj eq
      simpa using odd front back rest

/-! ## Characters -/

/-- The numbers of the characters that are not written as they are. -/
def escapedCodes : List Nat := '\\'.toNat :: '"'.toNat :: 0x7F :: List.range 0x20

theorem quoteChar_plain {c : Char} (plain : c.toNat ∉ escapedCodes) : quoteChar c = [c] := by
  simp only [escapedCodes, mem_cons, mem_range, not_or] at plain
  obtain ⟨slash, quote, delete, low⟩ := plain
  rw [quoteChar, if_neg, if_neg, if_neg, if_neg (not_or.mpr ⟨low, delete⟩)]
  · rintro rfl
    exact low (by decide)
  · rintro rfl
    exact low (by decide)
  · rintro (rfl | rfl)
    · exact slash rfl
    · exact quote rfl

theorem quoteChar_escaped {c : Char} (escaped : c.toNat ∈ escapedCodes) :
    (quoteChar c).head? = some '\\' ∧ (∀ d ∈ quoteChar c, Shown d) ∧
      guarded false (quoteChar c) = true := by
  have table : ∀ n ∈ escapedCodes, (quoteChar (Char.ofNat n)).head? = some '\\' ∧
      ((quoteChar (Char.ofNat n)).all fun d => Shown d) ∧
        guarded false (quoteChar (Char.ofNat n)) = true := by
    decide +kernel
  simpa using table _ escaped

theorem shown_quoteChar (c : Char) :
    (∀ d ∈ quoteChar c, Shown d) ∧ guarded false (quoteChar c) = true := by
  by_cases escaped : c.toNat ∈ escapedCodes
  · exact (quoteChar_escaped escaped).2
  · rw [quoteChar_plain escaped]
    simp only [escapedCodes, mem_cons, mem_range, not_or, Char.toNat_inj] at escaped
    obtain ⟨slash, quote, delete, low⟩ := escaped
    simpa [Shown, guarded, slash, quote, delete] using low

theorem head?_quoteChar (c : Char) :
    (quoteChar c).head? = some (if c.toNat ∈ escapedCodes then '\\' else c) := by
  split
  next escaped => exact (quoteChar_escaped escaped).1
  next plain => rw [quoteChar_plain plain, head?_cons]

/-- What is written for a character is not the start of what is written for another. -/
theorem eq_of_prefix_quoteChar {c d : Char} (start : quoteChar c <+: quoteChar d) : c = d := by
  have heads := head?_quoteChar d
  obtain ⟨rest, eq⟩ := start
  rw [← eq, head?_append, head?_quoteChar, Option.some_or, Option.some_inj] at heads
  split_ifs at heads with left right right
  · have table : ∀ m ∈ escapedCodes, ∀ n ∈ escapedCodes,
        (quoteChar (Char.ofNat m)).isPrefixOf (quoteChar (Char.ofNat n)) → m = n := by
      decide +kernel
    have same := table _ left _ right
    rw [Char.ofNat_toNat, Char.ofNat_toNat, isPrefixOf_iff_prefix] at same
    exact Char.toNat_inj.mp (same ⟨rest, eq⟩)
  · exact absurd (heads ▸ by decide) right
  · exact absurd (heads ▸ by decide) left
  · exact heads

/-! ## Texts -/

theorem flatMap_quoteChar_injective {cs ds : List Char}
    (same : cs.flatMap quoteChar = ds.flatMap quoteChar) : cs = ds := by
  have some : ∀ c, quoteChar c ≠ [] := fun c none => by simpa [none] using head?_quoteChar c
  induction cs generalizing ds with
  | nil =>
    cases ds with
    | nil => rfl
    | cons d ds => exact absurd (append_eq_nil_iff.mp same.symm).1 (some d)
  | cons c cs ih =>
    cases ds with
    | nil => exact absurd (append_eq_nil_iff.mp same).1 (some c)
    | cons d ds =>
      rw [flatMap_cons, flatMap_cons] at same
      have first : c = d := by
        have start := prefix_append (quoteChar c) (cs.flatMap quoteChar)
        rw [same] at start
        rcases prefix_or_prefix_of_prefix start (prefix_append ..) with start | start
        · exact eq_of_prefix_quoteChar start
        · exact (eq_of_prefix_quoteChar start).symm
      subst first
      rw [ih (append_cancel_left same)]

theorem guarded_body (cs : List Char) : guarded false (cs.flatMap quoteChar) = true := by
  induction cs with
  | nil => rfl
  | cons c cs ih =>
    exact guarded_append (shown_quoteChar c).2 ih

theorem toList_quote (text : String) :
    (quote text).toList = '"' :: (text.toList.flatMap quoteChar ++ ['"']) := by
  simp [quote]

theorem quote_inj {s t : String} : quote s = quote t ↔ s = t := by
  refine ⟨fun same => ?_, congrArg quote⟩
  have lists := congrArg String.toList same
  rw [toList_quote, toList_quote] at lists
  have bodies := append_cancel_right (List.cons.inj lists).2
  exact String.toList_inj.mp (flatMap_quoteChar_injective bodies)

theorem shown_of_mem_quote {s : String} {c : Char} (mem : c ∈ (quote s).toList) : Shown c := by
  have quote : Shown '"' := by decide
  rw [toList_quote, mem_cons, mem_append, mem_singleton] at mem
  rcases mem with rfl | mem | rfl
  · exact quote
  · obtain ⟨d, -, mem⟩ := mem_flatMap.mp mem
    exact (shown_quoteChar d).1 c mem
  · exact quote

theorem last_quote_iff {s : String} {front back : List Char}
    (eq : (quote s).toList = front ++ '"' :: back) (some : front ≠ []) :
    back = [] ↔ Even (trailing front) := by
  obtain ⟨even, odd⟩ := trailing_of_guarded ['"'] (guarded_body s.toList)
  rw [toList_quote, ← cons_append] at eq
  obtain rfl | ⟨back, last, rfl⟩ := eq_nil_or_concat' back
  · obtain ⟨rfl, -⟩ := append_inj' eq rfl
    exact iff_of_true rfl even
  · rw [← cons_append, ← append_assoc] at eq
    obtain ⟨d, front, rfl⟩ := exists_cons_of_ne_nil some
    obtain ⟨rfl, rest⟩ := List.cons.inj (append_inj' eq rfl).1
    exact iff_of_false (by simp) (Nat.not_even_iff_odd.mpr (odd front back rest))

/-- Documentation takes no line, or one that does not end before it. -/
theorem newline_not_mem_docLines {depth : Nat} {doc l : String} (mem : l ∈ docLines depth doc) :
    '\n' ∉ l.toList := by
  rw [docLines] at mem
  split at mem
  · cases mem
  · rw [mem_singleton.mp mem, line]
    have quoted : '\n' ∉ (quote doc).toList := fun inside =>
      absurd (shown_of_mem_quote inside) (by decide)
    simpa using quoted

theorem eq_of_docLines {depth : Nat} {s t : String} (same : docLines depth s = docLines depth t) :
    s = t := by
  unfold docLines at same
  split_ifs at same with left right
  · rw [left, right]
  · exact quote_inj.mp (by simpa [line] using same)

/-- Quoting loses nothing and keeps to one line.  Different texts have different quoted forms, there
is no control character in any of them, and after the first character a quote is the last one
exactly if an even number of backslashes stands before it.  So documentation takes at most one line
of a listing, and different documentation different ones. -/
theorem quote_faithful (s : String) :
    (∀ t, quote s = quote t → s = t) ∧ (∀ c ∈ (quote s).toList, Shown c) ∧
      (∀ front back, (quote s).toList = front ++ '"' :: back → front ≠ [] →
        (back = [] ↔ Even (trailing front))) ∧
      ∀ depth, (docLines depth s).length ≤ 1 ∧ (∀ l ∈ docLines depth s, '\n' ∉ l.toList) ∧
        ∀ t, docLines depth s = docLines depth t → s = t := by
  refine ⟨fun t => quote_inj.mp, fun c => shown_of_mem_quote, fun front back => last_quote_iff,
    fun depth => ⟨?_, fun l => newline_not_mem_docLines, fun t => eq_of_docLines⟩⟩
  rw [docLines]
  split <;> simp

/-- A backslash and a quote, and a line end that is told from a backslash and a letter. -/
theorem quote_faithful_slash :
    (quote "\\\"").toList = ['"', '\\', '\\', '\\', '"', '"'] ∧
      ¬ Even (trailing ['"', '\\', '\\', '\\']) ∧ quote "\n" ≠ quote "\\n" := by
  have text : (quote "\\\"").toList = ['"', '\\', '\\', '\\'] ++ '"' :: ['"'] := by
    decide +kernel
  refine ⟨text, ?_, fun same => ?_⟩
  · exact ((quote_faithful "\\\"").2.2.1 _ _ text (by simp)).not.mp (by simp)
  · exact absurd ((quote_faithful "\n").1 _ same) (by decide)

end BitSchema.Ir.Listing
