import BitSchema.Proofs.FullNames
import BitSchema.Proofs.Outcome
import BitSchema.Source.Token

/-!
# Lexemes of a source

A scan cuts a source into lexemes without leaving anything out (`Scanned`).  Each lexeme is one that
a lexical rule takes from some text (`IsLexeme`), and the first character of it tells identifiers
and punctuation from the other kinds.  An identifier has letters, digits and underscores only, so it
can be part of a full name.
-/

namespace BitSchema.Token

open List

/-! ## The lengths of lexemes -/

theorem run_le (p : Char → Bool) (cs : List Char) : run p cs ≤ cs.length :=
  (takeWhile_sublist p).length_le

variable {n : Nat} {cs source : List Char} {kind : Kind} {file : String} {all : List Token}
  {c : Char}

theorem blockLength_le {m : Nat} (found : blockLength n cs = some m) : m ≤ n + cs.length := by
  induction cs generalizing n with
  | nil => cases found
  | cons c cs ih =>
    rw [blockLength] at found
    split at found
    next closed =>
      obtain ⟨-, next⟩ := closed
      cases found
      have some := length_pos_of_mem (mem_of_head? next)
      rw [length_cons]
      omega
    next =>
      have rest := ih found
      rw [length_cons]
      omega

theorem stringRest_le {m : Nat} (found : stringRest n cs = some m) : m ≤ n + cs.length := by
  fun_induction stringRest n cs with
  | case1 n | case3 n c other | case5 n d cs | case6 n cs => cases found
  | case2 n | case4 n d cs => cases found; simp
  | case7 n d cs _ _ other ih | case8 n c d cs _ _ _ ih =>
    have rest := ih found
    simp only [length_cons] at rest ⊢
    omega

section

variable (cs : List Char)

theorem docLength_le : docLength cs ≤ cs.length := by
  fun_cases docLength cs with
  | case1 cs =>
    have rest := run_le (· != '\n') cs
    simp only [length_cons]
    omega
  | case2 => exact Nat.zero_le _

theorem commentLength_le : commentLength cs ≤ cs.length := by
  fun_cases commentLength cs with
  | case1 cs =>
    have rest := run_le (· != '\n') cs
    simp only [length_cons]
    omega
  | case2 cs =>
    cases found : blockLength 2 cs with
    | none => exact Nat.zero_le _
    | some n =>
      have rest := blockLength_le found
      simp only [Option.getD_some, length_cons]
      omega
  | case3 => exact Nat.zero_le _

theorem stringLength_le : stringLength cs ≤ cs.length := by
  fun_cases stringLength cs with
  | case1 cs =>
    cases found : stringRest 1 cs with
    | none => exact Nat.zero_le _
    | some n =>
      have rest := stringRest_le found
      simp only [Option.getD_some, length_cons]
      omega
  | case2 => exact Nat.zero_le _

theorem intLength_le : intLength cs ≤ cs.length := by
  fun_cases intLength cs with
  | case1 x rest hex =>
    have digits := run_le isHexDigit rest
    simp only [length_cons]
    omega
  | case2 | case3 => exact run_le _ _

theorem identLength_le : identLength cs ≤ cs.length := by
  fun_cases identLength cs with
  | case1 c cs =>
    have rest := run_le isIdentRest cs
    simp only [length_cons]
    omega
  | case2 | case3 => exact Nat.zero_le _

theorem punctLength_le : punctLength cs ≤ cs.length := by
  fun_cases punctLength cs <;> simp

end

theorem length_le_of_mem_rules {rule : Kind × (List Char → Nat)} (mem : rule ∈ rules)
    (cs : List Char) : rule.2 cs ≤ cs.length := by
  simp only [rules, mem_cons, not_mem_nil, or_false] at mem
  rcases mem with rfl | rfl | rfl | rfl | rfl | rfl | rfl
  · exact docLength_le cs
  · exact commentLength_le cs
  · exact stringLength_le cs
  · exact intLength_le cs
  · exact identLength_le cs
  · exact punctLength_le cs
  · exact run_le _ cs

/-- A lexeme takes at least one character, and only characters that are there. -/
theorem lexeme_bounds (found : lexeme? cs = some (kind, n)) : 0 < n ∧ n ≤ cs.length := by
  obtain ⟨rule, mem, taken⟩ := exists_of_findSome?_eq_some found
  dsimp only at taken
  split at taken
  next => cases taken
  next some =>
    obtain ⟨-, rfl⟩ := Prod.mk.inj (Option.some.inj taken)
    exact ⟨Nat.pos_of_ne_zero some, length_le_of_mem_rules mem cs⟩

/-! ## Scanned sources -/

/-- The lexemes of some characters from a place on, and the end of the source after them. -/
inductive Scanned (file : String) : Position → List Char → List Token → Prop where
  | ended {p : Position} : Scanned file p [] [⟨.eof, "", p.span file []⟩]
  | lexeme {p : Position} {cs : List Char} {kind : Kind} {n : Nat} {ts : List Token} :
    lexeme? cs = some (kind, n) → Scanned file (p.advance (cs.take n)) (cs.drop n) ts →
    Scanned file p cs (⟨kind, String.ofList (cs.take n), p.span file (cs.take n)⟩ :: ts)

theorem scanned_scanFrom {fuel : Nat} {done ts : List Token} {p : Position}
    (ok : scanFrom file fuel done p cs = .ok ts) :
    ∃ later, ts = done.reverse ++ later ∧ Scanned file p cs later := by
  fun_induction scanFrom file fuel done p cs with
  | case1 fuel done p =>
    cases ok
    exact ⟨_, reverse_cons, .ended⟩
  | case2 | case3 => cases ok
  | case4 fuel done p cs _ kind n found taken token ih =>
    obtain ⟨later, rfl, scanned⟩ := ih ok
    exact ⟨token :: later, by simp, .lexeme found scanned⟩

/-- A scan splits a text into lexemes. -/
theorem scanned_scan {ts : List Token} (ok : scan file source = .ok ts) :
    Scanned file {} source ts := by
  obtain ⟨later, rfl, scanned⟩ := scanned_scanFrom ok
  exact scanned

/-! ## Kinds of lexemes -/

/-- The token is a lexeme that a rule takes from some text. -/
def IsLexeme (t : Token) : Prop :=
  ∃ rest, lexeme? (t.text.toList ++ rest) = some (t.kind, t.text.toList.length)

/-- The token is the end of a source. -/
def IsEnd (t : Token) : Prop := t.kind = .eof ∧ t.text = ""

theorem Scanned.lexemes {p : Position} (scanned : Scanned file p cs all) :
    ∃ ts last, all = ts ++ [last] ∧ (∀ t ∈ ts, t.IsLexeme) ∧ last.IsEnd := by
  induction scanned with
  | @ended p => exact ⟨[], _, rfl, forall_mem_nil _, rfl, rfl⟩
  | @lexeme p cs kind n ts found _ ih =>
    obtain ⟨later, last, rfl, lexemes, ended⟩ := ih
    obtain ⟨-, inside⟩ := lexeme_bounds found
    refine ⟨_ :: later, last, rfl, forall_mem_cons.mpr ⟨⟨cs.drop n, ?_⟩, lexemes⟩, ended⟩
    rw [String.toList_ofList, take_append_drop, length_take_of_le inside]
    exact found

/-- The tokens of a source are the lexemes that are kept, and the end. -/
theorem scanned_tokens (ok : tokens file source = .ok all) :
    ∃ ts last, Scanned file {} source (ts ++ [last]) ∧ (∀ t ∈ ts, t.IsLexeme) ∧ last.IsEnd ∧
      all = ts.filter isKept ++ [last] := by
  unfold tokens at ok
  cases scanned : scan file source with
  | error stuck =>
    rw [scanned] at ok
    cases ok
  | ok found =>
    rw [scanned] at ok
    cases ok
    have scanned := scanned_scan scanned
    obtain ⟨ts, last, rfl, lexemes, ended⟩ := scanned.lexemes
    have kept : isKept last = true := by simp [isKept, ended.1]
    exact ⟨ts, last, scanned, lexemes, ended, by simp [kept]⟩

/-- The tokens of a source are lexemes, with its end after them. -/
theorem lexemes_tokens (ok : tokens file source = .ok all) :
    ∃ ts last, all = ts ++ [last] ∧ (∀ t ∈ ts, t.IsLexeme) ∧ last.IsEnd := by
  obtain ⟨ts, last, -, lexemes, ended, rfl⟩ := scanned_tokens ok
  exact ⟨_, last, rfl, fun t mem => lexemes t (mem_filter.mp mem).1, ended⟩

/-- The kind of the lexemes that start with a character, where the character alone tells it. -/
def kindOfStart (c : Char) : Option Kind :=
  if isIdentStart c then some .ident else if isPunct c then some .punct else none

theorem docLength_of_ne (other : c ≠ '/') (cs : List Char) : docLength (c :: cs) = 0 := by
  rw [docLength]
  intro rest same
  exact other (List.cons.inj same).1

theorem commentLength_of_ne (other : c ≠ '/') (cs : List Char) : commentLength (c :: cs) = 0 := by
  rw [commentLength]
  · intro rest same
    exact other (List.cons.inj same).1
  · intro rest same
    exact other (List.cons.inj same).1

theorem stringLength_of_ne (other : c ≠ '"') (cs : List Char) : stringLength (c :: cs) = 0 := by
  rw [stringLength]
  intro rest same
  exact other (List.cons.inj same).1

theorem intLength_of_not_digit (other : isDigit c = false) (cs : List Char) :
    intLength (c :: cs) = 0 := by
  have zero : c ≠ '0' := by
    rintro rfl
    exact absurd other (by decide)
  rw [intLength]
  · simp [run, other]
  · intro x rest same
    exact zero (List.cons.inj same).1

theorem kindOfStart_of_digit (digit : isDigit c = true) : kindOfStart c = none := by
  simp only [isDigit, Bool.and_eq_true, decide_eq_true_eq] at digit
  obtain ⟨low, high⟩ := digit
  have upper : ¬ 'A' ≤ c := fun le => absurd (le_trans le high) (by decide)
  have lower : ¬ 'a' ≤ c := fun le => absurd (le_trans le high) (by decide)
  have underscore : c ≠ '_' := by
    rintro rfl
    exact absurd high (by decide)
  have punct : isPunct c = false := by
    rw [Bool.eq_false_iff]
    intro punct
    have signs : ∀ d ∈ ".;:,\x7b\x7d()[]".toList, isDigit d = false := by
      simp [isDigit]
    have digit := signs c (contains_iff_mem.mp punct)
    simp [isDigit, low, high] at digit
  simp [kindOfStart, isIdentStart, upper, lower, underscore, punct]

/-- A character that starts identifiers, or is punctuation, starts nothing that is tried before. -/
theorem lengths_of_start (starts : kindOfStart c = some kind) (cs : List Char) :
    docLength (c :: cs) = 0 ∧ commentLength (c :: cs) = 0 ∧ stringLength (c :: cs) = 0 ∧
      intLength (c :: cs) = 0 := by
  have slash : c ≠ '/' := by
    rintro rfl
    cases starts
  have quote : c ≠ '"' := by
    rintro rfl
    cases starts
  have digit : isDigit c = false := by
    rw [Bool.eq_false_iff]
    intro digit
    rw [kindOfStart_of_digit digit] at starts
    cases starts
  exact ⟨docLength_of_ne slash cs, commentLength_of_ne slash cs, stringLength_of_ne quote cs,
    intLength_of_not_digit digit cs⟩

theorem lexeme_of_start {start : Kind} (starts : kindOfStart c = some start)
    (found : lexeme? (c :: cs) = some (kind, n)) : kind = start := by
  obtain ⟨doc, comment, string, int⟩ := lengths_of_start starts cs
  unfold kindOfStart at starts
  by_cases ident : isIdentStart c = true
  · rw [if_pos ident] at starts
    cases starts
    simp [lexeme?, rules, doc, comment, string, int, identLength, ident] at found
    exact found.1.symm
  · rw [if_neg ident] at starts
    by_cases punct : isPunct c = true
    · rw [if_pos punct] at starts
      cases starts
      simp [lexeme?, rules, doc, comment, string, int, identLength, ident, punctLength, punct]
        at found
      exact found.1.symm
    · rw [if_neg punct] at starts
      cases starts

/-- The kind of a lexeme whose text is known, where its first character tells it. -/
theorem IsLexeme.kind_eq {t : Token} (lexeme : t.IsLexeme) (text : t.text.toList = c :: cs)
    {start : Kind} (starts : kindOfStart c = some start) : t.kind = start := by
  obtain ⟨rest, found⟩ := lexeme
  rw [text, cons_append] at found
  exact lexeme_of_start starts found

/-! ## Identifiers -/

/-- A lexeme of a kind is what the rule of that kind takes. -/
theorem length_of_lexeme {length : List Char → Nat} (mem : (kind, length) ∈ rules)
    (found : lexeme? cs = some (kind, n)) : n = length cs ∧ n ≠ 0 := by
  obtain ⟨other, inside, taken⟩ := exists_of_findSome?_eq_some found
  have only : ∀ r ∈ rules, ∀ s ∈ rules, r.1 = s.1 → r.2 = s.2 := by simp [rules]
  dsimp only at taken
  split at taken
  next => cases taken
  next some =>
    obtain ⟨same, rfl⟩ := Prod.mk.inj (Option.some.inj taken)
    exact ⟨congrFun (only _ inside _ mem same) cs, some⟩

theorem take_run (p : Char → Bool) (cs : List Char) : cs.take (run p cs) = cs.takeWhile p :=
  (prefix_iff_eq_take.mp ( takeWhile_prefix p)).symm

theorem isPart_of_identLength (some : identLength cs ≠ 0) :
    IsPart (String.ofList (cs.take (identLength cs))) := by
  cases cs with
  | nil => exact absurd rfl some
  | cons c cs =>
    rw [identLength] at some ⊢
    split
    next start =>
      rw [Nat.add_comm, take_succ_cons, take_run]
      refine ⟨by simp [← String.toList_inj], ?_⟩
      rw [String.toList_ofList, mem_cons, not_or]
      refine ⟨?_, fun mem => absurd (mem_takeWhile_imp mem) (by decide)⟩
      rintro rfl
      exact absurd start (by decide)
    next other => exact absurd (if_neg other) some

/-- An identifier can be part of a full name. -/
theorem IsLexeme.isPart {t : Token} (lexeme : t.IsLexeme) (isIdent : t.kind = .ident) :
    IsPart t.text := by
  obtain ⟨rest, found⟩ := lexeme
  rw [isIdent] at found
  have rule : (.ident, identLength) ∈ rules := by simp [rules]
  obtain ⟨length, some⟩ := length_of_lexeme rule found
  have part := isPart_of_identLength (length ▸ some)
  rwa [← length, take_left, String.ofList_toList] at part

end BitSchema.Token
