import BitSchema.Proofs.Lexemes
import BitSchema.Source.Phrase

/-!
# The text of literals

Which numbers integer literals denote (`Numeral`), and what may stand between the quotes of a string
(`Escaped`).  A lexeme of an integer always denotes a number, and its value is that number if it
fits in 64 bits (`intValue?_of_numeral`).  A string has a value if and only if its escapes are known
(`Quoted.isSome_unescape_iff`).
-/

namespace BitSchema

open List

/-! ## Digits -/

/-- The digits of base sixteen, in both cases of letters. -/
def digitChars : List Char :=
  ['0', '1', '2', '3', '4', '5', '6', '7', '8', '9', 'a', 'b', 'c', 'd', 'e', 'f',
    'A', 'B', 'C', 'D', 'E', 'F']

/-- What a digit stands for; sixteen for other characters. -/
def digitNumber (c : Char) : Nat :=
  let place := digitChars.idxOf c
  if place < 16 then place else place - 6

/-- The number that digits denote in a base, the most significant digit first. -/
def numberOf (base : Nat) (digits : List Char) : Nat :=
  Nat.ofDigits base (digits.reverse.map digitNumber)

theorem mem_digits {c : Char} (value : hexValue? c ≠ none) : c ∈ digitChars := by
  have bounds : 48 ≤ c.toNat ∧ c.toNat ≤ 57 ∨ 97 ≤ c.toNat ∧ c.toNat ≤ 102 ∨
      65 ≤ c.toNat ∧ c.toNat ≤ 70 := by
    unfold hexValue? at value
    split_ifs at value with decimal lower upper
    · exact .inl decimal
    · exact .inr (.inl lower)
    · exact .inr (.inr upper)
    · exact absurd rfl value
  rw [← Char.ofNat_toNat c]
  generalize c.toNat = n at bounds
  rcases bounds with ⟨low, high⟩ | ⟨low, high⟩ | ⟨low, high⟩ <;> interval_cases n <;> decide

theorem hexValue?_eq (c : Char) :
    hexValue? c = if digitNumber c < 16 then some (digitNumber c) else none := by
  by_cases mem : c ∈ digitChars
  · fin_cases mem <;> rfl
  · have none : digitNumber c = 16 := by
      rw [digitNumber, idxOf_eq_length mem]
      rfl
    rw [none, if_neg (Nat.lt_irrefl 16)]
    by_contra value
    exact mem (mem_digits value)

theorem mem_digits_of_lt {c : Char} (digit : digitNumber c < 16) : c ∈ digitChars :=
  mem_digits (by simp [hexValue?_eq, digit])

variable {base : Nat}

theorem digitValue?_eq (small : base ≤ 16) (c : Char) :
    digitValue? base c = if digitNumber c < base then some (digitNumber c) else none := by
  rw [digitValue?, hexValue?_eq]
  by_cases digit : digitNumber c < base
  · rw [if_pos (by omega), if_pos digit]
    simp [digit]
  · rw [if_neg digit]
    split <;> simp [Nat.not_lt.mp digit]

theorem readDigits?_eq (small : base ≤ 16) (digits : List Char) :
    readDigits? base digits =
      if ∀ d ∈ digits, digitNumber d < base then some (numberOf base digits) else none := by
  induction digits using List.reverseRecOn with
  | nil => simp [readDigits?, numberOf]
  | append_singleton digits d ih =>
    rw [readDigits?] at ih ⊢
    rw [foldlM_append, ih]
    by_cases all : ∀ d ∈ digits, digitNumber d < base
    · rw [if_pos all]
      by_cases digit : digitNumber d < base
      · rw [if_pos (forall_mem_append.mpr ⟨all, forall_mem_singleton.mpr digit⟩)]
        simp [digitValue?_eq small, digit, numberOf, Nat.ofDigits_cons, Nat.mul_comm, Nat.add_comm]
      · rw [if_neg fun each => digit (each d (by simp))]
        simp [digitValue?_eq small, digit]
    · rw [if_neg all, if_neg fun each => all fun c mem => each c (by simp [mem])]
      rfl

theorem digits_of_read {n : Nat} {digits : List Char} (small : base ≤ 16)
    (read : readDigits? base digits = some n) :
    (∀ d ∈ digits, digitNumber d < base) ∧ numberOf base digits = n := by
  rw [readDigits?_eq small] at read
  simpa using read

/-! ## Escapes -/

/-- What may stand after a backslash. -/
inductive Escape : List Char → Prop where
  | letter {c : Char} : c ∈ ['a', 'b', 't', 'n', 'v', 'f', 'r', '"', '\\'] → Escape [c]
  | octet {digits : List Char} : digits.length = 2 → (∀ d ∈ digits, digitNumber d < 16) →
    Escape ('x' :: digits)
  | octal {digits : List Char} : digits.length = 3 → (∀ d ∈ digits, digitNumber d < 8) →
    numberOf 8 digits < 256 → Escape digits
  | char {kind : Char} {size : Nat} {digits : List Char} :
    (kind, size) ∈ [('u', 4), ('U', 8)] → digits.length = size →
    (∀ d ∈ digits, digitNumber d < 16) → (numberOf 16 digits).isValidChar →
    Escape (kind :: digits)

/-- What may stand between the quotes of a string. -/
inductive Escaped : List Char → Prop where
  | nil : Escaped []
  | plain {c : Char} {cs : List Char} : c ≠ '\\' → Escaped cs → Escaped (c :: cs)
  | escape {e cs : List Char} : Escape e → Escaped cs → Escaped ('\\' :: (e ++ cs))

namespace Quoted

theorem isValidChar_of_read {n : Nat} {digits : List Char} {octets : Octets}
    (read : readDigits? 16 digits = some n) (isChar : charOctets? n = some octets) :
    (numberOf 16 digits).isValidChar := by
  rw [(digits_of_read (by decide) read).2]
  exact (Option.ite_none_right_eq_some.mp isChar).1

theorem escaped_of_unescape {cs : List Char} {octets : Octets}
    (found : unescape cs = some octets) : Escaped cs := by
  fun_induction unescape cs generalizing octets with
  | case1 => exact .nil
  | case2 | case10 => cases found
  | case3 c plain => exact .plain plain .nil
  | case4 c d rest plain ih =>
    obtain ⟨_, later, -⟩ := Option.map_eq_some_iff.mp found
    exact .plain plain (ih later)
  | case5 c d rest slash letter code known ih =>
    obtain ⟨_, later, -⟩ := Option.map_eq_some_iff.mp found
    have same : letter = d := by simpa using find?_some known
    have mem := mem_of_find?_eq_some known
    rw [not_not.mp slash]
    have letters : ∀ l ∈ letterEscapes, l.1 ∈ ['a', 'b', 't', 'n', 'v', 'f', 'r', '"', '\\'] := by
      decide
    exact .escape (.letter (same ▸ letters _ mem)) (ih later)
  | case6 c slash a b after _ ih =>
    obtain ⟨n, read, found⟩ := Option.bind_eq_some_iff.mp found
    obtain ⟨_, later, -⟩ := Option.map_eq_some_iff.mp found
    rw [not_not.mp slash]
    exact .escape (.octet rfl (digits_of_read (by decide) read).1) (ih later)
  | case7 c slash a b c d after _ ih | case8 c slash a b c d e f g h after _ ih =>
    obtain ⟨n, read, found⟩ := Option.bind_eq_some_iff.mp found
    obtain ⟨_, isChar, found⟩ := Option.bind_eq_some_iff.mp found
    obtain ⟨_, later, -⟩ := Option.map_eq_some_iff.mp found
    rw [not_not.mp slash]
    exact .escape (.char (by simp) rfl (digits_of_read (by decide) read).1
      (isValidChar_of_read read isChar)) (ih later)
  | case9 c slash a b c after _ _ _ _ ih =>
    obtain ⟨n, read, found⟩ := Option.bind_eq_some_iff.mp found
    obtain ⟨_, isOctet, found⟩ := Option.bind_eq_some_iff.mp found
    obtain ⟨_, later, -⟩ := Option.map_eq_some_iff.mp found
    obtain ⟨digits, rfl⟩ := digits_of_read (by decide) read
    rw [not_not.mp slash]
    exact .escape (.octal rfl digits (Option.ite_none_right_eq_some.mp isOctet).1) (ih later)

theorem isSome_unescape_escape {e : List Char} (escape : Escape e) (cs : List Char) :
    (unescape ('\\' :: (e ++ cs))).isSome = (unescape cs).isSome := by
  cases escape with
  | letter mem =>
    rw [singleton_append, unescape.eq_def]
    fin_cases mem <;> simp [letterEscapes]
  | octet length digits =>
    obtain ⟨a, b, rfl⟩ := length_eq_two.mp length
    simp [unescape, letterEscapes, readDigits?_eq, digits]
  | octal length digits small =>
    obtain ⟨a, b, c, rfl⟩ := length_eq_three.mp length
    have octals : ∀ c ∈ digitChars, digitNumber c < 8 →
        c ∈ ['0', '1', '2', '3', '4', '5', '6', '7'] := by
      intro c mem
      fin_cases mem <;> decide
    have first := octals a (mem_digits_of_lt (by have := digits a (by simp); omega))
      (digits a (by simp))
    rw [unescape.eq_def]
    have read : readDigits? 8 [a, b, c] = some (numberOf 8 [a, b, c]) := by
      rw [readDigits?_eq (by decide), if_pos digits]
    generalize numberOf 8 [a, b, c] = n at small read
    fin_cases first <;> simp [letterEscapes, read, octet?, small]
  | @char kind size digits known length all valid =>
    have read : readDigits? 16 digits = some (numberOf 16 digits) := by
      rw [readDigits?_eq (by decide), if_pos all]
    generalize numberOf 16 digits = n at valid read
    fin_cases known
    · rcases digits with _ | ⟨a, _ | ⟨b, _ | ⟨c, _ | ⟨d, _ | ⟨e, digits⟩⟩⟩⟩⟩ <;> simp at length
      simp [unescape, letterEscapes, read, charOctets?, valid]
    · rcases digits with _ | ⟨a, _ | ⟨b, _ | ⟨c, _ | ⟨d, _ | ⟨e, _ | ⟨f, _ | ⟨g, _ |
        ⟨h, _ | ⟨i, digits⟩⟩⟩⟩⟩⟩⟩⟩⟩ <;> simp at length
      simp [unescape, letterEscapes, read, charOctets?, valid]

/-- A text can be read exactly if its escapes are known. -/
theorem isSome_unescape_iff {cs : List Char} : (unescape cs).isSome = true ↔ Escaped cs := by
  constructor
  · intro found
    obtain ⟨octets, found⟩ := Option.isSome_iff_exists.mp found
    exact escaped_of_unescape found
  · intro escaped
    induction escaped with
    | nil => rfl
    | @plain c cs plain _ ih =>
      cases cs with
      | nil => simp [unescape, plain]
      | cons d cs =>
        rw [unescape.eq_def]
        simpa [plain] using ih
    | escape escape _ ih => rwa [isSome_unescape_escape escape]

end Quoted

/-! ## Numerals -/

/-- The number that an integer literal denotes: decimal digits, with zeros first or not, or digits
of base sixteen after `0x`. -/
inductive Numeral : List Char → Nat → Prop where
  | decimal {digits : List Char} : digits ≠ [] → (∀ d ∈ digits, digitNumber d < 10) →
    Numeral digits (numberOf 10 digits)
  | hex {x : Char} {digits : List Char} : x = 'x' ∨ x = 'X' → digits ≠ [] →
    (∀ d ∈ digits, digitNumber d < 16) → Numeral ('0' :: x :: digits) (numberOf 16 digits)

theorem intValue?_of_numeral {text : String} {n : Nat} (numeral : Numeral text.toList n) :
    Source.Phrase.intValue? text = if n < 2 ^ 64 then some (UInt64.ofNat n) else none := by
  rw [Source.Phrase.intValue?]
  generalize text.toList = cs at numeral
  cases numeral with
  | decimal _ digits =>
    have whole : readDigits? 10 cs = some (numberOf 10 cs) := by
      rw [readDigits?_eq (by decide), if_pos digits]
    split
    next _ x rest _ =>
      have plain : ¬ (x = 'x' ∨ x = 'X') := by
        have digit := digits x (by simp)
        rintro (rfl | rfl) <;> exact absurd digit (by decide)
      simp only [if_neg plain, whole]
      rfl
    next =>
      rw [whole]
      rfl
  | @hex x digits known _ all =>
    have whole : readDigits? 16 digits = some (numberOf 16 digits) := by
      rw [readDigits?_eq (by decide), if_pos all]
    simp only [if_pos known, whole]
    rfl

/-! ## Lexemes -/

namespace Token

theorem digitNumber_lt_of_isHexDigit {c : Char} (digit : isHexDigit c = true) :
    digitNumber c < 16 := by
  have value : hexValue? c ≠ none := by
    rw [isHexDigit, isDigit] at digit
    simp only [Bool.or_eq_true, Bool.and_eq_true, decide_eq_true_iff] at digit
    unfold hexValue?
    split_ifs <;> grind
  rw [hexValue?_eq] at value
  simpa using value

theorem digitNumber_lt_of_isDigit {c : Char} (digit : isDigit c = true) : digitNumber c < 10 := by
  have hex : isHexDigit c = true := by simp [isHexDigit, digit]
  have mem := mem_digits_of_lt (digitNumber_lt_of_isHexDigit hex)
  revert digit
  fin_cases mem <;> decide

variable {cs : List Char} {t : Token}

theorem numeral_of_run (some : run isDigit cs ≠ 0) :
    Numeral (cs.take (run isDigit cs)) (numberOf 10 (cs.take (run isDigit cs))) := by
  rw [take_run]
  refine .decimal (fun none => some (length_eq_zero_iff.mpr none)) fun d mem => ?_
  exact digitNumber_lt_of_isDigit (mem_takeWhile_imp mem)

theorem numeral_of_intLength (some : intLength cs ≠ 0) :
    ∃ n, Numeral (cs.take (intLength cs)) n := by
  fun_cases intLength cs with
  | case1 x rest hex =>
    rw [Nat.add_comm, take_succ_cons, take_succ_cons, take_run]
    refine ⟨_, .hex hex.1 (ne_nil_of_length_pos hex.2) fun d mem => ?_⟩
    exact digitNumber_lt_of_isHexDigit (mem_takeWhile_imp mem)
  | case2 x rest plain =>
    rw [intLength, if_neg plain] at some
    exact ⟨_, numeral_of_run some⟩
  | case3 =>
    next other =>
      rw [intLength.eq_2 _ other] at some
      exact ⟨_, numeral_of_run some⟩

theorem take_of_lexeme {kind : Kind} {length : List Char → Nat} (mem : (kind, length) ∈ rules)
    (lexeme : t.IsLexeme) (same : t.kind = kind) :
    ∃ cs, length cs ≠ 0 ∧ t.text.toList = cs.take (length cs) := by
  obtain ⟨rest, found⟩ := lexeme
  rw [same] at found
  obtain ⟨exactly, some⟩ := length_of_lexeme mem found
  rw [exactly] at some
  exact ⟨_, some, by rw [← exactly, take_left]⟩

/-- An integer literal denotes a number. -/
theorem numeral_of_lexeme (lexeme : t.IsLexeme) (isInt : t.kind = .int) :
    ∃ n, Numeral t.text.toList n := by
  have rule : (.int, intLength) ∈ rules := by simp [rules]
  obtain ⟨cs, some, text⟩ := take_of_lexeme rule lexeme isInt
  rw [text]
  exact numeral_of_intLength some

theorem quote_of_stringRest {n m : Nat} (found : stringRest n cs = some m) :
    ∃ body rest, cs = body ++ '"' :: rest ∧ m = n + body.length + 1 := by
  fun_induction stringRest n cs with
  | case1 n | case3 n c other | case5 n d cs | case6 n cs => cases found
  | case2 n =>
    cases found
    exact ⟨[], [], rfl, rfl⟩
  | case4 n d cs =>
    cases found
    exact ⟨[], d :: cs, rfl, rfl⟩
  | case7 n d cs _ _ other ih =>
    obtain ⟨body, rest, rfl, rfl⟩ := ih found
    exact ⟨'\\' :: d :: body, rest, rfl, by simp only [length_cons]; omega⟩
  | case8 n c d cs _ _ _ ih =>
    obtain ⟨body, rest, same, rfl⟩ := ih found
    exact ⟨c :: body, rest, by rw [same]; rfl, by simp only [length_cons]; omega⟩

theorem quoted_of_stringLength (some : stringLength cs ≠ 0) :
    ∃ body, cs.take (stringLength cs) = '"' :: (body ++ ['"']) := by
  fun_cases stringLength cs with
  | case1 cs =>
    rw [stringLength] at some
    cases found : stringRest 1 cs with
    | none => simp [found] at some
    | some m =>
      obtain ⟨body, rest, rfl, rfl⟩ := quote_of_stringRest found
      exact ⟨body, by simp [Nat.add_comm 1, take_append]⟩
  | case2 =>
    next other => exact absurd (stringLength.eq_2 _ other) some

/-- A string literal is a text in quotes. -/
theorem quoted_of_lexeme (lexeme : t.IsLexeme) (isString : t.kind = .string) :
    ∃ body, t.text.toList = '"' :: (body ++ ['"']) := by
  have rule : (.string, stringLength) ∈ rules := by simp [rules]
  obtain ⟨cs, some, text⟩ := take_of_lexeme rule lexeme isString
  rw [text]
  exact quoted_of_stringLength some

end Token

end BitSchema
