import BitSchema.Json.Parse
import BitSchema.Proofs.Outcome
import BitSchema.Proofs.Utf8

/-!
# Values and their texts

A value whose numbers are natural is written as a text that is read back as that value, whatever
stands in its strings, as long as it is not too deep.
-/

namespace BitSchema.Json

open List

/-! ## Numbers -/

variable {c : Char} {n : Nat} {rest blanks : List Char} {j e value : Json}

theorem digitValue?_of_isDigit (digit : c.isDigit = true) :
    digitValue? 10 c = some (c.toNat - '0'.toNat) := by
  simp only [Char.isDigit, Bool.and_eq_true, decide_eq_true_eq] at digit
  have bounds : '0' ≤ c ∧ c ≤ '9' := digit
  have small : c.toNat ≤ 57 := digit.2
  have value : hexValue? c = some (c.toNat - '0'.toNat) := if_pos bounds
  rw [digitValue?, value, Option.filter_some, if_pos]
  simpa using (by omega : c.toNat - 48 < 10)

/-- The digits of a number are read as that number. -/
theorem readDigits?_toDigits (n : Nat) : readDigits? 10 (Nat.toDigits 10 n) = some n := by
  have all : ∀ c ∈ Nat.toDigits 10 n, c.isDigit = true := fun c mem =>
    Nat.isDigit_of_mem_toDigits (by decide) (by decide) mem
  have folded : ∀ (cs : List Char) (start : Nat), (∀ c ∈ cs, c.isDigit = true) →
      cs.foldlM (fun n c => (digitValue? 10 c).map (n * 10 + ·)) start =
        some (Nat.ofDigitChars 10 cs start) := by
    intro cs
    induction cs with
    | nil => intro start _; rfl
    | cons c cs ih =>
      intro start all
      rw [foldlM_cons, digitValue?_of_isDigit (all c mem_cons_self), Nat.ofDigitChars_cons]
      simp only [Option.map_some, Option.bind_eq_bind, Option.bind_some]
      rw [ih _ fun d mem => all d (mem_cons_of_mem c mem), Nat.mul_comm]
  rw [readDigits?, folded _ 0 all, Nat.ofDigitChars_toDigits (by decide) (by decide)]

/-- Only zero is written with a zero first. -/
theorem eq_zero_of_head_toDigits (n : Nat) (zero : (Nat.toDigits 10 n).head? = some '0') :
    n = 0 := by
  induction n using Nat.strongRecOn with
  | ind n ih =>
    rw [Nat.toDigits_eq_if (by decide)] at zero
    split at zero
    next small =>
      have digits : ∀ m < 10, Nat.digitChar m = '0' → m = 0 := by decide
      exact digits n small (Option.some.inj zero)
    next large =>
      have filled : Nat.toDigits 10 (n / 10) ≠ [] := Nat.toDigits_ne_nil
      rw [head?_append_of_ne_nil _ filled] at zero
      have below := ih (n / 10) (by omega) zero
      omega

/-- A text that does not go on with a number. -/
def Ended (rest : List Char) : Prop :=
  ∀ c ∈ rest.head?, isDigit c = false ∧ c ≠ '.' ∧ c ≠ 'e' ∧ c ≠ 'E'

theorem isDigit_of_mem_toDigits (mem : c ∈ Nat.toDigits 10 n) : isDigit c = true :=
  Nat.isDigit_of_mem_toDigits (by decide) (by decide) mem

theorem ne_of_isDigit {d : Char} (digit : isDigit c = true) (other : isDigit d = false) :
    c ≠ d := by
  rintro rfl
  exact absurd digit (by simp [other])

theorem Ended.takeWhile (ended : Ended rest) : rest.takeWhile isDigit = [] := by
  cases rest with
  | nil => rfl
  | cons c rest => rw [takeWhile_cons, (ended c rfl).1, if_neg Bool.false_ne_true]

theorem wholePart_toDigits (n : Nat) (ended : Ended rest) :
    wholePart (Nat.toDigits 10 n ++ rest) = Nat.toDigits 10 n := by
  have filled : Nat.toDigits 10 n ≠ [] := Nat.toDigits_ne_nil
  rw [wholePart, head?_append_of_ne_nil _ filled]
  split
  next zero =>
    obtain rfl := eq_zero_of_head_toDigits n zero
    decide
  next =>
    rw [takeWhile_append_of_pos fun c mem => isDigit_of_mem_toDigits mem, ended.takeWhile,
      append_nil]

theorem Ended.fractionPart? (ended : Ended rest) : fractionPart? rest = some [] := by
  unfold Json.fractionPart?
  split
  next => exact absurd rfl (ended '.' rfl).2.1
  next => rfl

theorem Ended.exponentPart? (ended : Ended rest) : exponentPart? rest = some [] := by
  cases rest with
  | nil => rfl
  | cons c rest =>
    obtain ⟨-, -, lower, upper⟩ := ended c rfl
    rw [Json.exponentPart?, if_neg (not_or.mpr ⟨lower, upper⟩)]

theorem numberLiteral?_toDigits (n : Nat) (ended : Ended rest) :
    numberLiteral? (Nat.toDigits 10 n ++ rest) = some (toString n, rest) := by
  have filled : Nat.toDigits 10 n ≠ [] := Nat.toDigits_ne_nil
  have unsigned : (Nat.toDigits 10 n).head? ≠ some '-' := by
    intro minus
    exact ne_of_isDigit (isDigit_of_mem_toDigits (mem_of_head? minus)) (by decide) rfl
  have text : toString n = String.ofList (Nat.toDigits 10 n) := by
    rw [Nat.toString_eq_repr, Nat.repr_eq_ofList_toDigits]
  simp [numberLiteral?, unsigned, wholePart_toDigits n ended, filled, ended.fractionPart?,
    ended.exponentPart?, text]

/-! ## Strings -/

/-- The numbers of the characters that are written by their number. -/
def escapedNumbers : List Nat :=
  List.range 0x20 ++ ['<', '>', '&'].map Char.toNat ++ [0x2028, 0x2029]

theorem mem_escapedNumbers (escaped : isEscaped c = true) : c.toNat ∈ escapedNumbers := by
  simp only [isEscaped, Bool.or_eq_true, decide_eq_true_eq, beq_iff_eq] at escaped
  simp only [escapedNumbers, mem_append, mem_range, map_cons, map_nil,
    mem_cons, not_mem_nil, or_false]
  rcases escaped with (((((small | rfl) | rfl) | rfl) | same) | same)
  all_goals simp_all

/-- An escape by number is read as that number. -/
theorem fourDigits?_hexDigits (mem : n ∈ escapedNumbers) (rest : List Char) :
    fourDigits? (hexDigits 4 n ++ rest) = some (n, rest) := by
  have table : ∀ n ∈ escapedNumbers,
      (hexDigits 4 n).length = 4 ∧ readDigits? 16 (hexDigits 4 n) = some n := by decide
  obtain ⟨four, digits⟩ := table n mem
  obtain ⟨a, b, c, d, eq⟩ := length_eq_four.mp four
  rw [eq] at digits ⊢
  simp [fourDigits?, digits]

theorem not_surrogate (mem : n ∈ escapedNumbers) : isLeadSurrogate n = false := by
  revert n
  decide

/-- The characters that stand in a string as they are. -/
theorem stringBody_escapeChar (c : Char) (fuel : Nat) (rest : List Char) :
    stringBody (fuel + 1) (escapeChar c ++ rest) =
      (stringBody fuel rest).map fun p => (c :: p.1, p.2) := by
  unfold escapeChar
  split
  next found letter hit =>
    have pairs : ∀ p ∈ letterEscapes, p.2 ≠ 'u' ∧ p.2 ≠ '/' ∧
        letterEscapes.find? (·.2 == p.2) = some p := by decide
    have same : found = c := by simpa using find?_some hit
    obtain ⟨number, slash, back⟩ := pairs _ (mem_of_find?_eq_some hit)
    subst same
    simp [stringBody, number, slash, back]
  next plain =>
    split
    next escaped =>
      have mem := mem_escapedNumbers escaped
      have valid : c.toNat.isValidChar := c.valid
      have self : escapedChar c.toNat = c := by
        rw [escapedChar, if_pos valid, Char.ofNat_toNat]
      simp [stringBody, fourDigits?_hexDigits mem, not_surrogate mem, self]
    next bare =>
      have others : ∀ p ∈ letterEscapes, p.1 ≠ c := by simpa using plain
      have quoted : c ≠ '"' := fun same => others ('"', '"') (by decide) same.symm
      have slash : c ≠ '\\' := fun same => others ('\\', '\\') (by decide) same.symm
      have large : ¬c.toNat < 0x20 := fun small => bare (by simp [isEscaped, small])
      simp [stringBody, quoted, slash, large]

theorem length_escapeChar_pos (c : Char) : 0 < (escapeChar c).length := by
  unfold escapeChar
  split
  next => exact Nat.succ_pos 1
  next =>
    split
    next => exact Nat.succ_pos _
    next => exact Nat.one_pos

/-- A string is read back from between its quotes. -/
theorem stringBody_flatMap_escapeChar (cs : List Char) {fuel : Nat} (rest : List Char)
    (enough : (cs.flatMap escapeChar).length < fuel) :
    stringBody fuel (cs.flatMap escapeChar ++ '"' :: rest) = some (cs, rest) := by
  induction cs generalizing fuel with
  | nil =>
    obtain ⟨fuel, rfl⟩ := Nat.exists_eq_add_one.mpr enough
    rfl
  | cons c cs ih =>
    have pos := length_escapeChar_pos c
    rw [flatMap_cons, length_append] at enough
    obtain ⟨fuel, rfl⟩ := Nat.exists_eq_add_one.mpr (by omega : 0 < fuel)
    rw [flatMap_cons, append_assoc, stringBody_escapeChar, ih (by omega), Option.map_some]

/-! ## Blanks -/

def Blank (cs : List Char) : Prop := ∀ c ∈ cs, isBlank c = true

theorem skipBlanks_append (blank : Blank blanks) (cs : List Char) :
    skipBlanks (blanks ++ cs) = skipBlanks cs :=
  dropWhile_append_of_pos blank

theorem skipBlanks_cons (dark : isBlank c = false) (cs : List Char) :
    skipBlanks (c :: cs) = c :: cs :=
  dropWhile_cons_of_neg (by simp [dark])

theorem isBlank_of_isDigit (digit : isDigit c = true) : isBlank c = false := by
  have blanks : ∀ d ∈ [' ', '\t', '\r', '\n'], isDigit d = false := by simp [isDigit]
  have others : ∀ d ∈ [' ', '\t', '\r', '\n'], c ≠ d := fun d mem =>
    ne_of_isDigit digit (blanks d mem)
  simpa [isBlank, and_assoc] using others

theorem blank_margin (depth : Nat) : Blank (margin depth).toList := by
  simp [Blank, margin, isBlank]

theorem Blank.ended (blank : Blank blanks) (ended : Ended (c :: rest)) :
    Ended (blanks ++ c :: rest) := by
  cases blanks with
  | nil => exact ended
  | cons b blanks =>
    intro d first
    obtain rfl : b = d := Option.some.inj first
    have isBlank := blank b mem_cons_self
    simp only [Json.isBlank, Bool.or_eq_true, beq_iff_eq] at isBlank
    rcases isBlank with ((rfl | rfl) | rfl) | rfl <;> decide

/-! ## Values -/

/-- A value whose numbers are natural. -/
inductive Counted : Json → Prop where
  | null : Counted null
  | bool (b : Bool) : Counted (bool b)
  | nat (n : Nat) : Counted (nat n)
  | string (s : String) : Counted (string s)
  | array {elements : List Json} (all : ∀ e ∈ elements, Counted e) : Counted (array elements)
  | object {members : List (String × Json)} (all : ∀ m ∈ members, Counted m.2) :
      Counted (object members)

theorem toList_quote (s : String) :
    (quote s).toList = '"' :: (s.toList.flatMap escapeChar ++ ['"']) := by
  simp [quote]

theorem toList_nat (depth n : Nat) : (prettyAt depth (nat n)).toList = Nat.toDigits 10 n := by
  rw [nat, prettyAt, Nat.toString_eq_repr, Nat.toList_repr]

/-- The lines after the first one between two brackets. -/
def moreLines (depth : Nat) (lines : List String) : List Char :=
  lines.flatMap fun line => ',' :: ((margin depth).toList ++ line.toList)

theorem moreLines_cons (depth : Nat) (line : String) (lines : List String) :
    moreLines depth (line :: lines) =
      ',' :: ((margin depth).toList ++ line.toList) ++ moreLines depth lines :=
  flatMap_cons

theorem intercalate_cons (separator first : List Char) (rest : List (List Char)) :
    separator.intercalate (first :: rest) = first ++ rest.flatMap (separator ++ ·) := by
  induction rest generalizing first with
  | nil => simp
  | cons second rest ih =>
    rw [intercalate_cons_cons, ih, flatMap_cons, append_assoc, append_assoc]

theorem toList_block (opening closing : String) (depth : Nat) (line : String)
    (lines : List String) :
    (block opening closing depth (line :: lines)).toList =
      opening.toList ++ ((margin (depth + 1)).toList ++ line.toList ++
        moreLines (depth + 1) lines) ++ (margin depth).toList ++ closing.toList := by
  simp [block, String.toList_intercalate, intercalate_cons, moreLines, flatMap_map,
    Function.comp_def]

/-- A value starts with a character that is neither a blank nor a closing bracket. -/
theorem Counted.starts (counted : Counted j) (depth : Nat) :
    ∃ c cs, (prettyAt depth j).toList = c :: cs ∧ isBlank c = false ∧ c ≠ ']' := by
  cases counted with
  | null => exact ⟨'n', "ull".toList, by simp [prettyAt], by decide, by decide⟩
  | bool b =>
    cases b with
    | true => exact ⟨'t', "rue".toList, by simp [prettyAt], by decide, by decide⟩
    | false => exact ⟨'f', "alse".toList, by simp [prettyAt], by decide, by decide⟩
  | nat n =>
    rw [toList_nat]
    obtain ⟨c, cs, eq⟩ := exists_cons_of_ne_nil (Nat.toDigits_ne_nil (b := 10) (n := n))
    have digit : isDigit c = true := isDigit_of_mem_toDigits (eq ▸ mem_cons_self)
    exact ⟨c, cs, eq, isBlank_of_isDigit digit, ne_of_isDigit digit (by decide)⟩
  | string s => exact ⟨_, _, toList_quote s, by decide, by decide⟩
  | @array elements all =>
    cases elements with
    | nil => exact ⟨'[', [']'], by simp [prettyAt, prettyElements, block], by decide, by decide⟩
    | cons e es =>
      rw [prettyAt, prettyElements, toList_block]
      exact ⟨'[', _, rfl, by decide, by decide⟩
  | @object members all =>
    cases members with
    | nil =>
      exact ⟨'\x7b', ['\x7d'], by simp [prettyAt, prettyMembers, block], by decide, by decide⟩
    | cons m ms =>
      rw [prettyAt, prettyMembers, toList_block]
      exact ⟨'\x7b', _, rfl, by decide, by decide⟩

/-- The text of a value is read as that value, wherever it stands. -/
def Restores (j : Json) : Prop :=
  ∀ (depth fuel : Nat) (blanks rest : List Char), Blank blanks → Ended rest →
    2 * (prettyAt depth j).toList.length + 1 ≤ fuel →
    parseValue fuel (blanks ++ ((prettyAt depth j).toList ++ rest)) = some (j, rest)

theorem ended_close (blank : Blank blanks) (closing : c = ']' ∨ c = '\x7d') (rest : List Char) :
    Ended (blanks ++ c :: rest) := by
  apply blank.ended
  rintro d ⟨⟩
  rcases closing with rfl | rfl <;> decide

theorem ended_comma (rest : List Char) : Ended (',' :: rest) := by
  rintro d ⟨⟩
  decide

theorem restores_nat (n : Nat) : Restores (nat n) := by
  intro depth fuel blanks rest blank ended enough
  rw [toList_nat] at enough ⊢
  obtain ⟨fuel, rfl⟩ := Nat.exists_eq_add_one.mpr (by omega : 0 < fuel)
  obtain ⟨c, cs, eq⟩ := exists_cons_of_ne_nil (Nat.toDigits_ne_nil (b := 10) (n := n))
  have digit : isDigit c = true := isDigit_of_mem_toDigits (eq ▸ mem_cons_self)
  have literal := numberLiteral?_toDigits n ended
  rw [eq] at literal ⊢
  have noWord : ∀ (w : String) (value : Json) (d : Char) (ds : List Char), w.toList = d :: ds →
      isDigit d = false → word? w value (c :: (cs ++ rest)) = none := by
    intro w value d ds letters other
    simp [word?, letters, (ne_of_isDigit digit other).symm]
  rw [parseValue, skipBlanks_append blank, cons_append, skipBlanks_cons (isBlank_of_isDigit digit)]
  split
  next nothing => cases nothing
  next same => cases same; exact absurd digit (by decide)
  next same => cases same; exact absurd digit (by decide)
  next same => cases same; exact absurd digit (by decide)
  next =>
    rw [noWord "null" _ 'n' "ull".toList (by simp) (by decide),
      noWord "true" _ 't' "rue".toList (by simp) (by decide),
      noWord "false" _ 'f' "alse".toList (by simp) (by decide)]
    simpa [nat] using literal

theorem restores_string (s : String) : Restores (string s) := by
  intro depth fuel blanks rest blank ended enough
  rw [prettyAt, toList_quote] at enough ⊢
  obtain ⟨fuel, rfl⟩ := Nat.exists_eq_add_one.mpr (by omega : 0 < fuel)
  simp only [length_cons, length_append, length_nil] at enough
  rw [parseValue, skipBlanks_append blank, cons_append, skipBlanks_cons (by decide)]
  simp only [append_assoc, singleton_append]
  rw [stringBody_flatMap_escapeChar s.toList rest (by omega), Option.map_some, String.ofList_toList]

theorem restores_null : Restores null := by
  intro depth fuel blanks rest blank ended enough
  obtain ⟨fuel, rfl⟩ := Nat.exists_eq_add_one.mpr (by omega : 0 < fuel)
  have length : "null".length = 4 := rfl
  rw [parseValue, skipBlanks_append blank]
  simp [prettyAt, skipBlanks_cons, isBlank, word?, length]

theorem restores_bool (b : Bool) : Restores (bool b) := by
  intro depth fuel blanks rest blank ended enough
  obtain ⟨fuel, rfl⟩ := Nat.exists_eq_add_one.mpr (by omega : 0 < fuel)
  have lengths : "true".length = 4 ∧ "false".length = 5 := ⟨rfl, rfl⟩
  rw [parseValue, skipBlanks_append blank]
  cases b <;> simp [prettyAt, skipBlanks_cons, isBlank, word?, lengths]

/-! ## Lists of values -/

variable {close chars cs : List Char} {es : List Json} {ms : List (String × Json)}

section

variable {α : Type} {parse : Nat → List Char → Option (List α × List Char)} {text : α → String}
  {bracket : Char} {a : α} {as : List α}

/-- An item is the last one if the bracket closes after it, and a comma leads to more. -/
def ReadsItem (parse : Nat → List Char → Option (List α × List Char)) (text : α → String)
    (bracket : Char) (a : α) : Prop :=
  ∀ (fuel : Nat) (blanks rest later : List Char), Blank blanks → Ended rest →
    2 * (text a).toList.length + 1 ≤ fuel →
    (skipBlanks rest = bracket :: later →
      parse (fuel + 1) (blanks ++ ((text a).toList ++ rest)) = some ([a], later)) ∧
    ∀ as last, skipBlanks rest = ',' :: later → parse fuel later = some (as, last) →
      parse (fuel + 1) (blanks ++ ((text a).toList ++ rest)) = some (a :: as, last)

variable (all : ∀ x ∈ a :: as, ReadsItem parse text bracket x)
  (closing : bracket = ']' ∨ bracket = '\x7d') (depth fuel : Nat) (rest : List Char)
include all closing

theorem parse_lines (blank : Blank blanks) (blankClose : Blank close)
    (enough : 2 * ((text a).toList ++ moreLines depth (as.map text)).length + 2 ≤ fuel) :
    parse fuel (blanks ++ ((text a).toList ++
      (moreLines depth (as.map text) ++ (close ++ bracket :: rest)))) = some (a :: as, rest) := by
  have first := all a mem_cons_self
  obtain ⟨fuel, rfl⟩ := Nat.exists_eq_add_one.mpr (by omega : 0 < fuel)
  induction as generalizing a fuel blanks with
  | nil =>
    simp only [map_nil, moreLines, flatMap_nil, nil_append, append_nil] at enough ⊢
    refine (first fuel _ _ _ blank (ended_close blankClose closing rest) (by omega)).1 ?_
    rw [skipBlanks_append blankClose, skipBlanks_cons (by rcases closing with rfl | rfl <;> decide)]
  | cons next as ih =>
    simp only [map_cons, moreLines_cons, cons_append, append_assoc,
      length_append, length_cons] at enough ih ⊢
    refine (first fuel _ _ _ blank (ended_comma _) (by omega)).2 _ _
      (skipBlanks_cons (by decide) _) ?_
    obtain ⟨fuel, rfl⟩ := Nat.exists_eq_add_one.mpr (by omega : 0 < fuel)
    have others : ∀ x ∈ next :: as, ReadsItem parse text bracket x := fun x mem =>
      all x (mem_cons_of_mem a mem)
    exact ih others (blank_margin depth) (others next mem_cons_self) fuel (by omega)

/-- What stands between two brackets is read from its first character on. -/
theorem parse_block (starts : (text a).toList = c :: cs) (dark : isBlank c = false)
    (enough : 2 * ((text a).toList ++ moreLines (depth + 1) (as.map text)).length + 2 ≤ fuel) :
    ∃ cs, skipBlanks ((margin (depth + 1)).toList ++ ((text a).toList ++
        (moreLines (depth + 1) (as.map text) ++ ((margin depth).toList ++ bracket :: rest)))) =
          c :: cs ∧ parse fuel (c :: cs) = some (a :: as, rest) := by
  have parsed := parse_lines all closing (depth + 1) fuel rest (by simp [Blank] : Blank [])
    (blank_margin depth) enough
  rw [nil_append, starts, cons_append] at parsed
  refine ⟨_, ?_, parsed⟩
  rw [skipBlanks_append (blank_margin _), starts, cons_append, skipBlanks_cons dark]

end

theorem prettyElements_eq (depth : Nat) : prettyElements depth es = es.map (prettyAt depth) := by
  induction es with
  | nil => rfl
  | cons e es ih => rw [prettyElements, ih, map_cons]

/-- The line of a member. -/
def memberText (depth : Nat) (m : String × Json) : String :=
  quote m.1 ++ ": " ++ prettyAt depth m.2

theorem toList_memberText (depth : Nat) (m : String × Json) :
    (memberText depth m).toList = '"' :: (m.1.toList.flatMap escapeChar ++
      '"' :: ':' :: ' ' :: (prettyAt depth m.2).toList) := by
  simp [memberText, toList_quote]

theorem prettyMembers_eq (depth : Nat) : prettyMembers depth ms = ms.map (memberText depth) := by
  induction ms with
  | nil => rfl
  | cons m ms ih => rw [prettyMembers, ih, map_cons, memberText]

theorem readsItem_element (restores : Restores e) (depth : Nat) :
    ReadsItem parseElements (prettyAt depth) ']' e := by
  intro fuel blanks rest later blank ended enough
  rw [parseElements, restores depth fuel blanks rest blank ended enough]
  refine ⟨fun closed => ?_, fun es last comma more => ?_⟩
  · simp [closed]
  · simp [comma, more]

theorem readsItem_member {m : String × Json} (restores : Restores m.2) (depth : Nat) :
    ReadsItem parseMembers (memberText depth) '\x7d' m := by
  intro fuel blanks rest later blank ended enough
  rw [toList_memberText] at enough ⊢
  simp only [length_append, length_cons] at enough
  have first := restores depth fuel [' '] rest (by simp [Blank, isBlank]) ended (by omega)
  have body : stringBody fuel (m.1.toList.flatMap escapeChar ++
      '"' :: ':' :: ' ' :: ((prettyAt depth m.2).toList ++ rest)) =
        some (m.1.toList, ':' :: ' ' :: ((prettyAt depth m.2).toList ++ rest)) :=
    stringBody_flatMap_escapeChar m.1.toList _ (by omega)
  rw [parseMembers, skipBlanks_append blank, cons_append, skipBlanks_cons (by decide)]
  simp only [append_assoc, cons_append, body, Option.bind_eq_bind, Option.bind_some]
  rw [skipBlanks_cons (by decide)]
  simp only [singleton_append] at first
  simp only [first, Option.bind_some, String.ofList_toList]
  refine ⟨fun closed => ?_, fun ms last comma more => ?_⟩
  · simp [closed]
  · simp [comma, more]

theorem parseValue_array (fuel : Nat) (blank : Blank blanks) (starts : skipBlanks chars = c :: cs)
    (other : c ≠ ']') :
    parseValue (fuel + 1) (blanks ++ '[' :: chars) =
      (parseElements fuel (c :: cs)).map fun p => (array p.1, p.2) := by
  rw [parseValue, skipBlanks_append blank, skipBlanks_cons (by decide)]
  simp only [starts]
  split
  next same => exact absurd (List.cons.inj same).1 other
  next => rfl

theorem parseValue_object (fuel : Nat) (blank : Blank blanks) (starts : skipBlanks chars = c :: cs)
    (other : c ≠ '\x7d') :
    parseValue (fuel + 1) (blanks ++ '\x7b' :: chars) =
      (parseMembers fuel (c :: cs)).map fun p => (object p.1, p.2) := by
  rw [parseValue, skipBlanks_append blank, skipBlanks_cons (by decide)]
  simp only [starts]
  split
  next same => exact absurd (List.cons.inj same).1 other
  next => rfl

theorem restores_array {elements : List Json} (counted : ∀ e ∈ elements, Counted e)
    (all : ∀ e ∈ elements, Restores e) : Restores (array elements) := by
  intro depth fuel blanks rest blank ended enough
  obtain ⟨fuel, rfl⟩ := Nat.exists_eq_add_one.mpr (by omega : 0 < fuel)
  cases elements with
  | nil =>
    rw [parseValue, skipBlanks_append blank]
    simp [prettyAt, prettyElements, block, skipBlanks_cons, isBlank]
  | cons e es =>
    obtain ⟨c, cs, starts, dark, other⟩ := (counted e mem_cons_self).starts (depth + 1)
    rw [prettyAt, prettyElements, prettyElements_eq, toList_block] at enough ⊢
    simp only [length_append, append_assoc] at enough ⊢
    obtain ⟨cs, opened, parsed⟩ := parse_block
      (fun x mem => readsItem_element (all x mem) (depth + 1)) (.inl rfl) depth fuel rest starts
      dark (by simp at enough ⊢; omega)
    have step := parseValue_array fuel blank opened other
    rw [parsed] at step
    simpa using step

theorem restores_object {members : List (String × Json)} (all : ∀ m ∈ members, Restores m.2) :
    Restores (object members) := by
  intro depth fuel blanks rest blank ended enough
  obtain ⟨fuel, rfl⟩ := Nat.exists_eq_add_one.mpr (by omega : 0 < fuel)
  cases members with
  | nil =>
    rw [parseValue, skipBlanks_append blank]
    simp [prettyAt, prettyMembers, block, skipBlanks_cons, isBlank]
  | cons m ms =>
    rw [prettyAt, prettyMembers_eq, map_cons, toList_block] at enough ⊢
    simp only [length_append, append_assoc] at enough ⊢
    obtain ⟨cs, opened, parsed⟩ := parse_block
      (fun x mem => readsItem_member (all x mem) (depth + 1)) (.inr rfl) depth fuel rest
      (toList_memberText _ m) (by decide) (by simp at enough ⊢; omega)
    have step := parseValue_object fuel blank opened (by decide)
    rw [parsed] at step
    simpa using step

/-- Every value whose numbers are natural is read back from its text. -/
theorem Counted.restores (counted : Counted j) : Restores j := by
  induction counted with
  | null => exact restores_null
  | bool b => exact restores_bool b
  | nat n => exact restores_nat n
  | string s => exact restores_string s
  | array all ih => exact restores_array all ih
  | object _ ih => exact restores_object ih

/-! ## Depth -/

/-- How many arrays and objects stand inside each other at the deepest place of a value. -/
def nesting : Json → Nat
  | array elements => nestingElements elements + 1
  | object members => nestingMembers members + 1
  | _ => 0
where
  nestingElements : List Json → Nat
    | [] => 0
    | e :: es => max (nesting e) (nestingElements es)
  nestingMembers : List (String × Json) → Nat
    | [] => 0
    | (_, value) :: ms => max (nesting value) (nestingMembers ms)

-- By induction on the value, and on the lists in it.
mutual
theorem excess?_eq_none (j : Json) (room : Nat) : excess? room j = none ↔ j.nesting ≤ room := by
  cases j with
  | array elements =>
    cases room with
    | zero => simp [excess?, nesting]
    | succ room => simpa [excess?, nesting] using excessElements?_eq_none elements room
  | object members =>
    cases room with
    | zero => simp [excess?, nesting]
    | succ room => simpa [excess?, nesting] using excessMembers?_eq_none members room
  | _ => simp [excess?, nesting]
theorem excessElements?_eq_none (es : List Json) (room : Nat) :
    excessElements? room es = none ↔ nesting.nestingElements es ≤ room := by
  cases es with
  | nil => simp [excessElements?, nesting.nestingElements]
  | cons e es =>
    rw [excessElements?, nesting.nestingElements, Option.or_eq_none_iff, Nat.max_le,
      excess?_eq_none e room, excessElements?_eq_none es room]
theorem excessMembers?_eq_none (ms : List (String × Json)) (room : Nat) :
    excessMembers? room ms = none ↔ nesting.nestingMembers ms ≤ room := by
  cases ms with
  | nil => simp [excessMembers?, nesting.nestingMembers]
  | cons m ms =>
    obtain ⟨key, value⟩ := m
    rw [excessMembers?, nesting.nestingMembers, Option.or_eq_none_iff, Nat.max_le,
      excess?_eq_none value room, excessMembers?_eq_none ms room]
end

theorem nesting_lt_array (mem : e ∈ es) : e.nesting < (array es).nesting := by
  rw [nesting, Nat.lt_succ_iff]
  exact le_of_max (fun _ _ => by rw [nesting.nestingElements]) mem

theorem nesting_lt_object (name : String) (mem : (name, value) ∈ ms) :
    value.nesting < (object ms).nesting := by
  rw [nesting, Nat.lt_succ_iff]
  exact le_of_max (f := fun m => m.2.nesting) (fun _ _ => nesting.nestingMembers.eq_2 ..) mem

/-- A document is read as the value it was written for, unless that is too deep. -/
theorem parse?_pretty (counted : Counted j) :
    parse? (Octets.ofString j.pretty) =
      if j.nesting ≤ depthLimit then some (j, ['\n']) else none := by
  have text : j.pretty.toList = (prettyAt 0 j).toList ++ ['\n'] := by simp [pretty]
  have octets := Octets.length_chars (Octets.chars?_ofString j.pretty)
  rw [text, length_append] at octets
  have parsed := counted.restores 0 (2 * (Octets.ofString j.pretty).length + 2) [] ['\n']
    (by simp [Blank]) (by simp [Ended, isDigit]) (by omega)
  rw [nil_append, ← text, ← Octets.chars_ofString] at parsed
  rw [parse?, parsed, Option.filter_some]
  simp only [Option.isNone_iff_eq_none, excess?_eq_none]

end BitSchema.Json
