import BitSchema.Text.Blank
import BitSchema.Toml.Text

/-!
# Numbers, times and words

Values that are written without quotes or brackets.  The first characters decide whether a run is a
whole number, a floating-point number or a time, the kind decides which characters belong to it, and
only then is the run checked.
-/

namespace BitSchema.Toml

open Parsing

def isDigit (c : Char) : Bool := '0' ≤ c && c ≤ '9'

/-! ## Numbers -/

/-- Every underscore comes after a digit of any base, and the last character is such a digit. -/
def underscoresFit (afterDigit : Bool) : List Char → Bool
  | [] => afterDigit
  | c :: cs => (c != '_' || afterDigit) && underscoresFit (isHexDigit c) cs

/-- A number other than zero starts with a zero, and not with the mark of a base. -/
def hasLeadingZero : List Char → Bool
  | '0' :: c :: _ => c != 'b' && c != 'o' && c != 'x'
  | [_] => false
  | sign :: '0' :: _ :: _ => sign == '+' || sign == '-'
  | _ => false

def dropUnderscores (cs : List Char) : List Char := cs.filter (· != '_')

def splitSign : List Char → Bool × List Char
  | '-' :: cs => (true, cs)
  | '+' :: cs => (false, cs)
  | cs => (false, cs)

/-- The number that digits with a sign or the mark of a base mean. -/
def numberOf? (cs : List Char) : Option Int :=
  match cs with
  | '0' :: 'x' :: digits => (readDigits? 16 digits).map Int.ofNat
  | '0' :: 'o' :: digits => (readDigits? 8 digits).map Int.ofNat
  | '0' :: 'b' :: digits => (readDigits? 2 digits).map Int.ofNat
  | _ =>
    let (negative, digits) := splitSign cs
    (readDigits? 10 digits).map fun n => if negative then -(n : Int) else n

def isWord (n : Int) : Bool := -(Nat.pow 2 63 : Int) ≤ n && n < Nat.pow 2 63

/-- The whole number that a run of characters means. -/
def integerOf (cs : List Char) : Except Cause Value :=
  let text := String.ofList cs
  if !underscoresFit false cs then .error (.badInteger text .underscores)
  else if hasLeadingZero cs then .error (.badInteger text .leadingZeroes)
  else match numberOf? (dropUnderscores cs) with
    | some n => if isWord n then .ok (.integer n) else .error (.hugeInteger text)
    | none => .error (.hugeInteger text)

/-- The decimal number `m * 10 ^ e` is below the largest double by more than half a step. -/
def inDoubleRange (m : Nat) (e : Int) : Bool :=
  let digits := (Nat.toDigits 10 m).length
  if m = 0 ∨ (digits : Int) + e < 300 then true
  else if 320 < (digits : Int) + e then false
  else
    let bound := Nat.pow 2 1024 - Nat.pow 2 970
    if 0 ≤ e then m * Nat.pow 10 e.toNat < bound else m < bound * Nat.pow 10 (-e).toNat

/-- The exponent of a float: a mark, a sign and digits. -/
def exponent? : List Char → Option Int
  | [] => some 0
  | mark :: rest => do
    guard (mark == 'e' || mark == 'E')
    let (negative, digits) := splitSign rest
    let n ← readDigits? 10 digits
    return if negative then -(n : Int) else n

/-- The float that a run of characters means, as digits and the power of ten they are multiplied
with; `none` if it means none. -/
def float? (cs : List Char) : Option (Nat × Int) :=
  let (_, cs) := splitSign cs
  if cs = ['i', 'n', 'f'] ∨ cs = ['n', 'a', 'n'] then some (0, 0)
  else
    let whole := cs.takeWhile isDigit
    let rest := cs.dropWhile isDigit
    let (fraction, rest) :=
      match rest with
      | '.' :: after => (after.takeWhile isDigit, after.dropWhile isDigit)
      | _ => ([], rest)
    do
      let e ← exponent? rest
      let m ← readDigits? 10 (whole ++ fraction)
      return (m, e - fraction.length)

def isFloatMark (c : Char) : Bool := c == '.' || c == 'e' || c == 'E'

/-- The runs of characters between the points and exponents of a float. -/
def floatParts (cs : List Char) : List (List Char) :=
  (cs.splitBy fun c d => !isFloatMark c && !isFloatMark d).filter fun part =>
    !part.any isFloatMark

/-- A point is followed by a digit. -/
def pointsFit : List Char → Bool
  | [] => true
  | '.' :: rest => rest.head?.any isDigit && pointsFit rest
  | _ :: rest => pointsFit rest

/-- The names of what is no finite number. -/
def isUnbounded (cs : List Char) : Bool :=
  ["nan", "+nan", "-nan", "inf", "+inf", "-inf"].contains (String.ofList cs)

/-- A run of characters as a float. -/
def floatOf (cs : List Char) : Except Cause Value :=
  let text := String.ofList cs
  let parts := floatParts cs
  if !parts.all (fun part => isUnbounded part || underscoresFit false part) then
    .error (.badFloat text .underscores)
  else if parts.head?.any hasLeadingZero then .error (.badFloat text .leadingZeroes)
  else if !pointsFit cs then .error (.badFloat text .noFraction)
  else match float? (dropUnderscores cs) with
    | none => .error (.notFloat text)
    | some (m, e) => if inDoubleRange m e then .ok .float else .error (.hugeFloat text)

/-! ## Times -/

/-- A number of so many digits at the start of a text. -/
def digitsOf? (count : Nat) (cs : List Char) : Option (Nat × List Char) :=
  if (cs.take count).length = count then
    (readDigits? 10 (cs.take count)).map fun n => (n, cs.drop count)
  else none

/-- A character at the start of a text. -/
def skip? (c : Char) : List Char → Option (List Char)
  | d :: rest => if c = d then some rest else none
  | [] => none

def isLeapYear (year : Nat) : Bool :=
  (year % 4 = 0 && year % 100 ≠ 0) || year % 400 = 0

def daysIn (year month : Nat) : Nat :=
  if month = 2 then (if isLeapYear year then 29 else 28)
  else if month = 4 ∨ month = 6 ∨ month = 9 ∨ month = 11 then 30
  else 31

/-- A date, and what comes after it. -/
def date? (cs : List Char) : Option (List Char) := do
  let (year, cs) ← digitsOf? 4 cs
  let (month, cs) ← digitsOf? 2 (← skip? '-' cs)
  let (day, cs) ← digitsOf? 2 (← skip? '-' cs)
  guard (1 ≤ month && month ≤ 12 && 1 ≤ day && day ≤ daysIn year month)
  return cs

/-- The seconds of a time, which may be left out. -/
def seconds? : List Char → Option (List Char)
  | ':' :: cs => do
    let (second, cs) ← digitsOf? 2 cs
    guard (second < 60)
    match cs with
    | '.' :: rest =>
      guard (rest.head?.any isDigit)
      return rest.dropWhile isDigit
    | _ => return cs
  | cs => some cs

/-- A time of day, and what comes after it. -/
def timeOfDay? (cs : List Char) : Option (List Char) := do
  let (hour, cs) ← digitsOf? 2 cs
  let (minute, cs) ← digitsOf? 2 (← skip? ':' cs)
  guard (hour < 24 && minute < 60)
  seconds? cs

/-- Nothing, or the offset of a time zone, of up to a whole day and an hour of minutes. -/
def isOffset : List Char → Bool
  | [] => true
  | ['Z'] => true
  | sign :: cs => Option.isSome do
    guard (sign == '+' || sign == '-')
    let (hour, cs) ← digitsOf? 2 cs
    let (minute, cs) ← digitsOf? 2 (← skip? ':' cs)
    guard (hour ≤ 24 && minute ≤ 60 && cs.isEmpty)

/-- A date, a time, or both with an offset. -/
def isTime (cs : List Char) : Bool :=
  match date? cs with
  | some [] => true
  | some (divider :: rest) => divider == 'T' && (timeOfDay? rest).any isOffset
  | none => timeOfDay? cs == some []

/-- A character of a time in the form it is checked in. -/
def timeChar (c : Char) : Char :=
  if c = 't' ∨ c = ' ' then 'T' else if c = 'z' then 'Z' else c

/-- A run of characters as a time. -/
def timeOf (cs : List Char) : Except Cause Value :=
  let cs := (trimBlanks (String.ofList cs)).toList.map timeChar
  if isTime cs then .ok .time else .error (.notTime (String.ofList cs))

/-! ## Reading -/

/-- What the characters that were read mean. -/
def takenAs (meaning : List Char → Except Cause Value) : Parsing Value := do
  match meaning (← takenChars) with
  | .ok value => return value
  | .error cause => failHere cause

def readFloat : Parsing Value := do
  skip fun c => isDigit c || isFloatMark c || c == '_' || c == '-' || c == '+'
  takenAs floatOf

def readTime : Parsing Value := do
  skip fun c => isDigit c || "-:Tt .Zz+".toList.contains c
  takenAs timeOf

/-- The rest of a number with an underscore or a sign in it. -/
def readDecimal : Parsing Value := do
  skip fun c => isDigit c || c == '_'
  if (← peek).any isFloatMark then readFloat else takenAs integerOf

/-- The rest of a number or a time after its first digits. -/
def readNumberOrTime : Parsing Value := do
  skip isDigit
  match ← peek with
  | some c =>
    if c = '-' ∨ c = ':' then readTime
    else if c = '_' then readDecimal
    else if isFloatMark c then readFloat
    else takenAs integerOf
  | none => takenAs integerOf

/-- The digits after the mark of a base. -/
def readBased (base : NumberBase) (accepts : Char → Bool) : Parsing Value := do
  let _ ← next
  let c? ← peek
  if !c?.any accepts then failHere (.notBased base (← takenText) c?)
  skip fun c => accepts c || c == '_'
  takenAs integerOf

/-- The rest of a number or a time after a zero. -/
def readAfterZero : Parsing Value := do
  match ← peek with
  | some 'b' => readBased .binary fun c => c == '0' || c == '1'
  | some 'o' => readBased .octal fun c => '0' ≤ c && c ≤ '7'
  | some 'x' => readBased .hexadecimal isHexDigit
  | some c =>
    if isDigit c then readNumberOrTime
    else if c = '_' then readDecimal
    else if isFloatMark c then readFloat
    else takenAs integerOf
  | none => takenAs integerOf

/-- The rest of a float that is no finite number, after its first letter and those before. -/
def readUnbounded (second third : Char) : Parsing Value := do
  if (← accept second) && (← accept third) then takenAs floatOf
  else failHere (.notInfinity (← takenText))

/-- The rest of a number after its sign. -/
def readSigned : Parsing Value := do
  match ← next with
  | some 'i' => readUnbounded 'n' 'f'
  | some 'n' => readUnbounded 'a' 'n'
  | some '0' =>
    match ← peek with
    | some c =>
      if c = 'b' ∨ c = 'o' ∨ c = 'x' then failHere (.signedBase (← takenText) c)
      else readDecimal
    | none => readDecimal
  | some '.' => failHere .bareFraction
  | c? => if c?.any isDigit then readDecimal else failOn c? (.notDigit c?)

/-- The rest of a word.  Its last `kept` characters that were read belong to it. -/
def readWord (kept : Nat) : Parsing Value := do
  modify fun s => { s with cursor := { s.cursor with taken := s.cursor.taken.take kept } }
  skip isLetter
  match ← takenText with
  | "true" => return .boolean true
  | "false" => return .boolean false
  | word => failHere (.notWord word)

/-- The rest of a word that starts like one for what is no finite number. -/
def readUnboundedWord : Parsing Value := do
  if ((← accept 'n') && (← accept 'f')) || ((← accept 'a') && (← accept 'n')) then takenAs floatOf
  else readWord 1

end BitSchema.Toml
