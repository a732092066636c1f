import BitSchema.Json.Basic
import BitSchema.Text.Octets

/-!
# Reading JSON

`Json.parse?` reads the first value of a text and leaves the rest of it alone.  Octets that are not
UTF-8 and surrogates that stand alone are read as replacement characters.
-/

namespace BitSchema.Json

def isBlank (c : Char) : Bool := c == ' ' || c == '\t' || c == '\r' || c == '\n'

def skipBlanks (cs : List Char) : List Char := cs.dropWhile isBlank

def isDigit (c : Char) : Bool := '0' ≤ c && c ≤ '9'

/-! ## Strings -/

def isLeadSurrogate (n : Nat) : Bool := 0xD800 ≤ n && n < 0xDC00

def isTrailSurrogate (n : Nat) : Bool := 0xDC00 ≤ n && n < 0xE000

/-- The character of an escape by number that is not a surrogate. -/
def escapedChar (n : Nat) : Char := if n.isValidChar then Char.ofNat n else '\ufffd'

/-- The character of two surrogates. -/
def pairedChar (lead trail : Nat) : Char :=
  Char.ofNat (0x10000 + (lead - 0xD800) * 0x400 + (trail - 0xDC00))

/-- The four digits after a `\u`. -/
def fourDigits? : List Char → Option (Nat × List Char)
  | a :: b :: c :: d :: rest => (readDigits? 16 [a, b, c, d]).map (·, rest)
  | _ => none

/-- The trailing surrogate that an escape right here gives. -/
def trailEscape? : List Char → Option (Nat × List Char)
  | '\\' :: 'u' :: rest => (fourDigits? rest).filter fun p => isTrailSurrogate p.1
  | _ => none

/-- A string after its opening quote, and the text after its closing one.  `fuel` bounds the number
of characters. -/
def stringBody : Nat → List Char → Option (List Char × List Char)
  | 0, _ => none
  | _, [] => none
  | fuel + 1, c :: cs =>
    if c = '"' then some ([], cs)
    else if c.toNat < 0x20 then none
    else if c ≠ '\\' then (stringBody fuel cs).map fun (body, rest) => (c :: body, rest)
    else match cs with
      | [] => none
      | e :: rest =>
        if e = 'u' then do
          let (n, rest) ← fourDigits? rest
          match (if isLeadSurrogate n then trailEscape? rest else none) with
          | some (trail, rest) =>
            (stringBody fuel rest).map fun (body, rest) => (pairedChar n trail :: body, rest)
          | none => (stringBody fuel rest).map fun (body, rest) => (escapedChar n :: body, rest)
        else if e = '/' then (stringBody fuel rest).map fun (body, rest) => ('/' :: body, rest)
        else match letterEscapes.find? (·.2 == e) with
          | some (meant, _) =>
            (stringBody fuel rest).map fun (body, rest) => (meant :: body, rest)
          | none => none

/-! ## Numbers -/

/-- The digits of a whole part: a zero alone, or digits that start with no zero. -/
def wholePart (cs : List Char) : List Char :=
  if cs.head? = some '0' then ['0'] else cs.takeWhile isDigit

/-- A point and at least one digit, or nothing; `none` if the digits are missing. -/
def fractionPart? : List Char → Option (List Char)
  | '.' :: cs =>
    let digits := cs.takeWhile isDigit
    if digits.isEmpty then none else some ('.' :: digits)
  | _ => some []

/-- An exponent, or nothing; `none` if its digits are missing. -/
def exponentPart? : List Char → Option (List Char)
  | e :: cs =>
    if e = 'e' ∨ e = 'E' then
      let sign := if cs.head? = some '+' ∨ cs.head? = some '-' then cs.take 1 else []
      let digits := (cs.drop sign.length).takeWhile isDigit
      if digits.isEmpty then none else some (e :: sign ++ digits)
    else some []
  | [] => some []

/-- The literal of a number, and the text after it. -/
def numberLiteral? (cs : List Char) : Option (String × List Char) := do
  let sign := if cs.head? = some '-' then ['-'] else []
  let rest := cs.drop sign.length
  let whole := wholePart rest
  if whole.isEmpty then none
  let rest := rest.drop whole.length
  let fraction ← fractionPart? rest
  let rest := rest.drop fraction.length
  let exponent ← exponentPart? rest
  return (String.ofList (sign ++ whole ++ fraction ++ exponent), rest.drop exponent.length)

/-! ## Values -/

/-- A word at the start of a text. -/
def word? (word : String) (value : Json) (cs : List Char) : Option (Json × List Char) :=
  if word.toList.isPrefixOf cs then some (value, cs.drop word.length) else none

mutual
/-- The value at the start of a text, and the text after it.  `fuel` bounds the depth and the number
of parts. -/
def parseValue : Nat → List Char → Option (Json × List Char)
  | 0, _ => none
  | fuel + 1, text =>
    match skipBlanks text with
    | [] => none
    | '"' :: cs => (stringBody fuel cs).map fun (s, rest) =>
        (string (String.ofList s), rest)
    | '[' :: cs =>
      match skipBlanks cs with
      | ']' :: rest => some (array [], rest)
      | cs => (parseElements fuel cs).map fun (es, rest) => (array es, rest)
    | '\x7b' :: cs =>
      match skipBlanks cs with
      | '\x7d' :: rest => some (object [], rest)
      | cs => (parseMembers fuel cs).map fun (ms, rest) => (object ms, rest)
    | cs =>
      (word? "null" null cs).or <| (word? "true" (bool true) cs).or <|
        (word? "false" (bool false) cs).or <|
          (numberLiteral? cs).map fun (n, rest) => (number n, rest)
/-- Elements up to the closing bracket. -/
def parseElements : Nat → List Char → Option (List Json × List Char)
  | 0, _ => none
  | fuel + 1, cs => do
    let (first, rest) ← parseValue fuel cs
    match skipBlanks rest with
    | ']' :: rest => return ([first], rest)
    | ',' :: rest =>
      let (more, rest) ← parseElements fuel rest
      return (first :: more, rest)
    | _ => none
/-- Members up to the closing brace. -/
def parseMembers : Nat → List Char → Option (List (String × Json) × List Char)
  | 0, _ => none
  | fuel + 1, cs => do
    match skipBlanks cs with
    | '"' :: cs =>
      let (key, rest) ← stringBody fuel cs
      match skipBlanks rest with
      | ':' :: rest =>
        let (value, rest) ← parseValue fuel rest
        let first := (String.ofList key, value)
        match skipBlanks rest with
        | '\x7d' :: rest => return ([first], rest)
        | ',' :: rest =>
          let (more, rest) ← parseMembers fuel rest
          return (first :: more, rest)
        | _ => none
      | _ => none
    | _ => none
end

/-- The first value of a text, and the characters after it.  It must not be too deep. -/
def parse? (text : Octets) : Option (Json × List Char) :=
  (parseValue (2 * text.length + 2) text.chars).filter fun p => (p.1.excess? depthLimit).isNone

end BitSchema.Json
