import BitSchema.Text.Octets
import BitSchema.Text.Digits
import BitSchema.Text.Character

/-!
# Quoted text

A text between double quotes, on one line and in printable characters only.

`quote` writes it: an octet that is part of no character becomes `\x` and two digits, a character
that does not print becomes `\u` and four digits or `\U` and eight.  `unescape` reads what stands
between the quotes of a string literal; it also takes octal escapes, and refuses an escaped
apostrophe and a number that is no character.
-/

namespace BitSchema.Quoted

/-- The escapes of one letter, with the code each stands for. -/
def letterEscapes : List (Char × Nat) :=
  [('a', 7), ('b', 8), ('t', 9), ('n', 10), ('v', 11), ('f', 12), ('r', 13), ('"', 34), ('\\', 92)]

/-- A character inside a quoted text. -/
def quoteChar (c : Char) : String :=
  match letterEscapes.find? (·.2 == c.toNat) with
  | some (letter, _) => String.ofList ['\\', letter]
  | none =>
    if isPrintable c then c.toString
    else if c.toNat < 0x80 then "\\x" ++ toHex 2 c.toNat
    else if c.toNat < 0x10000 then "\\u" ++ toHex 4 c.toNat
    else "\\U" ++ toHex 8 c.toNat

/-- A character between apostrophes. -/
def quoteLone (c : Char) : String :=
  "'" ++ (if c = '\x27' then "\\'" else if c = '"' then "\"" else quoteChar c) ++ "'"

/-- A piece of a text inside the quotes. -/
def quotePiece : Octets.Piece → String
  | .char c => quoteChar c
  | .stray b => "\\x" ++ toHex 2 b.toNat

/-- The text in quotes. -/
def quote (text : Octets) : String :=
  "\"" ++ String.join (text.pieces.map quotePiece) ++ "\""

/-- The string in quotes. -/
def quoteString (s : String) : String :=
  "\"" ++ String.join (s.toList.map quoteChar) ++ "\""

/-- The octets of the character with this number, if there is one. -/
def charOctets? (n : Nat) : Option Octets :=
  if n.isValidChar then some (Octets.ofString (Char.ofNat n).toString) else none

/-- The octet with this number. -/
def octet? (n : Nat) : Option UInt8 :=
  if n < 256 then some (UInt8.ofNat n) else none

/-- The octets that the text between the quotes of a literal stands for. -/
def unescape : List Char → Option Octets
  | [] => some []
  | [c] => if c = '\\' then none else some (Octets.ofString c.toString)
  | c :: d :: rest =>
    if c ≠ '\\' then (Octets.ofString c.toString ++ ·) <$> unescape (d :: rest)
    else match letterEscapes.find? (·.1 == d) with
      | some (_, code) => (UInt8.ofNat code :: ·) <$> unescape rest
      | none =>
        match d, rest with
        | 'x', a :: b :: after => do
          let n ← readDigits? 16 [a, b]
          (UInt8.ofNat n :: ·) <$> unescape after
        | 'u', a :: b :: c :: d :: after => do
          let octets ← charOctets? (← readDigits? 16 [a, b, c, d])
          (octets ++ ·) <$> unescape after
        | 'U', a :: b :: c :: d :: e :: f :: g :: h :: after => do
          let octets ← charOctets? (← readDigits? 16 [a, b, c, d, e, f, g, h])
          (octets ++ ·) <$> unescape after
        | a, b :: c :: after => do
          let o ← octet? (← readDigits? 8 [a, b, c])
          (o :: ·) <$> unescape after
        | _, _ => none

end BitSchema.Quoted
