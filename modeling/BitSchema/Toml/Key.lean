import BitSchema.Text.Digits
import BitSchema.Toml.Value

/-!
# Keys as text
-/

namespace BitSchema.Toml

/-- A character that needs no quotes in a key. -/
def isBareChar (c : Char) : Bool := c.isAlphanum || c == '_' || c == '-'

/-- The characters with an escape of one letter. -/
def letterEscapes : List (Char × Char) :=
  [('b', '\x08'), ('t', '\t'), ('n', '\n'), ('f', '\x0c'), ('r', '\r'), ('"', '"'), ('\\', '\\')]

/-- A character between the quotes of a key. -/
def escapeKeyChar (c : Char) : String :=
  match letterEscapes.find? (·.2 == c) with
  | some (letter, _) => String.ofList ['\\', letter]
  | none =>
    if c.toNat < 0x20 ∨ c.toNat = 0x7F then "\\u" ++ toHex 4 c.toNat else c.toString

/-- A part of a key, quoted if need be. -/
def keyPartText (part : String) : String :=
  if part ≠ "" ∧ part.toList.all isBareChar then part
  else "\"" ++ String.join (part.toList.map escapeKeyChar) ++ "\""

def keyText (key : Key) : String := ".".intercalate (key.map keyPartText)

end BitSchema.Toml
