/-!
# Blanks

The characters that count as white space, and text without them at its ends.
-/

namespace BitSchema

/-- A white-space character: the controls among them, the space, and those outside ASCII. -/
def isBlank (c : Char) : Bool :=
  let n := c.toNat
  (0x09 ≤ n && n ≤ 0x0D) || n == 0x20 || n == 0x85 || n == 0xA0 || n == 0x1680 ||
    (0x2000 ≤ n && n ≤ 0x200A) || n == 0x2028 || n == 0x2029 || n == 0x202F || n == 0x205F ||
    n == 0x3000

/-- The text without the blanks at its ends. -/
def trimBlanks (s : String) : String :=
  let rest := s.toList.dropWhile isBlank
  String.ofList (rest.reverse.dropWhile isBlank).reverse

/-- The text holds nothing but blanks. -/
def isAllBlank (s : String) : Bool := s.toList.all isBlank

end BitSchema
