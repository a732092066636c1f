/-!
# Octets

Text as it stands in a file: a list of octets that may or may not be UTF-8.

`pieces` reads such a text from the left.  Each piece is a character, or a single octet at which no
character starts.  Everything that treats malformed text (validity, the place of the first fault,
replacement characters, quoting) is a function of the pieces.
-/

namespace BitSchema

/-- A text as octets. -/
abbrev Octets : Type := List UInt8

namespace Octets

/-- The octets of a string. -/
def ofString (s : String) : Octets := s.toUTF8.toList

/-- One character for each octet, whether they are UTF-8 or not. -/
def octetwise (text : Octets) : String := String.ofList (text.map fun b => Char.ofNat b.toNat)

/-- The octets that characters stand for one by one. -/
def ofOctetwise (s : String) : Octets := s.toList.map fun c => UInt8.ofNat c.toNat

/-- What stands at one place of a text: a character, or an octet that starts none. -/
inductive Piece where
  | char (c : Char)
  | stray (b : UInt8)
  deriving DecidableEq, Repr

/-- A continuation octet. -/
def isTail (b : UInt8) : Bool := 0x80 ≤ b && b ≤ 0xBF

/-- `a b` is a character of two octets. -/
def isPair (a b : UInt8) : Bool := 0xC2 ≤ a && a ≤ 0xDF && isTail b

/-- `a b c` is a character of three octets: neither overlong nor a surrogate. -/
def isTriple (a b c : UInt8) : Bool :=
  0xE0 ≤ a && a ≤ 0xEF && isTail b && isTail c &&
    (a != 0xE0 || 0xA0 ≤ b) && (a != 0xED || b ≤ 0x9F)

/-- `a b c d` is a character of four octets: neither overlong nor above the last code point. -/
def isQuad (a b c d : UInt8) : Bool :=
  0xF0 ≤ a && a ≤ 0xF4 && isTail b && isTail c && isTail d &&
    (a != 0xF0 || 0x90 ≤ b) && (a != 0xF4 || b ≤ 0x8F)

/-- The payload of a continuation octet. -/
def tailBits (b : UInt8) : Nat := b.toNat % 64

def pairChar (a b : UInt8) : Char := Char.ofNat (a.toNat % 32 * 64 + tailBits b)

def tripleChar (a b c : UInt8) : Char :=
  Char.ofNat ((a.toNat % 16 * 64 + tailBits b) * 64 + tailBits c)

def quadChar (a b c d : UInt8) : Char :=
  Char.ofNat (((a.toNat % 8 * 64 + tailBits b) * 64 + tailBits c) * 64 + tailBits d)

/-- The pieces of a text after those already read, which `done` holds with the last one first. -/
def piecesAfter (done : List Piece) : Octets → List Piece
  | [] => done.reverse
  | [a] => ((if a < 0x80 then .char (Char.ofNat a.toNat) else .stray a) :: done).reverse
  | a :: b :: afterB =>
    if a < 0x80 then piecesAfter (.char (Char.ofNat a.toNat) :: done) (b :: afterB)
    else if isPair a b then piecesAfter (.char (pairChar a b) :: done) afterB
    else match afterB with
      | c :: afterC =>
        if isTriple a b c then piecesAfter (.char (tripleChar a b c) :: done) afterC
        else match afterC with
          | d :: afterD =>
            if isQuad a b c d then piecesAfter (.char (quadChar a b c d) :: done) afterD
            else piecesAfter (.stray a :: done) (b :: c :: d :: afterD)
          | [] => piecesAfter (.stray a :: done) [b, c]
      | [] => piecesAfter (.stray a :: done) [b]

/-- The pieces of a text, from the left. -/
def pieces (text : Octets) : List Piece := piecesAfter [] text

namespace Piece

def isChar : Piece → Bool
  | .char _ => true
  | .stray _ => false

/-- The character of a piece, the replacement character for a stray octet. -/
def toChar : Piece → Char
  | .char c => c
  | .stray _ => '\ufffd'

/-- The number of octets of a piece. -/
def size : Piece → Nat
  | .char c => c.utf8Size
  | .stray _ => 1

end Piece

/-- The text is UTF-8. -/
def isUtf8 (text : Octets) : Bool := text.pieces.all Piece.isChar

/-- The text as characters, each stray octet as a replacement character. -/
def chars (text : Octets) : List Char := text.pieces.map Piece.toChar

/-- The text as a string, each stray octet as a replacement character. -/
def toString (text : Octets) : String := String.ofList text.chars

/-- The characters these octets encode, if they are UTF-8. -/
def chars? (text : Octets) : Option (List Char) :=
  let found := text.pieces
  if found.all Piece.isChar then some (found.map Piece.toChar) else none

/-- The string these octets encode. -/
def toString? (text : Octets) : Option String := text.chars?.map String.ofList

/-- The number of octets before the first stray one; the whole length if there is none. -/
def strayOffset (text : Octets) : Nat :=
  (text.pieces.takeWhile Piece.isChar).foldr (fun p n => p.size + n) 0

/-- Characters of the pieces, with one replacement character for each run of stray octets. -/
def mendPieces : List Piece → List Char
  | [] => []
  | .char c :: rest => c :: mendPieces rest
  | .stray _ :: .stray b :: rest => mendPieces (.stray b :: rest)
  | .stray _ :: rest => '\ufffd' :: mendPieces rest

/-- The text as a string, each run of stray octets as one replacement character. -/
def mend (text : Octets) : String := String.ofList (mendPieces text.pieces)

end Octets

end BitSchema
