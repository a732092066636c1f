import BitSchema.Toml.Draft

/-!
# Reading characters

A document is read character by character.  What is no character, or one that no document may hold,
is a fault as soon as it would be read, and not before.
-/

namespace BitSchema.Toml

/-- A character of a document, or what is wrong with it. -/
inductive Glyph where
  | char (c : Char)
  | fault (cause : Cause)

def isBlankChar (c : Char) : Bool := c == ' ' || c == '\t'

def isNewline (c : Char) : Bool := c == '\n' || c == '\r'

/-- A character that no document may hold. -/
def isControl (c : Char) : Bool :=
  (c.toNat < 0x20 && !isBlankChar c && !isNewline c) || c.toNat == 0x7F

/-- The glyph of a piece of text.  A return stands only before a newline. -/
def Glyph.ofPiece (piece : Octets.Piece) (next? : Option Octets.Piece) : Glyph :=
  match piece with
  | .stray octet => .fault (.strayOctet octet)
  | .char c =>
    let isLone := c == '\r' && (next?.map Octets.Piece.toChar) != some '\n'
    if isControl c || isLone then .fault (.controlChar c) else .char c

def glyphs (text : Octets) : List Glyph :=
  let pieces := text.pieces
  List.zipWith Glyph.ofPiece pieces ((pieces.drop 1).map some ++ [none])

/-- A place in a document. -/
structure Cursor where
  rest : List Glyph
  line : Nat := 1
  afterNewline : Bool := false
  /-- The characters of what is being read, the last one first. -/
  taken : List Char := []

/-- The place after a character. -/
def Cursor.after (cursor : Cursor) (c : Char) (rest : List Glyph) : Cursor where
  rest := rest
  line := if c = '\n' then cursor.line + 1 else cursor.line
  afterNewline := c = '\n'
  taken := c :: cursor.taken

/-- The place after the characters of a kind that come next, which are the first of `rest`. -/
def Cursor.past (accepts : Char → Bool) (cursor : Cursor) : (rest : List Glyph) → Cursor
  | .char c :: rest => if accepts c then past accepts (cursor.after c rest) rest else cursor
  | _ => cursor

/-- The place after the blanks, newlines and comments that come next. -/
def Cursor.pastFiller (inComment : Bool) (cursor : Cursor) : (rest : List Glyph) → Cursor
  | .char c :: rest =>
    if inComment || isBlankChar c || isNewline c || c == '#' then
      pastFiller (if inComment then !isNewline c else c == '#') (cursor.after c rest) rest
    else cursor
  | _ => cursor

/-- What is read, and what it has come to so far. -/
structure State where
  cursor : Cursor
  draft : Draft := {}
  /-- More steps than there are characters. -/
  bound : Nat

/-- The start of a document. -/
def State.ofGlyphs (glyphs : List Glyph) : State where
  cursor := { rest := glyphs }
  bound := glyphs.length + 1

abbrev Parsing (α : Type) : Type := StateT State (Except Fault) α

namespace Parsing

def failAt {α : Type} (line : Nat) (cause : Cause) : Parsing α := do
  throw ⟨some line, (← get).draft.lastKey, cause⟩

def line : Parsing Nat := return (← get).cursor.line

def failHere {α : Type} (cause : Cause) : Parsing α := do failAt (← line) cause

/-- Fail in the line before. -/
def failBefore {α : Type} (cause : Cause) : Parsing α := do failAt ((← line) - 1) cause

/-- Fail because of a character that was read.  The end of a document is in its last line, also if
that ends with a newline. -/
def failOn {α : Type} (c? : Option Char) (cause : Cause) : Parsing α := do
  if c?.isNone && (← get).cursor.afterNewline then failBefore cause else failHere cause

/-- Read a character; `none` at the end of the document. -/
def next : Parsing (Option Char) := do
  let s ← get
  match s.cursor.rest with
  | [] => return none
  | .fault cause :: _ => failHere cause
  | .char c :: rest =>
    set { s with cursor := s.cursor.after c rest }
    return some c

/-- The character that comes next. -/
def peek : Parsing (Option Char) := do
  let s ← get
  let c? ← next
  set s
  return c?

/-- Read a character if it is the one that comes next. -/
def accept (c : Char) : Parsing Bool := do
  if (← peek) == some c then
    let _ ← next
    return true
  return false

/-- Start to read something. -/
def restart : Parsing Unit := modify fun s => { s with cursor := { s.cursor with taken := [] } }

def takenChars : Parsing (List Char) := return (← get).cursor.taken.reverse

def takenText : Parsing String := return String.ofList (← takenChars)

/-- More steps than there are characters. -/
def steps : Parsing Nat := return (← get).bound

/-- Move on to another place.  What cannot be read there is a fault. -/
def moveOn (move : Cursor → Cursor) : Parsing Unit := do
  modify fun s => { s with cursor := move s.cursor }
  let _ ← peek

/-- Read on while characters are of a kind. -/
def skip (accepts : Char → Bool) : Parsing Unit :=
  moveOn fun cursor => cursor.past accepts cursor.rest

def skipBlanks : Parsing Unit := skip isBlankChar

def skipComment : Parsing Unit := skip fun c => !isNewline c

/-- Skip blanks, newlines and comments. -/
def skipFiller : Parsing Unit := moveOn fun cursor => cursor.pastFiller false cursor.rest

/-- Change the document under construction. -/
def build (change : Draft → Except Fault Draft) : Parsing Unit := do
  let s ← get
  let draft ← change s.draft
  set { s with draft }

def draft : Parsing Draft := return (← get).draft

end Parsing

end BitSchema.Toml
