import BitSchema.Source.Phrase

/-!
# Parsing

From the octets of a source to its declarations.  A source is at most `maxLength` octets long and
has to be UTF-8; then it is split into tokens, derived from the grammar, and read.
-/

namespace BitSchema.Source

/-- Why a source has no declarations. -/
inductive ParseError where
  | tooLong (file : String) (length : Nat)
  | notUtf8 (file : String) (offset : Nat)
  | unexpectedEnd (span : Span)
  | unexpectedToken (span : Span) (text : String) (expected : List Pattern)
  | unexpectedText (span : Span) (rest : List Char)
  | literal (fault : LiteralFault)
  deriving Repr

/-- The longest source, in octets. -/
def maxLength : Nat := Nat.pow 2 24

namespace ParseError

def code : ParseError → Nat
  | tooLong .. => 1000
  | notUtf8 .. => 1001
  | unexpectedEnd .. => 1002
  | unexpectedToken .. => 1003
  | unexpectedText .. => 1004
  | literal (.wideInt ..) => 1005
  | literal (.badEscape ..) => 1006

def span : ParseError → Span
  | tooLong file _ => ⟨file, 0, 0, 1, 1⟩
  | notUtf8 file offset => ⟨file, offset, 1, 0, 0⟩
  | unexpectedEnd span => span
  | unexpectedToken span _ _ => span
  | unexpectedText span _ => span
  | literal (.wideInt span _) => span
  | literal (.badEscape span) => span

/-- The start of a text that cannot be split into tokens, as messages show it. -/
def excerpt (rest : List Char) : String :=
  if rest.length ≤ 16 then String.ofList rest else String.ofList (rest.take 16) ++ "..."

def message : ParseError → String
  | tooLong _ length =>
    s!"source file size ({length} bytes) exceeds maximum ({maxLength} bytes)"
  | notUtf8 .. => "source file contains invalid UTF-8"
  | unexpectedEnd _ => "unexpected end of file"
  | unexpectedToken _ text expected =>
    "unexpected token " ++ Quoted.quoteString text ++
      if expected.isEmpty then "" else " (expected " ++ Pattern.renderRest expected ++ ")"
  | unexpectedText _ rest => "lexer: invalid input text " ++ Quoted.quoteString (excerpt rest)
  | literal (.wideInt _ text) => s!"integer literal {text} does not fit in 64 bits"
  | literal (.badEscape _) => "invalid escape sequence in string literal"

end ParseError

/-- The error for a mismatch at one of the tokens. -/
def mismatchError (tokens : Array Token) (m : Mismatch) : ParseError :=
  match tokens[m.place]? with
  | some t =>
    if t.kind = .eof then .unexpectedEnd t.span else .unexpectedToken t.span t.text m.expected
  | none => .unexpectedEnd .none

/-- The derivation of a source. -/
def derive (file : String) (source : List Char) : Except ParseError Derivation := do
  let tokens ← (Token.tokens file source).mapError fun stuck =>
    .unexpectedText { stuck.position.span file [] with length := 1 } stuck.rest
  (Derivation.ofTokens .schema tokens.toArray).mapError (mismatchError tokens.toArray)

/-- The declarations that a derivation of a whole source stands for. -/
def Schema.ofDerivation (span : Span) (d : Derivation) : Except LiteralFault Schema := do
  match ← Phrase.ofDerivation d with
  | .items items => return ⟨span, items⟩
  | _ => return ⟨span, []⟩

/-- The declarations of a source file. -/
def Schema.parse (file : String) (source : ByteArray) : Except ParseError Schema := do
  if maxLength < source.size then throw (.tooLong file source.size)
  let octets : Octets := source.toList
  match octets.chars? with
  | none => throw (.notUtf8 file octets.strayOffset)
  | some chars =>
    let derivation ← derive file chars
    (Schema.ofDerivation ⟨file, 0, source.size, 1, 1⟩ derivation).mapError .literal

end BitSchema.Source
