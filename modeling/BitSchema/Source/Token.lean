import BitSchema.Source.Span

/-!
# Tokens

A schema source is a sequence of lexemes.  At each place the rules are tried in a fixed order, and
the first that matches gives the lexeme; `Rules.order` is that order.  Blanks and ordinary comments
are lexemes too, and `tokens` drops them; documentation comments stay.

Each rule is a function from the rest of the source to the number of characters it takes, and zero
means that it does not match.
-/

namespace BitSchema

/-- The kinds of lexeme. -/
inductive Token.Kind where
  | doc
  | comment
  | string
  | int
  | ident
  | punct
  | blank
  | eof
  deriving DecidableEq, Repr, Inhabited

/-- A lexeme and its place. -/
structure Token where
  kind : Token.Kind
  text : String
  span : Span
  deriving DecidableEq, Repr, Inhabited

namespace Token

/-! ## Character classes -/

def isDigit (c : Char) : Bool := '0' ≤ c && c ≤ '9'

def isHexDigit (c : Char) : Bool :=
  isDigit c || ('a' ≤ c && c ≤ 'f') || ('A' ≤ c && c ≤ 'F')

def isIdentStart (c : Char) : Bool :=
  ('A' ≤ c && c ≤ 'Z') || ('a' ≤ c && c ≤ 'z') || c == '_'

def isIdentRest (c : Char) : Bool := isIdentStart c || isDigit c

def isPunct (c : Char) : Bool := ".;:,\x7b\x7d()[]".toList.contains c

def isBlank (c : Char) : Bool := c == ' ' || c == '\t' || c == '\r' || c == '\n'

/-! ## Lexical rules -/

/-- The number of leading characters of a class. -/
def run (p : Char → Bool) (cs : List Char) : Nat := (cs.takeWhile p).length

/-- `///` and the rest of the line. -/
def docLength : List Char → Nat
  | '/' :: '/' :: '/' :: cs => 3 + run (· != '\n') cs
  | _ => 0

/-- What a block comment takes, up to and with the first `*/`, if it has taken `n` already. -/
def blockLength (n : Nat) : List Char → Option Nat
  | [] => none
  | c :: cs =>
    if c = '*' ∧ cs.head? = some '/' then some (n + 2) else blockLength (n + 1) cs

/-- A line comment, or a block comment that is closed. -/
def commentLength : List Char → Nat
  | '/' :: '/' :: cs => 2 + run (· != '\n') cs
  | '/' :: '*' :: cs => (blockLength 2 cs).getD 0
  | _ => 0

/-- What a string takes, up to and with the closing quote, if it has taken `n` already.  A backslash
takes the next character with it; a line break is taken by neither. -/
def stringRest (n : Nat) : List Char → Option Nat
  | [] => none
  | [c] => if c = '"' then some (n + 1) else none
  | c :: d :: cs =>
    if c = '"' then some (n + 1)
    else if c = '\n' then none
    else if c = '\\' then if d = '\n' then none else stringRest (n + 2) cs
    else stringRest (n + 1) (d :: cs)

def stringLength : List Char → Nat
  | '"' :: cs => (stringRest 1 cs).getD 0
  | _ => 0

/-- `0x` with digits of base sixteen, or decimal digits. -/
def intLength (cs : List Char) : Nat :=
  match cs with
  | '0' :: x :: rest =>
    if (x = 'x' ∨ x = 'X') ∧ 0 < run isHexDigit rest then 2 + run isHexDigit rest
    else run isDigit cs
  | _ => run isDigit cs

def identLength : List Char → Nat
  | c :: cs => if isIdentStart c then 1 + run isIdentRest cs else 0
  | [] => 0

def punctLength : List Char → Nat
  | c :: _ => if isPunct c then 1 else 0
  | [] => 0

/-- The lexical rules in the order in which they are tried. -/
def rules : List (Kind × (List Char → Nat)) :=
  [(.doc, docLength), (.comment, commentLength), (.string, stringLength), (.int, intLength),
    (.ident, identLength), (.punct, punctLength), (.blank, run isBlank)]

/-- The first rule that matches here, and what it takes. -/
def lexeme? (cs : List Char) : Option (Kind × Nat) :=
  rules.findSome? fun rule =>
    let n := rule.2 cs
    if n = 0 then none else some (rule.1, n)

/-! ## Positions -/

/-- A place in a source: offset in octets, line, and column in characters. -/
structure Position where
  offset : Nat := 0
  line : Nat := 1
  column : Nat := 1
  deriving DecidableEq, Repr, Inhabited

/-- The place after a character. -/
def Position.step (p : Position) (c : Char) : Position :=
  if c = '\n' then ⟨p.offset + c.utf8Size, p.line + 1, 1⟩
  else ⟨p.offset + c.utf8Size, p.line, p.column + 1⟩

/-- The place after some characters. -/
def Position.advance (p : Position) (cs : List Char) : Position := cs.foldl step p

/-- The span of characters that start at a place. -/
def Position.span (p : Position) (file : String) (cs : List Char) : Span :=
  ⟨file, p.offset, (p.advance cs).offset - p.offset, p.line, p.column⟩

/-! ## Scanning -/

/-- No rule matches at this place; `rest` is the source from there. -/
structure Stuck where
  position : Position
  rest : List Char
  deriving Repr

/-- The lexemes of a source from a place on, and the end of the source as the last one; `done` holds
those before that place, the last one first.  Each lexeme takes at least one character, so `fuel`
characters are enough for a source of that length. -/
def scanFrom (file : String) :
    Nat → List Token → Position → List Char → Except Stuck (List Token)
  | _, done, p, [] => .ok (⟨.eof, "", p.span file []⟩ :: done).reverse
  | 0, _, p, cs => .error ⟨p, cs⟩
  | fuel + 1, done, p, cs =>
    match lexeme? cs with
    | none => .error ⟨p, cs⟩
    | some (kind, n) =>
      let taken := cs.take n
      let token : Token := ⟨kind, String.ofList taken, p.span file taken⟩
      scanFrom file fuel (token :: done) (p.advance taken) (cs.drop n)

/-- All lexemes of a source. -/
def scan (file : String) (source : List Char) : Except Stuck (List Token) :=
  scanFrom file source.length [] {} source

/-- The lexeme counts for the grammar. -/
def isKept (t : Token) : Bool := t.kind != .blank && t.kind != .comment

/-- The tokens of a source: its lexemes without blanks and ordinary comments. -/
def tokens (file : String) (source : List Char) : Except Stuck (List Token) :=
  (scan file source).map (·.filter isKept)

end Token

end BitSchema
