import BitSchema.Toml.Cursor

/-!
# Strings of a document

Four kinds: with or without escapes, on one line or on several.  A string on several lines starts
after the newline that follows its opening quotes, and may end with up to two quotes of its own.  A
string is first read up to its closing quotes, and then its escapes are undone.
-/

namespace BitSchema.Toml

open Parsing

/-! ## Escapes -/

/-- The character that digits give. -/
def charNumbered (digits : List Char) : Except Cause Char :=
  match readDigits? 16 digits with
  | some n => if n.isValidChar then .ok (Char.ofNat n) else .error (.noSuchChar (.ofList digits))
  | none => .error (.noSuchChar (.ofList digits))

/-- A text with its escapes undone. -/
def unescape : List Char → Except Cause (List Char)
  | [] => .ok []
  | [c] => if c = '\\' then .error (.blankEscape ' ') else .ok [c]
  | c :: d :: rest =>
    if c ≠ '\\' then do return c :: (← unescape (d :: rest))
    else match letterEscapes.find? (·.1 == d) with
      | some (_, meaning) => do return meaning :: (← unescape rest)
      | none =>
        match d, rest with
        | 'e', after => do return '\x1b' :: (← unescape after)
        | 'x', a :: b :: after => do return (← charNumbered [a, b]) :: (← unescape after)
        | 'u', a :: b :: c :: d :: after => do
          return (← charNumbered [a, b, c, d]) :: (← unescape after)
        | 'U', a :: b :: c :: d :: e :: f :: g :: h :: after => do
          return (← charNumbered [a, b, c, d, e, f, g, h]) :: (← unescape after)
        | _, _ => .error (.blankEscape d)

/-- A text without the newline it starts with. -/
def dropNewline : List Char → List Char
  | '\n' :: rest => rest
  | '\r' :: '\n' :: rest => rest
  | cs => cs

def joinSteps : Nat → List Char → List Char
  | 0, cs => cs
  | _, [] => []
  | fuel + 1, c :: rest =>
    let blanks := rest.takeWhile fun c => isBlankChar c || isNewline c
    if c ≠ '\\' then c :: joinSteps fuel rest
    else if rest.head? = some '\\' then '\\' :: '\\' :: joinSteps fuel (rest.drop 1)
    else if blanks.contains '\n' then joinSteps fuel (rest.drop blanks.length)
    else c :: joinSteps fuel rest

/-- A text without the blanks and newlines after a backslash at the end of a line. -/
def joinLines (cs : List Char) : List Char := joinSteps cs.length cs

/-! ## Reading up to the closing quotes -/

def isHexDigit (c : Char) : Bool := (hexValue? c).isSome

/-- Read digits of an escape. -/
def readEscapeDigits (escape : NumberEscape) : Nat → Parsing Unit
  | 0 => pure ()
  | n + 1 => do
    let c? ← next
    if c?.any isHexDigit then readEscapeDigits escape n
    else failOn c? (.notHexadecimal escape (← takenText))

/-- Read an escape after its backslash.  A blank is taken here, and refused later unless it ends a
line. -/
def readEscape : Parsing Unit := do
  match ← next with
  | none => failBefore (.badEscape none)
  | some 'x' => readEscapeDigits .two 2
  | some 'u' => readEscapeDigits .four 4
  | some 'U' => readEscapeDigits .eight 8
  | some c =>
    if c = 'e' ∨ isBlankChar c ∨ letterEscapes.any (·.1 == c) then pure ()
    else failHere (.badEscape (some c))

/-- What was read, without the quotes that close it. -/
def takenBefore (quotes : Nat) : Parsing (List Char) :=
  return ((← get).cursor.taken.drop quotes).reverse

/-- The rest of a string on one line. -/
def readLine (quote : Char) (escapes : Bool) : Nat → Parsing (List Char)
  | 0 => failHere .nested
  | fuel + 1 => do
    match ← next with
    | none => failOn none (.openString (if escapes then .basic else .literal))
    | some c =>
      if isNewline c then failBefore .newlineInString
      else if c = quote then takenBefore 1
      else do
        if c = '\\' ∧ escapes then readEscape
        readLine quote escapes fuel

/-- Six quotes in a row, of which the first is not escaped. -/
def endsInFive (quote : Char) (escapes : Bool) (taken : List Char) : Bool :=
  taken.take 5 == List.replicate 5 quote && !(escapes && taken[5]? == some '\\')

/-- The rest of a string on several lines.  Three quotes close it unless a fourth follows. -/
def readBlock (quote : Char) (escapes : Bool) : Nat → Parsing (List Char)
  | 0 => failHere .nested
  | fuel + 1 => do
    let kind := if escapes then Quotes.basicBlock else .literalBlock
    match ← next with
    | none => failOn none (.openString kind)
    | some c =>
      if c = quote then
        let afterOne ← get
        if !(← accept quote) || !(← accept quote) then
          set afterOne
          readBlock quote escapes fuel
        else if (← peek) != some quote then takenBefore 3
        else if endsInFive quote escapes (← get).cursor.taken then failHere (.sixQuotes kind)
        else
          set afterOne
          readBlock quote escapes fuel
      else do
        if c = '\\' ∧ escapes then
          if (← peek).any isNewline then let _ ← next else readEscape
        readBlock quote escapes fuel

/-! ## Strings -/

/-- Undo the escapes of a text that ends here. -/
def undoEscapes (cs : List Char) : Parsing String :=
  match unescape cs with
  | .ok cs => return .ofList cs
  | .error cause => failHere cause

/-- A string on one line after its opening quote, which a key can be too. -/
def readLineString (quote : Char) : Parsing String := do
  restart
  let cs ← readLine quote (quote == '"') (← steps)
  if quote == '"' then undoEscapes cs else return .ofList cs

/-- A string of any kind after the first of its opening quotes. -/
def readString (quote : Char) : Parsing String := do
  if !(← accept quote) then readLineString quote
  else if !(← accept quote) then return ""
  else
    restart
    let cs ← readBlock quote (quote == '"') (← steps)
    if quote == '"' then undoEscapes (joinLines (dropNewline cs))
    else return .ofList (dropNewline cs)

end BitSchema.Toml
