import BitSchema.Toml.Scalar

/-!
# Reading documents

Keys, values and headers.  What is read goes into the document at once, so that of two faults the
one that is written first is found.
-/

namespace BitSchema.Toml

open Parsing

def isQuote (c : Char) : Bool := c == '"' || c == '\x27'

/-! ## Keys -/

/-- A part of a key: a string, or a run of plain characters, which may be empty. -/
def readPart : Parsing String := do
  restart
  match ← peek with
  | some c =>
    if isQuote c then
      let _ ← next
      readLineString c
    else
      skip isBareChar
      takenText
  | none => return ""

/-- Note the line of a key at its first part. -/
def noteLine (isFirst : Bool) : Parsing Unit := do
  if isFirst then
    let line ← line
    build fun d => .ok { d with keyLine := line }

/-- The parts of a key up to the sign after it; those that are done come last first. -/
def readKeyParts : Nat → Key → Parsing Key
  | 0, done => return done.reverse
  | fuel + 1, done => do
    skipBlanks
    match ← peek with
    | none => failHere (.missingPart '=')
    | some '=' => failHere (.missingPart '=')
    | some '.' => failHere (.missingPart '.')
    | some _ =>
      let part ← readPart
      noteLine done.isEmpty
      skipBlanks
      match ← next with
      | none => failOn none .endOfKey
      | some '.' => readKeyParts fuel (part :: done)
      | some '=' => return (part :: done).reverse
      | some '\n' => failBefore (.afterKey '\n')
      | some c => failHere (.afterKey c)

/-- A key, and the line it starts in. -/
def readKey : Parsing (Key × Nat) := do
  skipBlanks
  match ← peek with
  | none => failHere .blankKey
  | some '=' => failHere .blankKey
  | some '.' => failHere .leadingDot
  | some _ =>
    let start ← line
    return (← readKeyParts (← steps) [], start)

/-- The parts of a header up to the bracket after it. -/
def readHeaderParts : Nat → Key → Parsing Key
  | 0, done => return done.reverse
  | fuel + 1, done => do
    skipBlanks
    match ← peek with
    | none => failHere .emptyTableName
    | some ']' => failHere .emptyTableName
    | some '.' => failHere .tableDot
    | some _ =>
      let part ← readPart
      noteLine done.isEmpty
      skipBlanks
      match ← next with
      | some '.' => readHeaderParts fuel (part :: done)
      | some ']' => return (part :: done).reverse
      | c? => failOn c? (.afterTableName c?)

/-! ## Values -/

/-- Go to the key that a value is read for, making the tables that its other parts go through. -/
def enterKey (key : Key) : Parsing Unit := do
  build fun d => .ok { d with current := key.getLast?.getD "" }
  build (·.openParts key.dropLast)
  build fun d => .ok (d.addKey (d.context ++ [d.current]))

/-- Define the key that a value was read for. -/
def defineCurrent (value : Value) (line : Nat) : Parsing Unit := do
  build fun d => d.define d.current value
  build fun d => .ok (d.note d.current value.isArray line)

/-- Put a value into the table of its own that an inline table is. -/
def setDotted (value : Value) (m : Members) : Key → Except Cause Members
  | [] => .ok m
  | [last] => .ok (m.set last value)
  | part :: rest => do
    match m.get? part with
    | none => return m.set part (.table (← setDotted value [] rest))
    | some (.table inner) => return m.set part (.table (← setDotted value inner rest))
    | some _ => .error (.notTable part)

mutual
/-- A value, and the line it is noted in: that of its opening bracket, else that of its end. -/
def readValue (inArray : Bool) : Nat → Parsing (Value × Nat)
  | 0 => failHere .nested
  | fuel + 1 => do
    skipBlanks
    restart
    let c? ← next
    let start ← line
    let value ← match c? with
      | none => failOn none .noValue
      | some '[' =>
        build fun d => .ok (d.note d.current true start)
        return (.array (← readElements fuel []), start)
      | some '\x7b' =>
        let outer ← draft
        let context := outer.context ++ [outer.current]
        build fun d => .ok { d with current := "" }
        build fun d => .ok { d.addImplicit context with context }
        build (if inArray then (·.openElement context) else (·.openTable context))
        let members ← readEntries fuel []
        build fun d => .ok { d with context := outer.context, current := outer.current }
        return (.table members, start)
      | some '"' => pure (Value.string (← readString '"'))
      | some '\x27' => pure (Value.string (← readString '\x27'))
      | some '.' => failHere .bareFraction
      | some '0' => readAfterZero
      | some c =>
        if isDigit c then readNumberOrTime
        else if c = '-' ∨ c = '+' then readSigned
        else if c = 'i' ∨ c = 'n' then readUnboundedWord
        else if isLetter c then readWord 1
        else if c = '\n' then failBefore (.notValue c)
        else failHere (.notValue c)
    return (value, ← line)
/-- The elements of an array; those that are done come last first. -/
def readElements : Nat → List Value → Parsing (List Value)
  | 0, _ => failHere .nested
  | fuel + 1, done => do
    skipFiller
    match ← peek with
    | some ',' => failHere .strayComma
    | some ']' =>
      let _ ← next
      return done.reverse
    | _ =>
      let (value, _) ← readValue true fuel
      skipFiller
      match ← next with
      | some ',' => readElements fuel (value :: done)
      | some ']' => return (value :: done).reverse
      | c? => failOn c? (.afterElement c?)
/-- The entries of an inline table. -/
def readEntries : Nat → Members → Parsing Members
  | 0, _ => failHere .nested
  | fuel + 1, done => do
    skipFiller
    match ← peek with
    | some ',' => failHere .strayComma
    | some '\x7d' =>
      let _ ← next
      return done
    | _ =>
      let context := (← draft).context
      let (key, start) ← readKey
      enterKey key
      let (value, _) ← readValue false fuel
      defineCurrent value start
      let done ← match setDotted value done key with
        | .ok done => pure done
        | .error cause => build (·.fail cause); pure done
      build fun d => .ok { d with context }
      skipFiller
      match ← next with
      | some ',' => readEntries fuel done
      | some '\x7d' => return done
      | c? => failOn c? (.afterEntry c?)
end

/-! ## Statements -/

/-- A header after its first bracket. -/
def readHeader : Parsing Unit := do
  let isElement ← accept '['
  let start ← line
  let key ← readHeaderParts (← steps) []
  if isElement then
    let c? ← next
    if c? ≠ some ']' then failOn c? (.afterArrayName c?)
  build (if isElement then (·.openElement key) else (·.openTable key))
  build fun d => .ok ((d.note "" false start).addKey key)

/-- An entry of the table of the last header. -/
def readEntry : Parsing Unit := do
  let context := (← draft).context
  let (key, _) ← readKey
  enterKey key
  let (value, valueLine) ← readValue false (← steps)
  defineCurrent value valueLine
  build fun d => .ok { d with context, current := "" }

/-- The rest of a line after a header or an entry. -/
def readLineEnd : Parsing Unit := do
  skipBlanks
  match ← next with
  | none => pure ()
  | some '#' => skipComment
  | some c => if isNewline c then pure () else failHere (.afterItem c)

def readStatements : Nat → Parsing Unit
  | 0 => pure ()
  | fuel + 1 => do
    skipFiller
    match ← peek with
    | none => pure ()
    | some c =>
      if c = '[' then
        let _ ← next
        readHeader
      else readEntry
      readLineEnd
      readStatements fuel

end BitSchema.Toml
