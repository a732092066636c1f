import BitSchema.Text.Quoted

/-!
# Log levels

How much a record matters.  A level is written as a name, with an offset if it lies between two
names or beyond them.
-/

namespace BitSchema.Log

/-- Levels count in steps of four between the named ones. -/
structure Level where
  value : Int
  deriving DecidableEq, Repr, Inhabited

namespace Level

def debug : Level := ⟨-4⟩

def info : Level := ⟨0⟩

def warn : Level := ⟨4⟩

def error : Level := ⟨8⟩

/-- A name and how far the level is above it. -/
def offsetText (name : String) (offset : Int) : String :=
  if offset = 0 then name
  else if 0 < offset then name ++ "+" ++ toString offset
  else name ++ toString offset

/-- The highest name that is not above the level; below all of them, the lowest. -/
def text (l : Level) : String :=
  if l.value < 0 then offsetText "DEBUG" (l.value + 4)
  else if l.value < 4 then offsetText "INFO" l.value
  else if l.value < 8 then offsetText "WARN" (l.value - 4)
  else offsetText "ERROR" (l.value - 8)

end Level

/-! ## Reading levels -/

/-- Why a text is no level. -/
inductive LevelError where
  | unknownName (text : String)
  | badOffset (text offset : String) (outOfRange : Bool)
  deriving DecidableEq, Repr

def LevelError.message : LevelError → String
  | unknownName text => "slog: level string " ++ Quoted.quoteString text ++ ": unknown name"
  | badOffset text offset outOfRange =>
    "slog: level string " ++ Quoted.quoteString text ++ ": strconv.Atoi: parsing " ++
      Quoted.quoteString offset ++
      if outOfRange then ": value out of range" else ": invalid syntax"

namespace Level

/-- The letter that a letter of a name stands for; the dotless i is an i. -/
def upper (c : Char) : Char := if c.toNat = 0x131 then 'I' else c.toUpper

def ofName? (name : String) : Option Level :=
  match String.ofList (name.toList.map upper) with
  | "DEBUG" => some debug
  | "INFO" => some info
  | "WARN" => some warn
  | "ERROR" => some error
  | _ => none

/-- The number of digits after a sign, `none` if they are no digits. -/
def signedNumber? : List Char → Option Int
  | '-' :: digits =>
    if digits.isEmpty then none else (readDigits? 10 digits).map fun n => -(n : Int)
  | '+' :: digits => if digits.isEmpty then none else (readDigits? 10 digits).map Int.ofNat
  | _ => none

/-- An offset: a sign and digits, in the range of a machine word. -/
def parseOffset (text : String) (offset : List Char) : Except LevelError Int :=
  match signedNumber? offset with
  | none => .error (.badOffset text (String.ofList offset) false)
  | some n =>
    if -(Nat.pow 2 63 : Int) ≤ n ∧ n < Nat.pow 2 63 then .ok n
    else .error (.badOffset text (String.ofList offset) true)

/-- A level from a name and an offset.  The sum wraps like a machine word. -/
def parse (text : String) : Except LevelError Level := do
  let isSign := fun c => c == '+' || c == '-'
  let name := text.toList.takeWhile fun c => !isSign c
  let rest := text.toList.drop name.length
  let offset ← if rest.isEmpty then .ok 0 else parseOffset text rest
  match ofName? (String.ofList name) with
  | none => throw (.unknownName text)
  | some level => return ⟨(Int64.ofInt (level.value + offset)).toInt⟩

end Level

end BitSchema.Log
