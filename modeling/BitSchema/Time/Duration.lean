import BitSchema.Number.Binary
import BitSchema.Text.Digits
import BitSchema.Text.Octets

/-!
# Durations

A duration is a number of nanoseconds.  It is written as a sign and a list of decimal numbers, each
with a unit: `1h30m`, `-1.5s`.  A fraction of a unit is computed in floating point and cut to whole
nanoseconds.
-/

namespace BitSchema.Duration

/-- Why a text is no duration. -/
inductive Fault where
  | invalid
  | missingUnit
  | unknownUnit (unit : String)
  deriving DecidableEq, Repr

/-- A character in quotes: what is not printable ASCII is written octet by octet. -/
def quoteChar (c : Char) : String :=
  if c.toNat < 0x20 ∨ 0x80 ≤ c.toNat then
    String.join ((Octets.ofString c.toString).map fun b => "\\x" ++ toHex 2 b.toNat)
  else if c = '"' ∨ c = '\\' then "\\" ++ c.toString
  else c.toString

def quote (s : String) : String := "\"" ++ String.join (s.toList.map quoteChar) ++ "\""

def Fault.message (text : String) : Fault → String
  | invalid => "time: invalid duration " ++ quote text
  | missingUnit => "time: missing unit in duration " ++ quote text
  | unknownUnit unit => "time: unknown unit " ++ quote unit ++ " in duration " ++ quote text

/-- The units and their nanoseconds.  The micro sign has two spellings. -/
def units : List (String × Nat) :=
  [("ns", 1), ("us", 1000), ("µs", 1000), ("μs", 1000), ("ms", 1000000),
    ("s", 1000000000), ("m", 60000000000), ("h", 3600000000000)]

/-- The largest magnitude. -/
def limit : Nat := Nat.pow 2 63

/-- The digits of a fraction that fit in a word, and the power of ten they are parts of. -/
def fractionParts : Nat → Nat → List Char → Nat × Nat
  | n, scale, [] => (n, scale)
  | n, scale, c :: cs =>
    let next := n * 10 + (hexValue? c).getD 0
    if (limit - 1) / 10 < n ∨ limit < next then (n, scale) else fractionParts next (scale * 10) cs

/-- The double nearest to a quotient. -/
def nearestQuotient (a b : Nat) : Nat :=
  let shift := bitLength b + 64
  let wide := a * Nat.pow 2 shift
  let sticky := if wide % b = 0 then 0 else 1
  FloatFormat.double.round false (2 * (wide / b) + sticky) (-(shift + 1 : Nat))

/-- The whole part of a product of two doubles, rounded. -/
def productWhole (a b : Nat) : Nat :=
  match FloatFormat.double.decode a, FloatFormat.double.decode b with
  | .finite _ m₁ q₁, .finite _ m₂ q₂ =>
    match FloatFormat.double.decode (FloatFormat.double.round false (m₁ * m₂) (q₁ + q₂)) with
    | .finite _ m q => if 0 ≤ q then m * Nat.pow 2 q.toNat else m / Nat.pow 2 (-q).toNat
    | _ => 0
  | _, _ => 0

/-- The nanoseconds of a fraction of a unit. -/
def fractionOf (unit : Nat) (digits : List Char) : Nat :=
  let (n, scale) := fractionParts 0 1 digits
  if n = 0 then 0
  else productWhole (FloatFormat.double.round false n 0) (nearestQuotient unit scale)

def isDigit (c : Char) : Bool := '0' ≤ c && c ≤ '9'

/-- A number with its unit. -/
structure Term where
  whole : List Char
  fraction : List Char
  unit : List Char

/-- The first term of a text, and the rest of it. -/
def firstTerm (cs : List Char) : Term × List Char :=
  let whole := cs.takeWhile isDigit
  let rest := cs.drop whole.length
  let (fraction, rest) :=
    match rest with
    | '.' :: after => (after.takeWhile isDigit, after.dropWhile isDigit)
    | _ => ([], rest)
  let unit := rest.takeWhile fun c => !(isDigit c || c == '.')
  (⟨whole, fraction, unit⟩, rest.drop unit.length)

/-- The nanoseconds of a term. -/
def Term.value (t : Term) : Except Fault Nat := do
  let whole := (readDigits? 10 t.whole).getD 0
  if t.whole.isEmpty && t.fraction.isEmpty then throw .invalid
  if limit < whole then throw .invalid
  if t.unit.isEmpty then throw .missingUnit
  match units.find? (·.1.toList == t.unit) with
  | none => throw (.unknownUnit (String.ofList t.unit))
  | some (_, unit) =>
    if limit / unit < whole then throw .invalid
    let value := whole * unit + fractionOf unit t.fraction
    if limit < value then throw .invalid
    return value

/-- The sum of the terms of a text.  Each term takes at least one character. -/
def sumTerms : Nat → Nat → List Char → Except Fault Nat
  | 0, sum, _ => .ok sum
  | fuel + 1, sum, cs =>
    if cs.isEmpty then .ok sum
    else do
      let (term, rest) := firstTerm cs
      let sum := sum + (← term.value)
      if limit < sum then throw .invalid
      sumTerms fuel sum rest

/-- A text without its sign, and whether that is a minus. -/
def splitSign : List Char → Bool × List Char
  | '-' :: cs => (true, cs)
  | '+' :: cs => (false, cs)
  | cs => (false, cs)

/-- The nanoseconds that a text means.  A zero needs no unit. -/
def parse (text : String) : Except Fault Int := do
  let (negative, cs) := splitSign text.toList
  if cs = ['0'] then return 0
  if cs.isEmpty then throw .invalid
  let sum ← sumTerms cs.length 0 cs
  if negative then return -(sum : Int)
  if limit ≤ sum then throw .invalid
  return sum

end BitSchema.Duration
