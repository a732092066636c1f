/-!
# Binary floating point

Floating-point numbers as the bit patterns that stand for them.  A pattern is taken apart into a
sign, a natural number `m` and a power of two `q` (its value is `m * 2 ^ q`), computed with exactly,
and rounded once to the nearest pattern, ties to the even one.
-/

namespace BitSchema

/-- How a pattern is laid out: the widths of its fraction and of its exponent. -/
structure FloatFormat where
  fraction : Nat
  exponent : Nat
  deriving DecidableEq, Repr

/-- What a pattern stands for. -/
inductive FloatValue where
  | nan
  | infinite (negative : Bool)
  | finite (negative : Bool) (m : Nat) (q : Int)
  deriving DecidableEq, Repr

namespace FloatFormat

/-- Patterns of 64 bits. -/
def double : FloatFormat := ⟨52, 11⟩

/-- Patterns of 32 bits. -/
def single : FloatFormat := ⟨23, 8⟩

/-- The bit of the sign. -/
def signPlace (f : FloatFormat) : Nat := Nat.pow 2 (f.fraction + f.exponent)

/-- The pattern of infinity, and the first magnitude that is no number. -/
def infinity (f : FloatFormat) : Nat := (Nat.pow 2 f.exponent - 1) * Nat.pow 2 f.fraction

/-- The bit that marks a quiet not-a-number. -/
def quietPlace (f : FloatFormat) : Nat := Nat.pow 2 (f.fraction - 1)

/-- The least power of two that a pattern counts in. -/
def minPower (f : FloatFormat) : Int := 2 - Nat.pow 2 (f.exponent - 1) - f.fraction

def signed (f : FloatFormat) (negative : Bool) (magnitude : Nat) : Nat :=
  if negative then f.signPlace + magnitude else magnitude

def isNegative (f : FloatFormat) (bits : Nat) : Bool := bits / f.signPlace % 2 = 1

def magnitude (f : FloatFormat) (bits : Nat) : Nat := bits % f.signPlace

def isNan (f : FloatFormat) (bits : Nat) : Bool := f.infinity < f.magnitude bits

/-- What a pattern stands for.  A zero exponent field means the least power and no hidden bit. -/
def decode (f : FloatFormat) (bits : Nat) : FloatValue :=
  let magnitude := f.magnitude bits
  let field := magnitude / Nat.pow 2 f.fraction
  let rest := magnitude % Nat.pow 2 f.fraction
  if f.infinity < magnitude then .nan
  else if magnitude = f.infinity then .infinite (f.isNegative bits)
  else if field = 0 then .finite (f.isNegative bits) rest f.minPower
  else .finite (f.isNegative bits) (Nat.pow 2 f.fraction + rest) (f.minPower + (field - 1 : Nat))

end FloatFormat

/-- `m` divided by `2 ^ k`, to the nearest whole number, ties to the even one. -/
def roundShift (m k : Nat) : Nat :=
  let whole := m / Nat.pow 2 k
  let rest := m % Nat.pow 2 k
  if Nat.pow 2 k < 2 * rest ∨ (2 * rest = Nat.pow 2 k ∧ k ≠ 0 ∧ whole % 2 = 1) then whole + 1
  else whole

/-- The number of binary digits of `m`. -/
def bitLength (m : Nat) : Nat := if m = 0 then 0 else m.log2 + 1

namespace FloatFormat

/-- The magnitude nearest to `m * 2 ^ q`.  Rounding up to the next power of two carries into the
exponent field by itself. -/
def roundMagnitude (f : FloatFormat) (m : Nat) (q : Int) : Nat :=
  let top := q + bitLength m
  if m = 0 ∨ top < f.minPower then 0
  else if (Nat.pow 2 f.exponent : Int) < top then f.infinity
  else
    let power := max f.minPower (top - (f.fraction + 1))
    let units := if power ≤ q then m * Nat.pow 2 (q - power).toNat
      else roundShift m (power - q).toNat
    min f.infinity ((power - f.minPower).toNat * Nat.pow 2 f.fraction + units)

/-- The pattern nearest to a number. -/
def round (f : FloatFormat) (negative : Bool) (m : Nat) (q : Int) : Nat :=
  f.signed negative (f.roundMagnitude m q)

/-- The pattern nearest to a whole number. -/
def ofInt (f : FloatFormat) (i : Int) : Nat := f.round (i < 0) i.natAbs 0

/-- The same not-a-number, quiet. -/
def quieted (f : FloatFormat) (bits : Nat) : Nat :=
  if bits / f.quietPlace % 2 = 1 then bits else bits + f.quietPlace

/-- The not-a-number that an operation without a result gives. -/
def indefinite (f : FloatFormat) : Nat := f.signed true (f.infinity + f.quietPlace)

/-- The pattern of another format for the same value, rounded.  Of a not-a-number the leading part
of the fraction is kept. -/
def convert (source target : FloatFormat) (bits : Nat) : Nat :=
  match source.decode bits with
  | .finite negative m q => target.round negative m q
  | .infinite negative => target.signed negative target.infinity
  | .nan =>
    let rest := source.quieted bits % Nat.pow 2 source.fraction
    let kept := if source.fraction ≤ target.fraction
      then rest * Nat.pow 2 (target.fraction - source.fraction)
      else rest / Nat.pow 2 (source.fraction - target.fraction)
    target.signed (source.isNegative bits) (target.infinity + kept)

/-- The exact sum of two finite numbers as a whole number of `2 ^ q`. -/
def exactSum (q : Int) (neg₁ : Bool) (m₁ : Nat) (q₁ : Int) (neg₂ : Bool) (m₂ : Nat) (q₂ : Int) :
    Int :=
  let a : Int := m₁ * Nat.pow 2 (q₁ - q).toNat
  let b : Int := m₂ * Nat.pow 2 (q₂ - q).toNat
  (if neg₁ then -a else a) + (if neg₂ then -b else b)

/-- The sum, rounded once.  An exact zero is positive unless both terms are negative. -/
def addNumbers (f : FloatFormat) : FloatValue → FloatValue → Nat
  | .finite neg₁ m₁ q₁, .finite neg₂ m₂ q₂ =>
    let q := min q₁ q₂
    let sum := exactSum q neg₁ m₁ q₁ neg₂ m₂ q₂
    if sum = 0 then f.signed (neg₁ && neg₂) 0 else f.round (sum < 0) sum.natAbs q
  | .infinite neg₁, .infinite neg₂ =>
    if neg₁ = neg₂ then f.signed neg₁ f.infinity else f.indefinite
  | .infinite negative, _ => f.signed negative f.infinity
  | _, .infinite negative => f.signed negative f.infinity
  | _, _ => f.indefinite

def negate (f : FloatFormat) (bits : Nat) : Nat :=
  f.signed (!f.isNegative bits) (f.magnitude bits)

/-- The sum; a term that is not a number is the result. -/
def add (f : FloatFormat) (a b : Nat) : Nat :=
  if f.isNan a then f.quieted a
  else if f.isNan b then f.quieted b
  else f.addNumbers (f.decode a) (f.decode b)

/-- The difference. -/
def sub (f : FloatFormat) (a b : Nat) : Nat :=
  if f.isNan a then f.quieted a
  else if f.isNan b then f.quieted b
  else f.addNumbers (f.decode a) (f.decode (f.negate b))

end FloatFormat

end BitSchema
