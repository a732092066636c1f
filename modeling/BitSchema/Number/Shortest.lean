import BitSchema.Number.Binary

/-!
# Shortest decimals

The fewest digits that read back as the same floating-point number, and of those the nearest to it.
-/

namespace BitSchema

/-- The number `digits * 10 ^ power`. -/
structure Decimal where
  digits : Nat
  power : Int
  deriving DecidableEq, Repr

namespace Decimal

/-- Without zeros at the end of its digits; `fuel` bounds how many are dropped. -/
def trim : Nat → Decimal → Decimal
  | 0, d => d
  | fuel + 1, d =>
    if d.digits % 10 = 0 ∧ d.digits ≠ 0 then trim fuel ⟨d.digits / 10, d.power + 1⟩ else d

/-- The least `k` from `start` on with `den ≤ num * 10 ^ k`. -/
def leastPower (num den : Nat) : Nat → Nat → Nat
  | 0, start => start
  | fuel + 1, start =>
    if den ≤ num * Nat.pow 10 start then start else leastPower num den fuel (start + 1)

/-- The exponent of the leading decimal digit of `num / den`. -/
def leadingPower (num den : Nat) : Int :=
  if den ≤ num then ((Nat.toDigits 10 (num / den)).length : Int) - 1
  else -(leastPower num den 400 1 : Int)

/-- A number with its neighbourhood, all over `den`: the reals between `low` and `high` round to
it, and so do the ends if `closed`. -/
structure Target where
  low : Nat
  exact : Nat
  high : Nat
  den : Nat
  closed : Bool

/-- The grid point `k * unit / den` lies in the neighbourhood. -/
def Target.admits (t : Target) (k unit : Nat) : Bool :=
  let place := k * unit
  if t.closed then t.low ≤ place && place ≤ t.high else t.low < place && place < t.high

/-- The grid point next to the number that lies in its neighbourhood, the nearer one of two. -/
def Target.nearest? (t : Target) (unit : Nat) : Option Nat :=
  let below := t.exact / unit
  let above := below + 1
  match t.admits below unit, t.admits above unit with
  | true, true =>
    let down := t.exact - below * unit
    let up := above * unit - t.exact
    if down < up ∨ (down = up ∧ below % 2 = 0) then some below else some above
  | true, false => some below
  | false, true => some above
  | false, false => none

/-- Both sides of a fraction times a power of ten, so that a grid of that power is whole. -/
def Target.scale (t : Target) (power : Int) : Target × Nat :=
  if 0 ≤ power then (t, t.den * Nat.pow 10 power.toNat)
  else
    let factor := Nat.pow 10 (-power).toNat
    (⟨t.low * factor, t.exact * factor, t.high * factor, t.den, t.closed⟩, t.den)

/-- The first grid, from one digit on, with a point in the neighbourhood. -/
def search (t : Target) (lead : Int) : Nat → Nat → Decimal
  | 0, _ => ⟨0, 0⟩
  | fuel + 1, count =>
    let power := lead - ((count : Int) - 1)
    let (scaled, unit) := t.scale power
    match scaled.nearest? unit with
    | some k => ⟨k, power⟩
    | none => search t lead fuel (count + 1)

/-- The neighbourhood of `m * 2 ^ q` among the numbers of a format, in quarters of a unit. -/
def target (f : FloatFormat) (m : Nat) (q : Int) : Target :=
  let below := if m = Nat.pow 2 f.fraction ∧ f.minPower < q then 1 else 2
  let factor := if 2 ≤ q then Nat.pow 2 (q - 2).toNat else 1
  let den := if 2 ≤ q then 1 else Nat.pow 2 (2 - q).toNat
  ⟨(4 * m - below) * factor, 4 * m * factor, (4 * m + 2) * factor, den, m % 2 = 0⟩

/-- The shortest decimal for `m * 2 ^ q`, which is not zero. -/
def shortest (f : FloatFormat) (m : Nat) (q : Int) : Decimal :=
  let t := target f m q
  trim 20 (search t (leadingPower t.exact t.den) 20 1)

/-- The exponent of the leading digit. -/
def exponent (d : Decimal) : Int := d.power + ((Nat.toDigits 10 d.digits).length : Int) - 1

/-- Digits with a point after the first `whole` of them, filled up with zeros. -/
def positional (digits : List Char) (whole : Int) : List Char :=
  if whole ≤ 0 then '0' :: '.' :: List.replicate (-whole).toNat '0' ++ digits
  else if digits.length ≤ whole.toNat then
    digits ++ List.replicate (whole.toNat - digits.length) '0'
  else digits.take whole.toNat ++ '.' :: digits.drop whole.toNat

/-- Digits with a point after the first, and the exponent with its sign and at least two digits. -/
def scientific (digits : List Char) (exponent : Int) : List Char :=
  let power := Nat.toDigits 10 exponent.natAbs
  digits.take 1 ++ (if digits.length = 1 then [] else '.' :: digits.drop 1) ++
    ['e', if exponent < 0 then '-' else '+'] ++
    List.replicate (2 - power.length) '0' ++ power

end Decimal

namespace FloatFormat

/-- A pattern as text: positional for exponents from -4 to 5, scientific otherwise. -/
def render (f : FloatFormat) (bits : Nat) : String :=
  match f.decode bits with
  | .nan => "NaN"
  | .infinite negative => if negative then "-Inf" else "+Inf"
  | .finite negative m q =>
    let sign := if negative then "-" else ""
    if m = 0 then sign ++ "0"
    else
      let d := Decimal.shortest f m q
      let digits := Nat.toDigits 10 d.digits
      let e := d.exponent
      sign ++ String.ofList (if -4 ≤ e ∧ e ≤ 5 then Decimal.positional digits (e + 1)
        else Decimal.scientific digits e)

end FloatFormat

end BitSchema
