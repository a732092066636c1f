import BitSchema.Number.Shortest
import BitSchema.Number.Word

/-!
# Fixed point

A floating-point number as a whole number of `2 ^ -fractional`, in `integer + fractional` bits with
a sign.  The sum of the two widths is taken modulo `2 ^ 32`.
-/

namespace BitSchema.FixedPoint

/-- Why a number has no fixed-point form. -/
inductive Fault where
  | width (integer fractional : UInt32)
  | notFinite (bits : UInt64)
  | tooLarge (bits : UInt64) (integer fractional : UInt32)
  deriving DecidableEq, Repr

/-- The text of a fault. -/
def Fault.message : Fault → String
  | width i f => s!"fixed_point({i.toNat}, {f.toNat}) width"
  | notFinite bits => FloatFormat.double.render bits.toNat ++ " is not finite"
  | tooLarge bits i f =>
    FloatFormat.double.render bits.toNat ++ s!" does not fit fixed_point({i.toNat}, {f.toNat})"

/-- `m * 2 ^ q` as a whole number, a half away from zero; `none` if it has more than 64 bits. -/
def whole? (m : Nat) (q : Int) : Option Nat :=
  if m = 0 then some 0
  else if 64 < bitLength m + q then none
  else if 0 ≤ q then some (m * Nat.pow 2 q.toNat)
  else
    let k := (-q).toNat
    if bitLength m < k then some 0
    else some ((m + Nat.pow 2 (k - 1)) / Nat.pow 2 k)

/-- The fixed-point form of a number of 64 bits. -/
def encode (bits : UInt64) (integer fractional : UInt32) : Except Fault Int64 :=
  let total := (integer + fractional).toNat
  if total < 1 ∨ 64 < total then .error (.width integer fractional)
  else match FloatFormat.double.decode bits.toNat with
    | .nan => .error (.notFinite bits)
    | .infinite _ => .error (.notFinite bits)
    | .finite negative m q =>
      match whole? m (q + fractional.toNat) with
      | none => .error (.tooLarge bits integer fractional)
      | some n =>
        let scaled : Int := if negative then -n else n
        let limit : Int := Nat.pow 2 (total - 1)
        if -limit ≤ scaled ∧ scaled < limit then .ok (Int64.ofInt scaled)
        else .error (.tooLarge bits integer fractional)

/-- The number that a fixed-point form stands for: first the nearest floating-point number, then
the power of two. -/
def decode (v : Int64) (fractional : UInt32) : UInt64 :=
  match FloatFormat.double.decode (FloatFormat.double.ofInt v.toInt) with
  | .finite negative m q =>
    UInt64.ofNat (FloatFormat.double.round negative m (q - fractional.toNat))
  | _ => 0

end BitSchema.FixedPoint
