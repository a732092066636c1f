/-!
# Words

Integers in a given number of bits: which values fit, how the low bits of a word are read as a
signed number, and the zig-zag order that maps small numbers of either sign to small words.
-/

namespace BitSchema.Word

/-- The word fits in `n` bits. -/
def fitsUnsigned (v : UInt64) (n : Nat) : Bool := 64 ≤ n || v.toNat < Nat.pow 2 n

/-- The number fits in `n` bits with a sign; in no bits only zero does. -/
def fitsSigned (v : Int64) (n : Nat) : Bool :=
  if 64 ≤ n then true
  else if n = 0 then v = 0
  else -(Nat.pow 2 (n - 1) : Int) ≤ v.toInt && v.toInt < Nat.pow 2 (n - 1)

/-- The low `n` bits as a signed number; all of them if `n` is zero. -/
def signExtend (v : UInt64) (n : Nat) : Int64 :=
  if n = 0 ∨ 64 ≤ n then v.toInt64
  else
    let shift := UInt64.ofNat (64 - n)
    (v <<< shift).toInt64 >>> shift.toInt64

/-- Zero, minus one, one, minus two, … in turn. -/
def zigZag (v : Int64) : UInt64 := ((v <<< 1) ^^^ (v >>> 63)).toUInt64

def unZigZag (v : UInt64) : Int64 := (v >>> 1).toInt64 ^^^ -(v &&& 1).toInt64

end BitSchema.Word
