import BitSchema.Number.Binary

/-!
# Widths

How many bits discriminants and length prefixes take.
-/

namespace BitSchema

/-- The length prefix of a string, bytes, array or map that does not say otherwise. -/
def defaultPrefixBits : UInt32 := 32

/-- The least length prefix. -/
def minPrefixBits : Nat := 8

/-- The widths of discriminants. -/
def discriminantTiers : List Nat := [8, 16, 32, 64]

/-- The least discriminant that holds a value. -/
def discriminantWidth (maxValue : Nat) : Nat :=
  (discriminantTiers.find? (bitLength maxValue ≤ ·)).getD 64

/-- The discriminant of an enum with this many variants; fewer than two count as two. -/
def discriminantBits (variants : Nat) : Nat := discriminantWidth (max variants 2 - 1)

/-- The length prefix that holds a length. -/
def lengthPrefixBits (n : Nat) : Nat := max minPrefixBits (bitLength n)

end BitSchema
