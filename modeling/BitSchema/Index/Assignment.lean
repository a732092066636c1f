import BitSchema.Source.Declaration

/-!
# Index assignment

An index that is given stays.  An item without one gets the least index that no item of its message
or enum is given, and that no earlier item got.
-/

namespace BitSchema

/-- The least number from `n` on that is not reserved.  There is one among `n` and the next
`reserved.length` numbers, which is the fuel. -/
def leastFree (reserved : List Nat) : Nat → Nat → Nat
  | 0, n => n
  | fuel + 1, n => if n ∈ reserved then leastFree reserved fuel (n + 1) else n

/-- Indices for items in order; `next` is above all indices assigned so far. -/
def assignFrom (reserved : List Nat) : Nat → List (Option UInt64) → List UInt32
  | _, [] => []
  | next, some given :: items => given.toUInt32 :: assignFrom reserved next items
  | next, none :: items =>
    let index := leastFree reserved reserved.length next
    UInt32.ofNat index :: assignFrom reserved (index + 1) items

/-- The indices of items, some of which are given one. -/
def assignIndices (given : List (Option UInt64)) : List UInt32 :=
  assignFrom (given.filterMap fun g => g.map (·.toUInt32.toNat)) 0 given

end BitSchema
