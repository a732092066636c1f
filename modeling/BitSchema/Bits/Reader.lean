/-!
# Reading bits

The counterpart of the writer.  A read that finds too few bits fails and leaves the reader where it
was.
-/

namespace BitSchema

/-- Bytes, and the number of bits of them that have been read. -/
structure BitReader where
  bytes : Array UInt8 := #[]
  position : Nat := 0
  deriving DecidableEq, Repr, Inhabited

/-- Why bits cannot be read. -/
inductive ReadFault where
  | tooWide (bits : Nat)
  | missingBits (need available : Nat)
  | missingBytes (need bits : Nat)
  | nonZeroPadding
  deriving DecidableEq, Repr

/-- A step that reads: it succeeds or fails, and moves the reader in either case. -/
abbrev BitReader.Step (α : Type) : Type := ExceptT ReadFault (StateM BitReader) α

namespace BitReader

/-- The number of bits not read yet. -/
def remaining (r : BitReader) : Nat := 8 * r.bytes.size - r.position

/-- The `n` bits from a place on as a number, first bit lowest.  Bits past the end count as zero. -/
def gather (bytes : Array UInt8) (position n : Nat) : Nat :=
  if h : n = 0 then 0
  else
    let offset := position % 8
    let taken := min n (8 - offset)
    have : n - taken < n := by omega
    (bytes[position / 8]?.getD 0).toNat / Nat.pow 2 offset % Nat.pow 2 taken +
      Nat.pow 2 taken * gather bytes (position + taken) (n - taken)
termination_by n

def advance (r : BitReader) (n : Nat) : BitReader := { r with position := r.position + n }

/-- Read a number of at most 64 bits. -/
def readBits (n : Nat) : Step UInt64 := do
  let r ← get
  if 64 < n then throw (.tooWide n)
  if r.remaining < n then throw (.missingBits n r.remaining)
  set (r.advance n)
  return UInt64.ofNat (gather r.bytes r.position n)

def readBool : Step Bool := return (← readBits 1) == 1

/-- Read whole bytes; at a byte boundary they are taken as they are, elsewhere one by one. -/
def readBytes (n : Nat) : Step (List UInt8) := do
  let r ← get
  if r.remaining / 8 < n then throw (.missingBytes n r.remaining)
  if r.position % 8 = 0 then
    set (r.advance (8 * n))
    return (r.bytes.extract (r.position / 8) (r.position / 8 + n)).toList
  return (← (List.replicate n 8).mapM readBits).map UInt64.toUInt8

/-- Read `n` bits, at most 64 at a time, that all have to be zero. -/
def skipPadding (n : Nat) : Step Unit :=
  if h : n = 0 then pure ()
  else do
    let taken := min n 64
    have : n - taken < n := by omega
    if (← readBits taken) != 0 then throw .nonZeroPadding
    skipPadding (n - taken)
termination_by n

end BitReader

end BitSchema
