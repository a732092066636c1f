/-!
# Writing bits

Bits are packed least significant first: the first bit written is bit 0 of the first byte, and a
number is written low bit first.  A writer holds the bytes that are complete and the bits of the
byte begun.
-/

namespace BitSchema

/-- Bits written so far: whole bytes, and below them `used` bits with the value `pending`. -/
structure BitWriter where
  bytes : Array UInt8 := #[]
  pending : Nat := 0
  used : Nat := 0
  deriving DecidableEq, Repr, Inhabited

namespace BitWriter

/-- A writer with no bits. -/
def empty : BitWriter := {}

/-- The number of bits written. -/
def length (w : BitWriter) : Nat := 8 * w.bytes.size + w.used

/-- Complete as many bytes as `count` pending bits with the value `value` give. -/
def flush (bytes : Array UInt8) (value count : Nat) : BitWriter :=
  if count < 8 then ⟨bytes, value, count⟩
  else flush (bytes.push (UInt8.ofNat (value % 256))) (value / 256) (count - 8)
termination_by count

/-- Write a number that has at most `n` bits. -/
def append (w : BitWriter) (v n : Nat) : BitWriter :=
  flush w.bytes (w.pending + v * Nat.pow 2 w.used) (w.used + n)

/-- Write the low `n` bits of a number. -/
def writeBits (w : BitWriter) (v n : Nat) : BitWriter := w.append (v % Nat.pow 2 n) n

def writeBool (w : BitWriter) (b : Bool) : BitWriter := w.writeBits (if b then 1 else 0) 1

/-- Write whole bytes; at a byte boundary they are appended as they are. -/
def writeBytes (w : BitWriter) (bs : List UInt8) : BitWriter :=
  if w.used = 0 then { w with bytes := w.bytes ++ bs.toArray }
  else bs.foldl (fun w b => w.writeBits b.toNat 8) w

/-- Write `n` zero bits. -/
def pad (w : BitWriter) (n : Nat) : BitWriter := w.append 0 n

/-- Pad to the next byte boundary. -/
def align (w : BitWriter) : BitWriter := if w.used = 0 then w else w.pad (8 - w.used)

/-- The bytes written, the last one filled up with zeros. -/
def toBytes (w : BitWriter) : Array UInt8 :=
  if w.used = 0 then w.bytes else w.bytes.push (UInt8.ofNat w.pending)

end BitWriter

end BitSchema
