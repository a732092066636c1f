import BitSchema.Proofs.BitStream

/-!
# Sequences of writes, and the reads that match them

A writer that starts empty and goes through any sequence of operations holds one list of bits: what
the operations add, one after the other.  An alignment adds what is missing to the next octet, so
what it adds depends on the number of bits before it, and the list is built from the left with that
number at hand.

Its bytes are the list packed in octets.  Reading them with the operation that matches each write
gives back all that was written.
-/

namespace BitSchema

open List

/-! ## Octets from bits -/

/-- Bits packed in octets, the first bit lowest.  Bits that the last octet lacks are zero. -/
def pack : List Bool → List UInt8
  | [] => []
  | b :: bs => UInt8.ofNat (valueOf ((b :: bs).take 8)) :: pack (bs.drop 7)
termination_by bs => bs.length
decreasing_by
  rw [length_drop, length_cons]
  omega

/-- The number of bits from here to the next octet. -/
def gap (position : Nat) : Nat := (8 - position % 8) % 8

theorem gap_add_mul (position k : Nat) : gap (8 * k + position) = gap position := by
  rw [gap, gap, Nat.mul_add_mod]

theorem bitsOf_ofNat_valueOf {bs : List Bool} (few : bs.length ≤ 8) :
    bitsOf (UInt8.ofNat (valueOf bs)).toNat 8 = bs ++ List.replicate (8 - bs.length) false := by
  have small : valueOf bs < 2 ^ 8 :=
    (valueOf_lt bs).trans_le (Nat.pow_le_pow_right (by decide) few)
  have width : 8 = bs.length + (8 - bs.length) := by omega
  rw [UInt8.toNat_ofNat_of_lt' small]
  conv_lhs => rw [width]
  rw [bitsOf_add, bitsOf_valueOf, Nat.div_eq_of_lt (valueOf_lt bs), bitsOf_zero]

/-- Packed bits, with the zeros that fill the last octet. -/
theorem octetBits_pack (bs : List Bool) :
    octetBits (pack bs) = bs ++ List.replicate (gap bs.length) false := by
  fun_induction pack bs with
  | case1 => rfl
  | case2 b bs ih =>
    rw [octetBits_cons, ih, bitsOf_ofNat_valueOf (length_take_le _ _), length_take]
    by_cases long : 8 ≤ (b :: bs).length
    · have rest : bs.drop 7 = (b :: bs).drop 8 := rfl
      have same : gap (bs.drop 7).length = gap (b :: bs).length := by
        have count : (b :: bs).length = 8 * 1 + (bs.drop 7).length := by
          rw [rest, length_drop]
          omega
        rw [count, gap_add_mul]
      rw [Nat.min_eq_left long, Nat.sub_self, replicate_zero, append_nil, same,
        ← append_assoc, rest, take_append_drop]
    · have few : (b :: bs).length < 8 := by omega
      have done : bs.drop 7 = [] := by
        rw [length_cons] at few
        exact drop_eq_nil_of_le (by omega)
      have fill : gap (b :: bs).length = 8 - (b :: bs).length := by
        have some : 0 < (b :: bs).length := Nat.succ_pos _
        rw [gap, Nat.mod_eq_of_lt few]
        omega
      rw [Nat.min_eq_right few.le, take_of_length_le few.le, done, fill]
      simp [gap]

/-! ## Writing -/

namespace BitWriter

/-- One operation of a writer.  No more bits of a word are written than it has. -/
inductive Op where
  | bits (v : UInt64) (n : Nat) (narrow : n ≤ 64)
  | bool (b : Bool)
  | bytes (octets : List UInt8)
  | pad (n : Nat)
  | align

namespace Op

def run (w : BitWriter) : Op → BitWriter
  | bits v n _ => w.writeBits v.toNat n
  | bool b => w.writeBool b
  | bytes octets => w.writeBytes octets
  | pad n => w.pad n
  | align => w.align

/-- The bits that an operation adds after `position` bits. -/
def added (position : Nat) : Op → List Bool
  | bits v n _ => bitsOf v.toNat n
  | bool b => [b]
  | bytes octets => octetBits octets
  | pad n => List.replicate n false
  | align => List.replicate (gap position) false

end Op

/-- The writer after operations, from the first on. -/
def runAll (w : BitWriter) (ops : List Op) : BitWriter := ops.foldl Op.run w

/-- The bits that operations add after `position` bits, one after the other. -/
def addedFrom : Nat → List Op → List Bool
  | _, [] => []
  | position, op :: ops =>
    op.added position ++ addedFrom (position + (op.added position).length) ops

variable {w : BitWriter}

theorem gap_length (sound : w.Sound) : gap w.length = (8 - w.used) % 8 := by
  rw [length, gap, Nat.mul_add_mod, Nat.mod_eq_of_lt sound.used_lt]

/-- One operation adds its bits and keeps the representation sound. -/
theorem Sound.run (sound : w.Sound) (op : Op) :
    (op.run w).Sound ∧ (op.run w).bits = w.bits ++ op.added w.length := by
  cases op with
  | bits v n narrow => exact ⟨sound.writeBits v.toNat n, sound.bits_writeBits v.toNat n⟩
  | bool b =>
    refine ⟨sound.writeBits _ 1, (sound.bits_writeBits _ 1).trans ?_⟩
    cases b <;> rfl
  | bytes octets => exact sound.writeBytes octets
  | pad n => exact ⟨sound.pad n, sound.bits_pad n⟩
  | align =>
    have below := sound.used_lt
    rw [Op.run, Op.added, gap_length sound, BitWriter.align]
    by_cases aligned : w.used = 0
    · rw [if_pos aligned, aligned]
      exact ⟨sound, (append_nil _).symm⟩
    · rw [if_neg aligned, Nat.mod_eq_of_lt (by omega)]
      exact ⟨sound.pad _, sound.bits_pad _⟩

theorem Sound.runAll (sound : w.Sound) (ops : List Op) :
    (w.runAll ops).Sound ∧ (w.runAll ops).bits = w.bits ++ addedFrom w.length ops := by
  induction ops generalizing w with
  | nil => exact ⟨sound, (append_nil _).symm⟩
  | cons op ops ih =>
    obtain ⟨after, bits⟩ := sound.run op
    obtain ⟨last, all⟩ := ih after
    have count : (op.run w).length = w.length + (op.added w.length).length := by
      rw [← length_bits, bits, length_append, length_bits]
    refine ⟨last, all.trans ?_⟩
    rw [bits, count, append_assoc]
    rfl

/-- The bytes of a writer are its bits, packed. -/
theorem Sound.toBytes_eq_pack (sound : w.Sound) : w.toBytes.toList = pack w.bits := by
  apply octetBits_injective
  rw [octetBits_pack, length_bits, gap_length sound, toBytes, bits]
  by_cases aligned : w.used = 0
  · rw [if_pos aligned, aligned]
    simp [bitsOf]
  · have below := sound.used_lt
    have small : w.pending < 2 ^ 8 :=
      sound.pending_lt.trans_le (Nat.pow_le_pow_right (by decide) below.le)
    have octet : bitsOf w.pending 8 =
        bitsOf w.pending w.used ++ List.replicate (8 - w.used) false := by
      have width : 8 = w.used + (8 - w.used) := by omega
      conv_lhs => rw [width]
      rw [bitsOf_add, Nat.div_eq_of_lt sound.pending_lt, bitsOf_zero]
    rw [if_neg aligned, Array.toList_push, octetBits_append, octetBits_cons, octetBits_nil,
      UInt8.toNat_ofNat_of_lt' small, octet, Nat.mod_eq_of_lt (by omega), append_nil, append_assoc]

end BitWriter

/-! ## Reading back -/

namespace BitReader

/-- One operation of a reader. -/
inductive Op where
  | bits (n : Nat)
  | bool
  | bytes (n : Nat)
  | padding (n : Nat)
  deriving DecidableEq, Repr

/-- What an operation of a reader gives. -/
inductive Item where
  | word (v : UInt64)
  | flag (b : Bool)
  | octets (octets : List UInt8)
  | nothing
  deriving DecidableEq, Repr

def Op.run : Op → Step Item
  | bits n => .word <$> readBits n
  | bool => .flag <$> readBool
  | bytes n => .octets <$> readBytes n
  | padding n => (fun _ => .nothing) <$> skipPadding n

end BitReader

namespace BitWriter

/-- The read that matches a write after `position` bits. -/
def Op.matching (position : Nat) : Op → BitReader.Op
  | bits _ n _ => .bits n
  | bool _ => .bool
  | bytes octets => .bytes octets.length
  | pad n => .padding n
  | align => .padding (gap position)

/-- What is to be read where an operation wrote: of a word, the low bits that were written. -/
def Op.item : Op → BitReader.Item
  | bits v n _ => .word (UInt64.ofNat (v.toNat % 2 ^ n))
  | bool b => .flag b
  | bytes octets => .octets octets
  | pad _ => .nothing
  | align => .nothing

/-- The reads that match writes after `position` bits. -/
def matchingFrom : Nat → List Op → List BitReader.Op
  | _, [] => []
  | position, op :: ops =>
    op.matching position :: matchingFrom (position + (op.added position).length) ops

/-- Where the bits of an operation come next, the matching read passes over them and gives what was
written. -/
theorem Op.matching_run (op : Op) {position : Nat} {r : BitReader} {rest : List Bool}
    (next : r.unread = op.added position ++ rest) :
    Succeeds (op.matching position).run r op.item (r.advance (op.added position).length) := by
  have held : (op.added position).length ≤ r.remaining := by
    rw [BitReader.remaining_eq, next, length_append]
    exact Nat.le_add_right _ _
  have here : r.unread.take (op.added position).length = op.added position := by
    rw [next, take_left' rfl]
  cases op with
  | bits v n narrow =>
    rw [added, length_bitsOf] at held here ⊢
    refine succeeds_map.mpr ⟨_, BitReader.succeeds_readBits.mpr ⟨narrow, held, rfl, rfl⟩, ?_⟩
    rw [here, valueOf_bitsOf]
    rfl
  | bool b =>
    have read : Succeeds (BitReader.readBits 1) r (UInt64.ofNat (valueOf [b])) (r.advance 1) :=
      BitReader.succeeds_readBits.mpr ⟨by decide, held, congrArg _ (congrArg _ here.symm), rfl⟩
    refine succeeds_map.mpr ⟨b, ?_, rfl⟩
    refine succeeds_bind.mpr ⟨_, _, read, succeeds_pure.mpr ⟨?_, rfl⟩⟩
    cases b <;> rfl
  | bytes octets =>
    rw [added, length_octetBits] at here ⊢
    exact succeeds_map.mpr ⟨octets, BitReader.succeeds_readBytes.mpr ⟨rfl, here.symm, rfl⟩, rfl⟩
  | pad n | align =>
    rw [added, length_replicate] at here ⊢
    exact succeeds_map.mpr ⟨(), BitReader.succeeds_skipPadding.mpr ⟨here, rfl⟩, rfl⟩

theorem matchingFrom_run (ops : List Op) {position : Nat} {r : BitReader} {rest : List Bool}
    (next : r.unread = addedFrom position ops ++ rest) :
    Succeeds ((matchingFrom position ops).mapM BitReader.Op.run) r (ops.map Op.item)
      (r.advance (addedFrom position ops).length) := by
  induction ops generalizing position r with
  | nil => exact succeeds_pure.mpr ⟨rfl, rfl⟩
  | cons op ops ih =>
    rw [addedFrom, append_assoc] at next
    have first := op.matching_run next
    have later : (r.advance (op.added position).length).unread =
        addedFrom (position + (op.added position).length) ops ++ rest := by
      rw [BitReader.unread_advance, next, drop_left' rfl]
    have all := ih later
    rw [BitReader.advance_advance, ← length_append] at all
    rw [matchingFrom, mapM_cons]
    exact succeeds_bind.mpr ⟨_, _, first, succeeds_bind.mpr ⟨_, _, all, succeeds_pure.mpr
      ⟨rfl, rfl⟩⟩⟩

/-- A writer is a list of bits, and so is a reader.  After any operations from the empty writer, its
length is that of the bits they add, its bytes are those bits packed, and the matching reads of the
bytes give all that was written and leave less than an octet, of zeros. -/
theorem runAll_bitList (ops : List Op) :
    (empty.runAll ops).length = (addedFrom 0 ops).length ∧
      (empty.runAll ops).toBytes.toList = pack (addedFrom 0 ops) ∧
      ∃ r, Succeeds ((matchingFrom 0 ops).mapM BitReader.Op.run) ⟨(empty.runAll ops).toBytes, 0⟩
          (ops.map Op.item) r ∧
        r.remaining < 8 ∧ ∀ bit ∈ r.unread, bit = false := by
  obtain ⟨sound, all⟩ := sound_empty.runAll ops
  have bits : (empty.runAll ops).bits = addedFrom 0 ops := all
  have packed := sound.toBytes_eq_pack
  rw [bits] at packed
  have unread : (⟨(empty.runAll ops).toBytes, 0⟩ : BitReader).unread =
      addedFrom 0 ops ++ List.replicate (gap (addedFrom 0 ops).length) false := by
    rw [BitReader.unread, drop_zero, packed, octetBits_pack]
  refine ⟨?_, packed, _, matchingFrom_run ops unread, ?_, ?_⟩
  · rw [← length_bits, bits]
  · rw [BitReader.remaining_eq, BitReader.unread_advance, unread, drop_left' rfl, length_replicate]
    exact Nat.mod_lt _ (by decide)
  · rw [BitReader.unread_advance, unread, drop_left' rfl]
    intro bit mem
    exact eq_of_mem_replicate mem

/-- Octets that start at the fourth bit and a word across them, cut off at its tenth bit. -/
example : (empty.runAll [.bits 5 3 (by decide), .bytes [255], .align, .bool true,
      .bits 1025 10 (by decide)]).toBytes = #[253, 7, 3, 0] := by
  decide +kernel

end BitWriter

end BitSchema
