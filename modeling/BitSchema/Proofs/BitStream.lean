import BitSchema.Proofs.BitList
import BitSchema.Proofs.Outcome

/-!
# Writers and readers as bit lists

One equation for each operation of a writer, about the bits it holds, and for each operation of a
reader, about the bits it has not read yet.
-/

namespace BitSchema

open List

/-! ## Writers -/

namespace BitWriter

/-- The bits written so far. -/
def bits (w : BitWriter) : List Bool := octetBits w.bytes.toList ++ bitsOf w.pending w.used

/-- The pending bits are fewer than an octet, and nothing stands above them. -/
structure Sound (w : BitWriter) : Prop where
  used_lt : w.used < 8
  pending_lt : w.pending < 2 ^ w.used

theorem sound_empty : empty.Sound := ⟨by decide, by decide⟩

@[simp] theorem bits_empty : empty.bits = [] := rfl

theorem length_bits (w : BitWriter) : w.bits.length = w.length := by
  rw [bits, length_append, length_octetBits, length_bitsOf, Array.length_toList, length]

theorem sound_flush {value count : Nat} (bytes : Array UInt8) (small : value < 2 ^ count) :
    (flush bytes value count).Sound := by
  fun_induction flush bytes value count with
  | case1 bytes value count few => exact ⟨few, small⟩
  | case2 bytes value count many ih =>
    refine ih ?_
    rw [Nat.div_lt_iff_lt_mul (by decide), show (256 : Nat) = 2 ^ 8 from rfl, ← pow_add]
    rwa [Nat.sub_add_cancel (by omega)]

theorem bits_flush {value count : Nat} (bytes : Array UInt8) :
    (flush bytes value count).bits = octetBits bytes.toList ++ bitsOf value count := by
  fun_induction flush bytes value count with
  | case1 bytes value count few => rfl
  | case2 bytes value count many ih =>
    have octet : bitsOf (UInt8.ofNat (value % 256)).toNat 8 = bitsOf value 8 := by
      apply bitsOf_eq_of_mod_eq
      rw [UInt8.toNat_ofNat']
      omega
    have split : bitsOf value count = bitsOf value 8 ++ bitsOf (value / 256) (count - 8) := by
      rw [show (256 : Nat) = 2 ^ 8 from rfl, ← bitsOf_add, Nat.add_sub_cancel' (by omega)]
    rw [ih, Array.toList_push, octetBits_append, octetBits_cons, octetBits_nil, octet, split,
      append_nil, append_assoc]

variable {w : BitWriter}

section

variable (sound : w.Sound)

include sound

theorem Sound.append {v n : Nat} (small : v < 2 ^ n) : (w.append v n).Sound := by
  refine sound_flush _ ?_
  have below := sound.pending_lt
  rw [Nat.pow_eq, pow_add]
  calc w.pending + v * 2 ^ w.used < 2 ^ w.used + v * 2 ^ w.used := by omega
    _ = (v + 1) * 2 ^ w.used := by ring
    _ ≤ 2 ^ n * 2 ^ w.used := Nat.mul_le_mul_right _ small
    _ = 2 ^ w.used * 2 ^ n := Nat.mul_comm _ _

theorem Sound.bits_append (v n : Nat) : (w.append v n).bits = w.bits ++ bitsOf v n := by
  have low : bitsOf (w.pending + v * 2 ^ w.used) w.used = bitsOf w.pending w.used :=
    bitsOf_eq_of_mod_eq (Nat.add_mul_mod_self_right _ _ _)
  have high : (w.pending + v * 2 ^ w.used) / 2 ^ w.used = v := by
    rw [Nat.add_mul_div_right _ _ (Nat.two_pow_pos _), Nat.div_eq_of_lt sound.pending_lt,
      Nat.zero_add]
  rw [BitWriter.append, Nat.pow_eq, bits_flush, bitsOf_add, low, high, ← append_assoc]
  rfl

theorem Sound.writeBits (v n : Nat) : (w.writeBits v n).Sound :=
  sound.append (Nat.mod_lt _ (Nat.two_pow_pos n))

/-- What is written comes after what is there. -/
theorem Sound.bits_writeBits (v n : Nat) : (w.writeBits v n).bits = w.bits ++ bitsOf v n := by
  rw [BitWriter.writeBits, sound.bits_append, Nat.pow_eq, bitsOf_mod]

theorem Sound.pad (n : Nat) : (w.pad n).Sound := sound.append (Nat.two_pow_pos n)

theorem Sound.bits_pad (n : Nat) : (w.pad n).bits = w.bits ++ List.replicate n false := by
  rw [BitWriter.pad, sound.bits_append, bitsOf_zero]

theorem Sound.foldl_writeBits (bs : List UInt8) :
    (bs.foldl (fun w b => w.writeBits b.toNat 8) w).Sound ∧
      (bs.foldl (fun w b => w.writeBits b.toNat 8) w).bits = w.bits ++ octetBits bs := by
  induction bs generalizing w with
  | nil => exact ⟨sound, by simp⟩
  | cons b bs ih =>
    obtain ⟨after, bits⟩ := ih (sound.writeBits b.toNat 8)
    rw [foldl_cons]
    refine ⟨after, ?_⟩
    rw [bits, sound.bits_writeBits, octetBits_cons, append_assoc]

/-- Octets are written as eight bits each, whatever the alignment. -/
theorem Sound.writeBytes (bs : List UInt8) :
    (w.writeBytes bs).Sound ∧ (w.writeBytes bs).bits = w.bits ++ octetBits bs := by
  unfold BitWriter.writeBytes
  split
  next aligned =>
    refine ⟨⟨sound.used_lt, sound.pending_lt⟩, ?_⟩
    simp [bits, aligned, bitsOf]
  next => exact sound.foldl_writeBits bs

/-- The bytes of an aligned writer hold its bits, filled up with fewer than eight zeros. -/
theorem Sound.octetBits_align :
    ∃ k < 8, 8 ∣ w.length + k ∧
      octetBits w.align.toBytes.toList = w.bits ++ List.replicate k false := by
  have below := sound.used_lt
  by_cases aligned : w.used = 0
  · refine ⟨0, by decide, ?_, ?_⟩
    · rw [length, aligned]
      exact Dvd.intro _ rfl
    · rw [align, if_pos aligned, toBytes, if_pos aligned, bits, aligned]
      simp [bitsOf]
  · have bits := sound.bits_pad (8 - w.used)
    have padded := sound.pad (8 - w.used)
    have count : w.length + (8 - w.used) = 8 * (w.bytes.size + 1) := by
      rw [length]
      omega
    have filled : (w.pad (8 - w.used)).used = 0 := by
      have len := (w.pad (8 - w.used)).length_bits
      rw [bits, length_append, length_bits, length_replicate, count, length] at len
      have := padded.used_lt
      omega
    refine ⟨8 - w.used, by omega, Dvd.intro _ count.symm, ?_⟩
    rw [align, if_neg aligned, toBytes, if_pos filled, ← bits, BitWriter.bits, filled]
    simp [bitsOf]

/-- Bytes that hold the bits of a writer and fewer than eight zeros are its own. -/
theorem Sound.toBytes_align_eq {bytes : Array UInt8} {k : Nat} (few : k < 8)
    (held : octetBits bytes.toList = w.bits ++ List.replicate k false) :
    w.align.toBytes = bytes := by
  obtain ⟨k', few', whole, own⟩ := sound.octetBits_align
  have count := congrArg List.length held
  rw [length_octetBits, length_append, length_replicate, length_bits] at count
  have same : k' = k := by omega
  rw [same, ← held] at own
  exact Array.toList_inj.mp (octetBits_injective own)

end

end BitWriter

/-! ## Readers -/

namespace BitReader

/-- The bits not read yet. -/
def unread (r : BitReader) : List Bool := (octetBits r.bytes.toList).drop r.position

section

variable (r : BitReader)

theorem remaining_eq : r.remaining = r.unread.length := by
  rw [unread, length_drop, length_octetBits, Array.length_toList, remaining]

@[simp] theorem unread_advance (n : Nat) : (r.advance n).unread = r.unread.drop n := by
  rw [unread, unread, drop_drop]
  rfl

@[simp] theorem bytes_advance (n : Nat) : (r.advance n).bytes = r.bytes := rfl

@[simp] theorem position_advance (n : Nat) : (r.advance n).position = r.position + n := rfl

theorem advance_advance (m n : Nat) : (r.advance m).advance n = r.advance (m + n) := by
  rw [advance, advance, advance, Nat.add_assoc]

@[simp] theorem advance_zero : r.advance 0 = r := rfl

end

/-- The bits that one octet contributes to a number. -/
theorem valueOf_take_octet (bytes : List UInt8) (position taken : Nat)
    (inside : taken ≤ 8 - position % 8) :
    valueOf (((octetBits bytes).drop position).take taken) =
      (bytes[position / 8]?.getD 0).toNat / 2 ^ (position % 8) % 2 ^ taken := by
  have place : position = 8 * (position / 8) + position % 8 := (Nat.div_add_mod position 8).symm
  have below : position % 8 < 8 := Nat.mod_lt _ (by decide)
  conv_lhs => rw [place, ← drop_drop, drop_octetBits]
  by_cases short : bytes.length ≤ position / 8
  · rw [drop_eq_nil_of_le short, getElem?_eq_none short]
    simp [valueOf]
  · have tail : bytes.drop (position / 8) = bytes[position / 8] :: bytes.drop (position / 8 + 1) :=
      drop_eq_getElem_cons (by omega)
    rw [tail, getElem?_eq_getElem (by omega), octetBits_cons, Option.getD_some]
    generalize bytes[position / 8] = octet
    have split : bitsOf octet.toNat 8 = bitsOf octet.toNat (position % 8) ++
        (bitsOf (octet.toNat / 2 ^ (position % 8)) taken ++
          bitsOf (octet.toNat / 2 ^ (position % 8) / 2 ^ taken) (8 - position % 8 - taken)) := by
      rw [← bitsOf_add, ← bitsOf_add]
      congr 1
      omega
    rw [split, append_assoc, drop_left' (length_bitsOf _ _), append_assoc,
      take_left' (length_bitsOf _ _), valueOf_bitsOf]

theorem gather_eq (bytes : Array UInt8) (position n : Nat) :
    gather bytes position n = valueOf (((octetBits bytes.toList).drop position).take n) := by
  fun_induction gather bytes position n with
  | case1 position => simp [valueOf]
  | case2 position n some offset taken less ih =>
    have split : n = taken + (n - taken) := by omega
    conv_rhs => rw [split, valueOf_take_add, drop_drop]
    rw [ih, valueOf_take_octet bytes.toList position taken (Nat.min_le_right _ _),
      Array.getElem?_toList, Nat.pow_eq, Nat.pow_eq]

theorem gather_eq_unread (r : BitReader) (n : Nat) :
    gather r.bytes r.position n = valueOf (r.unread.take n) :=
  gather_eq r.bytes r.position n

variable {n : Nat} {r r' : BitReader}

/-- Bits are read from the front, if there are so many. -/
theorem succeeds_readBits {v : UInt64} :
    Succeeds (readBits n) r v r' ↔
      n ≤ 64 ∧ n ≤ r.remaining ∧ v = UInt64.ofNat (valueOf (r.unread.take n)) ∧
        r' = r.advance n := by
  simp only [readBits, succeeds_bind, succeeds_get, succeeds_ite, succeeds_throw, succeeds_set,
    succeeds_pure, gather_eq_unread]
  grind

/-- Bits that fill octets are the bits of some. -/
theorem exists_octets {bs : List Bool} (whole : bs.length = 8 * n) :
    ∃ octets : List UInt8, octets.length = n ∧ octetBits octets = bs := by
  induction n generalizing bs with
  | zero => exact ⟨[], rfl, (eq_nil_of_length_eq_zero whole).symm⟩
  | succ n ih =>
    have later : (bs.drop 8).length = 8 * n := by
      rw [length_drop]
      omega
    obtain ⟨octets, count, bits⟩ := ih later
    have long : (bs.take 8).length = 8 := by
      rw [length_take]
      omega
    have first := bitsOf_valueOf (bs.take 8)
    have small := valueOf_lt (bs.take 8)
    rw [long] at first small
    refine ⟨UInt8.ofNat (valueOf (bs.take 8)) :: octets, by rw [length_cons, count], ?_⟩
    rw [octetBits_cons, UInt8.toNat_ofNat_of_lt' small, first, bits, take_append_drop]

/-- Octets that come next are read one by one, whatever the alignment. -/
theorem succeeds_mapM_readBits (octets : List UInt8) {rest : List Bool}
    (next : r.unread = octetBits octets ++ rest) :
    Succeeds ((List.replicate octets.length 8).mapM readBits) r (octets.map UInt8.toUInt64)
      (r.advance (8 * octets.length)) := by
  induction octets generalizing r with
  | nil => exact succeeds_pure.mpr ⟨rfl, rfl⟩
  | cons octet octets ih =>
    rw [octetBits_cons, append_assoc] at next
    have held : 8 ≤ r.remaining := by
      rw [remaining_eq, next, length_append, length_bitsOf]
      exact Nat.le_add_right _ _
    have here : octet.toUInt64 = UInt64.ofNat (valueOf (r.unread.take 8)) := by
      rw [next, take_left' (length_bitsOf _ _), ← toNat_eq_valueOf, UInt64.ofNat_uInt8ToNat]
    have later : (r.advance 8).unread = octetBits octets ++ rest := by
      rw [unread_advance, next, drop_left' (length_bitsOf _ _)]
    have all := ih later
    rw [advance_advance, Nat.add_comm, ← Nat.mul_succ] at all
    rw [length_cons, replicate_succ, mapM_cons]
    exact succeeds_bind.mpr ⟨_, _, succeeds_readBits.mpr ⟨by decide, held, here, rfl⟩,
      succeeds_bind.mpr ⟨_, _, all, succeeds_pure.mpr ⟨rfl, rfl⟩⟩⟩

/-- Octets taken as they are at a byte boundary. -/
theorem octetBits_extract (r : BitReader) (n : Nat) (aligned : r.position % 8 = 0) :
    octetBits (r.bytes.extract (r.position / 8) (r.position / 8 + n)).toList =
      r.unread.take (8 * n) := by
  have place : 8 * (r.position / 8) = r.position :=
    Nat.mul_div_cancel' (Nat.dvd_of_mod_eq_zero aligned)
  rw [Array.toList_extract, extract_eq_drop_take', drop_take, Nat.add_sub_cancel_left,
    ← take_octetBits, ← drop_octetBits, place]
  rfl

/-- Octets that come next are read, at a byte boundary or elsewhere. -/
theorem succeeds_readBytes_next (octets : List UInt8) {rest : List Bool}
    (next : r.unread = octetBits octets ++ rest) :
    Succeeds (readBytes octets.length) r octets (r.advance (8 * octets.length)) := by
  have enough : octets.length ≤ r.remaining / 8 := by
    rw [remaining_eq, next, length_append, length_octetBits]
    omega
  by_cases aligned : r.position % 8 = 0
  · have same : (r.bytes.extract (r.position / 8) (r.position / 8 + octets.length)).toList =
        octets := by
      refine octetBits_injective ?_
      rw [octetBits_extract r _ aligned, next, take_left' (length_octetBits octets)]
    simpa [readBytes, enough, aligned] using same
  · have back : (octets.map UInt8.toUInt64).map UInt64.toUInt8 = octets := by
      simp [Function.comp_def]
    have read := succeeds_mapM_readBits octets next
    simpa [readBytes, enough, aligned] using ⟨_, read, back⟩

/-- The octets that come next, if there are enough. -/
theorem exists_next (held : 8 * n ≤ r.remaining) :
    ∃ octets, octets.length = n ∧ r.unread = octetBits octets ++ r.unread.drop (8 * n) := by
  rw [remaining_eq] at held
  obtain ⟨octets, count, bits⟩ := exists_octets (length_take_of_le held)
  exact ⟨octets, count, by rw [bits, take_append_drop]⟩

/-- Octets are read as eight bits each, whatever the alignment. -/
theorem succeeds_readBytes {octets : List UInt8} :
    Succeeds (readBytes n) r octets r' ↔
      octets.length = n ∧ octetBits octets = r.unread.take (8 * n) ∧ r' = r.advance (8 * n) := by
  constructor
  · intro run
    by_cases held : 8 * n ≤ r.remaining
    · obtain ⟨found, rfl, next⟩ := exists_next held
      obtain ⟨rfl, rfl⟩ := (succeeds_readBytes_next found next).unique run
      refine ⟨rfl, ?_, rfl⟩
      rw [next, take_left' (length_octetBits found)]
    · have short : ¬ n ≤ r.remaining / 8 := by omega
      simp [readBytes, short] at run
  · rintro ⟨rfl, bits, rfl⟩
    have next : r.unread = octetBits octets ++ r.unread.drop (8 * octets.length) := by
      rw [bits, take_append_drop]
    exact succeeds_readBytes_next octets next

/-- A word read as zero is a word of zero bits. -/
theorem ofNat_valueOf_eq_zero {bs : List Bool} (narrow : bs.length ≤ 64) :
    UInt64.ofNat (valueOf bs) = 0 ↔ bs = List.replicate bs.length false := by
  have small : valueOf bs < 2 ^ 64 :=
    (valueOf_lt bs).trans_le (Nat.pow_le_pow_right (by decide) narrow)
  rw [← valueOf_eq_zero_iff, ← UInt64.toNat_inj, UInt64.toNat_ofNat_of_lt' small]
  rfl

/-- Padding is skipped exactly if all of it is there and zero. -/
theorem succeeds_skipPadding :
    Succeeds (skipPadding n) r () r' ↔
      r.unread.take n = List.replicate n false ∧ r' = r.advance n := by
  induction n using Nat.strongRecOn generalizing r with
  | ind n ih =>
    unfold skipPadding
    split
    next none =>
      subst none
      simp [eq_comm]
    next some =>
      have less : n - min n 64 < n := by omega
      have parts : n = min n 64 + (n - min n 64) := by omega
      have zeros : List.replicate n false =
          List.replicate (min n 64) false ++ List.replicate (n - min n 64) false := by
        rw [replicate_append_replicate, ← parts]
      have halves : r.unread.take n =
          r.unread.take (min n 64) ++ (r.unread.drop (min n 64)).take (n - min n 64) := by
        rw [← take_add, ← parts]
      simp only [succeeds_bind, succeeds_readBits, succeeds_ite, succeeds_throw, ih _ less]
      constructor
      · rintro ⟨v, r₁, ⟨narrow, held, rfl, rfl⟩, rest⟩
        rw [remaining_eq] at held
        split at rest
        next => simp at rest
        next isZero =>
          obtain ⟨later, rfl⟩ := rest
          rw [bne_iff_ne, not_not, ofNat_valueOf_eq_zero (by simp),
            length_take_of_le held] at isZero
          rw [unread_advance] at later
          rw [halves, zeros, isZero, later, advance_advance, ← parts]
          exact ⟨rfl, rfl⟩
      · rintro ⟨all, rfl⟩
        have held : n ≤ r.unread.length := by
          have len := congrArg List.length all
          rw [length_take, length_replicate] at len
          omega
        rw [halves, zeros] at all
        obtain ⟨first, later⟩ := append_inj all (by simp; omega)
        have isZero : UInt64.ofNat (valueOf (r.unread.take (min n 64))) = 0 := by
          rw [first, valueOf_replicate_false]
          rfl
        refine ⟨_, _, ⟨by omega, by rw [remaining_eq]; omega, rfl, rfl⟩, ?_⟩
        rw [isZero, if_neg (by simp), unread_advance, advance_advance, ← parts]
        exact ⟨later, rfl⟩

end BitReader

end BitSchema
