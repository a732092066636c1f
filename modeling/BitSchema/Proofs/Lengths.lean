import BitSchema.Encoding.Lowering
import BitSchema.Proofs.ReadOutcomes

/-!
# Lengths and counts

The prefix of a length is as narrow as the greatest length allows, and a length is written and read
back exactly if it fits (`lengths_of_bitsVar`).  Before the decoder reads as many elements as a
count says, it looks whether the data can hold so many.  It never refuses what the encoder wrote for
want of data, since every element takes at least the bits it counts on (`counts_of_encodeValue`).
-/

namespace BitSchema

open List
open Ir (Encoding)

/-! ## Prefixes -/

/-- A prefix for lengths up to the greatest word is the narrowest that holds the last of them. -/
theorem isLeast_lengthPrefixBits (n : UInt64) :
    IsLeast {width | 8 ≤ width ∧ n.toNat < 2 ^ width} (lengthPrefixBits n.toNat) ∧
      lengthPrefixBits n.toNat ≤ 64 := by
  simp only [lengthPrefixBits, ← bitLength_le_iff]
  refine ⟨⟨⟨le_max_left .., le_max_right ..⟩, fun width wide => max_le wide.1 wide.2⟩, ?_⟩
  exact max_le (by decide) (bitLength_le_iff.mpr n.toNat_lt)

namespace Codec

variable {w w' : BitWriter} {r : BitReader} {enc : Encoding} {n : Nat}

theorem fails_writeLength (narrow : enc.wire.prefixBits.toNat ≤ 64) {fault : Fault} :
    Fails (writeLength enc n) w fault w' ↔ 2 ^ enc.wire.prefixBits.toNat ≤ n ∧
      fault = { cause := .longLength n enc.wire.prefixBits.toNat } ∧ w' = w := by
  by_cases fits : n < 2 ^ enc.wire.prefixBits.toNat
  · have ok : Succeeds (writeLength enc n) w () _ := succeeds_writeLength.mpr ⟨narrow, fits, rfl⟩
    simp [ok.not_fails, Nat.not_le.mpr fits]
  · have refused : writeLength enc n =
        Encoder.fail (.longLength n enc.wire.prefixBits.toNat) := by
      refine if_neg fun both => fits ?_
      have held := (Word.fitsUnsigned_iff narrow).mp both.2
      rwa [UInt64.toNat_ofNat_of_lt' both.1] at held
    rw [refused, Encoder.fail, fails_throw]
    simp [Nat.not_lt.mp fits, eq_comm]

/-- Lengths under a directive that names the greatest one.  It sets the least prefix of at least
eight bits that holds this length; shorter lengths are written, those that do not fit the prefix are
out of range and nothing is written, and all others are read back from the bits of the prefix. -/
theorem lengths_of_bitsVar {lowered : Encoding} {most : UInt64} {p : Nat}
    (directed : lowered = Directive.apply enc (.bitsVar most))
    (width : p = lengthPrefixBits most.toNat) (sound : w.Sound) (l : UInt64) :
    (∀ table scope f d, Lowering.typeEncoding table scope f.type = .ok enc →
      enc.wire.kind ≠ .embedded → f.directives = [d] → Directive.ofSource d = .ok (.bitsVar most) →
      Lowering.fieldEncoding table scope f = .ok lowered) ∧
    IsLeast {width | 8 ≤ width ∧ most.toNat < 2 ^ width} p ∧ p ≤ 64 ∧
    (l ≤ most → ∃ w', Succeeds (writeLength lowered l.toNat) w () w') ∧
    (∀ fault w', Fails (writeLength lowered l.toNat) w fault w' ↔
      2 ^ p ≤ l.toNat ∧ fault = { cause := .longLength l.toNat p } ∧ w' = w) ∧
    (Cause.longLength l.toNat p).faultClass = .outOfRange ∧
    (l.toNat < 2 ^ p → ∃ w', Succeeds (writeLength lowered l.toNat) w () w' ∧
      Appended w w' (bitsOf l.toNat p) ∧ ∀ r rest, r.unread = bitsOf l.toNat p ++ rest →
        Succeeds (BitReader.readBits p) r l (r.advance p)) := by
  obtain ⟨least, narrow⟩ := isLeast_lengthPrefixBits most
  rw [← width] at least narrow
  have bits : lowered.wire.prefixBits.toNat = p := by
    rw [directed, width]
    exact UInt32.toNat_ofNat_of_lt' (by change _ < 2 ^ 32; omega)
  have writes (fits : l.toNat < 2 ^ p) : ∃ w', Succeeds (writeLength lowered l.toNat) w () w' :=
    ⟨_, succeeds_writeLength.mpr ⟨by rwa [bits], by rwa [bits], rfl⟩⟩
  refine ⟨fun table scope f d type direct one means => ?_, least, narrow, fun few => writes ?_,
    fun fault w' => ?_, rfl, fun fits => ?_⟩
  · simp [Lowering.fieldEncoding, type, direct, one, means, directed, bind, Except.bind, pure,
      Except.pure, Except.toOption]
  · exact (UInt64.le_iff_toNat_le.mp few).trans_lt least.1.2
  · rw [fails_writeLength (by rwa [bits]), bits]
  · obtain ⟨w', ok⟩ := writes fits
    have appended := appended_writeLength sound ok
    rw [bits] at appended
    refine ⟨w', ok, appended, fun r rest next =>
      BitReader.succeeds_readBits.mpr ⟨narrow, ?_, ?_, rfl⟩⟩
    · simp [BitReader.remaining_eq, next]
    · rw [next, take_left' (length_bitsOf _ _), valueOf_bitsOf, Nat.mod_eq_of_lt fits,
        UInt64.ofNat_toNat]

/-- Lengths up to one that needs a ninth bit, and the first that does not fit. -/
theorem lengths_of_bitsVar_ninth :
    lengthPrefixBits 256 = 9 ∧
      Fails (writeLength (Directive.apply Source.Scalar.string.encoding (.bitsVar 256)) 512) .empty
        { cause := .longLength 512 9 } .empty ∧
      ∃ w', Succeeds
        (writeLength (Directive.apply Source.Scalar.string.encoding (.bitsVar 256)) 511)
        .empty () w' ∧ Appended .empty w' (bitsOf 511 9) := by
  have width : 9 = lengthPrefixBits (256 : UInt64).toNat := by decide
  obtain ⟨-, -, -, -, fails, -⟩ := lengths_of_bitsVar rfl width BitWriter.sound_empty 512
  obtain ⟨-, -, -, -, -, -, reads⟩ := lengths_of_bitsVar rfl width BitWriter.sound_empty 511
  obtain ⟨w', ok, appended, -⟩ := reads (by decide)
  exact ⟨width.symm, (fails _ _).mpr ⟨by decide, rfl, rfl⟩, w', ok, appended⟩

/-! ## Counts -/

/-- The count of elements is read, unless there are too many of those that may take no bits. -/
def Counts (enc element : Encoding) (n : Nat) (r : BitReader) : Prop :=
  outcome (readCount enc element) r =
    (if minEncodedBits element = 0 ∧ maxEmptyElements < n then
      .error { cause := .manyElements n } else .ok n, r.advance enc.wire.prefixBits.toNat)

theorem counts_of_held {element : Encoding} {bs rest : List Bool}
    (narrow : enc.wire.prefixBits.toNat ≤ 64) (fits : n < 2 ^ enc.wire.prefixBits.toNat)
    (unread : r.unread = bitsOf n enc.wire.prefixBits.toNat ++ (bs ++ rest))
    (held : minEncodedBits element * n ≤ bs.length) : Counts enc element n r := by
  have small := fits.trans_le (Nat.pow_le_pow_right (by decide) narrow)
  have value : (UInt64.ofNat n).toNat = n := UInt64.toNat_ofNat_of_lt' small
  have word := recovers_readWord_of_lt narrow fits r _ unread (UInt64.ofNat n) _ |>.mpr
    ⟨trivial, value, rfl⟩
  have after := unread_advance_append unread
  rw [length_bitsOf] at word after
  rw [Counts]
  split
  next many =>
    have first : Succeeds (UInt64.toNat <$> readWord enc.wire.prefixBits) r n _ :=
      succeeds_map.mpr ⟨_, word, value⟩
    refine fails_bind.mpr (.inr ⟨n, _, first, ?_⟩)
    refine fails_bind.mpr (.inr ⟨_, _, succeeds_get.mpr ⟨rfl, rfl⟩, ?_⟩)
    rw [if_neg (by omega), if_pos many.2]
    exact fails_throw.mpr ⟨rfl, rfl⟩
  next few =>
    refine succeeds_readCount.mpr ⟨_, word, value, (countHeld_iff after held).mpr fun none => ?_⟩
    exact Nat.not_lt.mp fun many => few ⟨none, many⟩

/-- A count and as many elements that each take what is counted on. -/
theorem counts_of_threaded {α : Type} {element : Encoding}
    {write : α → BitWriter → BitWriter → Prop} {as : List α} {w₁ : BitWriter}
    (grows : ∀ {a w w'}, w.Sound → write a w w' →
      ∃ bs, Appended w w' bs ∧ (element.Shaped → minEncodedBits element ≤ bs.length))
    (shaped : element.Shaped) (sound : w.Sound)
    (length : Succeeds (writeLength enc as.length) w () w₁) (run : Threaded write as w₁ w') :
    ∃ bs, Appended w w' bs ∧ ∀ r rest, r.unread = bs ++ rest → Counts enc element as.length r := by
  obtain ⟨narrow, fits, -⟩ := succeeds_writeLength.mp length
  have head := appended_writeLength sound length
  obtain ⟨bs, tail, enough⟩ := appended_threaded grows head.sound run
  refine ⟨_, head.trans tail, fun r rest unread => ?_⟩
  rw [append_assoc] at unread
  exact counts_of_held narrow fits unread (enough shaped)

/-- What the encoder writes is no less than the decoder counts on, and for truth values and numbers
it is just that.  So a count with that many elements or entries after it is never refused for want
of data, whatever follows. -/
theorem counts_of_encodeValue (schema : Ir.Schema) (fuel : Nat) (sound : w.Sound) :
    (∀ enc v base w', enc.Shaped → Succeeds (encodeValue schema fuel enc v base) w () w' →
      ∃ bs, Appended w w' bs ∧ minEncodedBits enc ≤ bs.length ∧
        (enc.native.kind ∈ [.bool, .int, .float] → bs.length = minEncodedBits enc)) ∧
    (∀ enc element items w₁ w', element.Shaped → Succeeds (writeLength enc items.length) w () w₁ →
      Threaded (EncodesAs (encodeValue schema fuel) element) items w₁ w' →
      ∃ bs, Appended w w' bs ∧
        ∀ r rest, r.unread = bs ++ rest → Counts enc element items.length r) ∧
    ∀ enc key value entries w₁ w', key.Shaped → Succeeds (writeLength enc entries.length) w () w₁ →
      Threaded (EncodesEntry (encodeValue schema fuel) key value) entries w₁ w' →
      ∃ bs, Appended w w' bs ∧
        ∀ r rest, r.unread = bs ++ rest → Counts enc key entries.length r := by
  have grows := grows_encodeValue schema fuel
  refine ⟨fun enc v base w' shaped ok => ?_, fun enc element items w₁ w' shaped length run => ?_,
    fun enc key value entries w₁ w' shaped length run => ?_⟩
  · obtain ⟨bs, appended, enough⟩ := grows _ _ _ _ _ sound ok
    refine ⟨bs, appended, enough shaped, fun kind => ?_⟩
    cases fuel with
    | zero => exact (succeeds_fail.mp ok).elim
    | succ fuel =>
      obtain ⟨w₁, body, padded⟩ := appended_padding ok
      obtain ⟨n, one⟩ := appended_one kind sound body
      rw [appended.unique (padded _ one), minEncodedBits_eq, leastBits_scalar kind shaped,
        length_append, length_bitsOf, length_replicate]
  · exact counts_of_threaded grows.item shaped sound length run
  · exact counts_of_threaded grows.entry shaped sound length run

/-- Two octets after their count. -/
theorem counts_of_encodeValue_pair :
    ∃ bs, Appended .empty ⟨#[2, 7, 255], 0, 0⟩ bs ∧ ∀ r rest, r.unread = bs ++ rest →
      Counts { wire := .lengthPrefixed 8,
               native := { kind := .array, element := some Source.Scalar.u8.encoding } }
        Source.Scalar.u8.encoding 2 r := by
  obtain ⟨-, counted, -⟩ := counts_of_encodeValue {} 1 BitWriter.sound_empty
  refine counted _ _ [.int .int 7, .int .int 255] ⟨#[2], 0, 0⟩ _ (by decide) (by decide +kernel)
    ⟨⟨#[2, 7], 0, 0⟩, ?_, _, ?_, rfl⟩
  · unfold EncodesAs
    decide +kernel
  · unfold EncodesAs
    decide +kernel

end Codec

end BitSchema
