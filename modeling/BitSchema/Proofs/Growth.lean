import BitSchema.Proofs.EncoderSteps
import BitSchema.Proofs.WellFormed

/-!
# Growth of the writer

An encoder that succeeds only appends bits, whatever the schema is.  Where the wire format is of the
kind that the native type asks for, it appends at least `minEncodedBits`, which is what the decoder
counts on before it reads a collection.
-/

namespace BitSchema

open List

/-- The writer has gone on from `w` to `w'` by some bits. -/
structure Appended (w w' : BitWriter) (bs : List Bool) : Prop where
  sound : w'.Sound
  bits : w'.bits = w.bits ++ bs

namespace Appended

variable {w w' w'' : BitWriter} {bs bs' : List Bool}

theorem refl (sound : w.Sound) : Appended w w [] := ⟨sound, by simp⟩

theorem trans (first : Appended w w' bs) (second : Appended w' w'' bs') :
    Appended w w'' (bs ++ bs') :=
  ⟨second.sound, by rw [second.bits, first.bits, append_assoc]⟩

theorem unique (first : Appended w w' bs) (second : Appended w w' bs') : bs = bs' :=
  append_cancel_left (first.bits.symm.trans second.bits)

theorem writeBits (sound : w.Sound) (v n : Nat) : Appended w (w.writeBits v n) (bitsOf v n) :=
  ⟨sound.writeBits v n, sound.bits_writeBits v n⟩

theorem writeBytes (sound : w.Sound) (octets : List UInt8) :
    Appended w (w.writeBytes octets) (octetBits octets) :=
  ⟨(sound.writeBytes octets).1, (sound.writeBytes octets).2⟩

theorem pad (sound : w.Sound) (n : Nat) : Appended w (w.pad n) (List.replicate n false) :=
  ⟨sound.pad n, sound.bits_pad n⟩

end Appended

namespace Codec

open Ir (Encoding)
open Encoder (word)

variable {w w' : BitWriter}

/-! ## Words, lengths and octets -/

theorem appended_word (sound : w.Sound) {v : UInt64} {n : Nat}
    (ok : Succeeds (word v n) w () w') : Appended w w' (bitsOf v.toNat n) := by
  obtain ⟨-, rfl⟩ := succeeds_word.mp ok
  exact Appended.writeBits sound _ _

theorem appended_writeLength (sound : w.Sound) {enc : Encoding} {n : Nat}
    (ok : Succeeds (writeLength enc n) w () w') :
    Appended w w' (bitsOf n enc.wire.prefixBits.toNat) := by
  obtain ⟨-, -, rfl⟩ := succeeds_writeLength.mp ok
  exact Appended.writeBits sound _ _

theorem appended_writeOctets (sound : w.Sound) {enc : Encoding} {octets : List UInt8}
    (ok : Succeeds (writeOctets enc octets) w () w') :
    Appended w w' (bitsOf octets.length enc.wire.prefixBits.toNat ++ octetBits octets) := by
  obtain ⟨w₁, length, rfl⟩ := succeeds_writeOctets.mp ok
  have first := appended_writeLength sound length
  exact first.trans (Appended.writeBytes first.sound octets)

theorem appended_writeNumber (sound : w.Sound) {n : Number} {bits : Nat}
    (ok : Succeeds (writeNumber n bits) w () w') :
    Appended w w' (bitsOf (n.word bits).toNat bits) := by
  obtain ⟨-, -, rfl⟩ := succeeds_writeNumber.mp ok
  exact Appended.writeBits sound _ _

/-! ## Values -/

/-- The fewest bits that a value takes before its padding. -/
def leastBits (enc : Encoding) : Nat :=
  match enc.wire.kind with
  | .bits => enc.wire.bits.toNat
  | .lengthPrefixed => enc.wire.prefixBits.toNat
  | _ => 0

theorem minEncodedBits_eq (enc : Encoding) : minEncodedBits enc = leastBits enc + padding enc := rfl

/-- All that `recur` writes it appends, and that is no less than the decoder counts on. -/
def Grows (recur : Encoding → Value → Value → Encoder) : Prop :=
  ∀ enc v base w w', w.Sound → Succeeds (recur enc v base) w () w' →
    ∃ bs, Appended w w' bs ∧ (enc.Shaped → minEncodedBits enc ≤ bs.length)

section

variable {schema : Ir.Schema} {recur : Encoding → Value → Value → Encoder} {enc : Encoding}
  {v base : Value}

theorem Grows.appends (grows : Grows recur) (sound : w.Sound)
    (ok : Succeeds (recur enc v base) w () w') : ∃ bs, Appended w w' bs := by
  obtain ⟨bs, appended, -⟩ := grows _ _ _ _ _ sound ok
  exact ⟨bs, appended⟩

theorem Grows.item (grows : Grows recur) (sound : w.Sound) (ok : EncodesAs recur enc v w w') :
    ∃ bs, Appended w w' bs ∧ (enc.Shaped → minEncodedBits enc ≤ bs.length) :=
  grows _ _ _ _ _ sound ok

/-- Of an entry, the decoder counts on the key alone. -/
theorem Grows.entry (grows : Grows recur) {key value : Encoding} {entry : Value × Value}
    (sound : w.Sound) (ok : EncodesEntry recur key value entry w w') :
    ∃ bs, Appended w w' bs ∧ (key.Shaped → minEncodedBits key ≤ bs.length) := by
  obtain ⟨w₁, first, second⟩ := ok
  obtain ⟨bs, head, enough⟩ := grows.item sound first
  obtain ⟨bs', tail, -⟩ := grows.item head.sound second
  refine ⟨bs ++ bs', head.trans tail, fun shaped => ?_⟩
  have := enough shaped
  rw [length_append]
  omega

/-- Elements that append at least so many bits each append at least so many times as many. -/
theorem appended_threaded {α : Type} {step : α → BitWriter → BitWriter → Prop} {shaped : Prop}
    {least : Nat} (steps : ∀ {a w w'}, w.Sound → step a w w' →
      ∃ bs, Appended w w' bs ∧ (shaped → least ≤ bs.length))
    {as : List α} (sound : w.Sound) (ok : Threaded step as w w') :
    ∃ bs, Appended w w' bs ∧ (shaped → least * as.length ≤ bs.length) := by
  induction as generalizing w with
  | nil =>
    obtain rfl := threaded_nil.mp ok
    exact ⟨[], Appended.refl sound, by simp⟩
  | cons a as ih =>
    obtain ⟨w₁, first, rest⟩ := threaded_cons.mp ok
    obtain ⟨bs, head, enough⟩ := steps sound first
    obtain ⟨bs', tail, more⟩ := ih head.sound rest
    refine ⟨bs ++ bs', head.trans tail, fun shaped => ?_⟩
    have := enough shaped
    have := more shaped
    rw [length_cons, length_append, Nat.mul_succ]
    omega

theorem Grows.fields (grows : Grows recur) {values bases : List (String × Value)}
    {fs : List Ir.Field} (sound : w.Sound)
    (ok : Threaded (EncodesField recur values bases) fs w w') : ∃ bs, Appended w w' bs := by
  have steps : ∀ {f : Ir.Field} {w w' : BitWriter}, w.Sound →
      EncodesField recur values bases f w w' →
      ∃ bs, Appended w w' bs ∧ (True → 0 ≤ bs.length) := by
    intro f w w' sound ok
    obtain ⟨bs, appended⟩ := grows.appends sound ok
    exact ⟨bs, appended, fun _ => Nat.zero_le _⟩
  obtain ⟨bs, appended, -⟩ := appended_threaded steps sound ok
  exact ⟨bs, appended⟩

theorem Grows.enum (grows : Grows recur) {d : Ir.Descriptor} (sound : w.Sound)
    (ok : Succeeds (encodeEnum schema recur enc d v) w () w') : ∃ bs, Appended w w' bs := by
  obtain ⟨e, name, payload, variant, w₁, -, -, -, index, rest⟩ := succeeds_encodeEnum.mp ok
  have first := appended_word sound index
  cases field : variant.field with
  | none =>
    simp only [field] at rest
    obtain ⟨-, rfl⟩ := rest
    exact ⟨_, first⟩
  | some f =>
    simp only [field] at rest
    obtain ⟨bs, second⟩ := grows.appends first.sound rest
    exact ⟨_, first.trans second⟩

/-! ### Lower bounds by wire format -/

section

variable (kind : enc.native.kind ∈ [.bool, .int, .float])

include kind

/-- A truth value or number is written as one word. -/
theorem appended_one (sound : w.Sound)
    (ok : Succeeds (encodeBody schema recur enc v base) w () w') :
    ∃ n, Appended w w' (bitsOf n enc.wire.bits.toNat) := by
  simp only [mem_cons, not_mem_nil, or_false] at kind
  rcases kind with kind | kind
  · obtain ⟨b, -, written⟩ := (succeeds_encodeBody_bool kind).mp ok
    exact ⟨_, appended_word sound written⟩
  · obtain ⟨n, -, written⟩ := succeeds_encodeNumber.mp ((succeeds_encodeBody_number kind).mp ok)
    exact ⟨_, appended_writeNumber sound written⟩

theorem leastBits_scalar (shaped : enc.Shaped) : leastBits enc = enc.wire.bits.toNat := by
  rw [leastBits, shaped.scalar kind]

theorem appended_scalar (sound : w.Sound)
    (ok : Succeeds (encodeBody schema recur enc v base) w () w') :
    ∃ bs, Appended w w' bs ∧ (enc.Shaped → leastBits enc ≤ bs.length) := by
  obtain ⟨n, written⟩ := appended_one kind sound ok
  refine ⟨_, written, fun shaped => ?_⟩
  rw [leastBits_scalar kind shaped, length_bitsOf]

end

/-- What is counted or measured begins with its length. -/
theorem appended_prefixed (kind : enc.native.kind ∈ [.string, .bytes, .array, .map]) {n : Nat}
    {bs : List Bool} (written : Appended w w' (bitsOf n enc.wire.prefixBits.toNat ++ bs)) :
    ∃ bs, Appended w w' bs ∧ (enc.Shaped → leastBits enc ≤ bs.length) := by
  refine ⟨_, written, fun shaped => ?_⟩
  simp [leastBits, shaped.collection kind, length_bitsOf]

theorem appended_reference (kind : enc.native.kind ∈ [.message, .enum])
    (written : ∃ bs, Appended w w' bs) :
    ∃ bs, Appended w w' bs ∧ (enc.Shaped → leastBits enc ≤ bs.length) := by
  obtain ⟨bs, appended⟩ := written
  refine ⟨bs, appended, fun shaped => ?_⟩
  simp [leastBits, shaped.reference kind]

theorem Grows.body (grows : Grows recur) (sound : w.Sound)
    (ok : Succeeds (encodeBody schema recur enc v base) w () w') :
    ∃ bs, Appended w w' bs ∧ (enc.Shaped → leastBits enc ≤ bs.length) := by
  cases kind : enc.native.kind with
  | bool | int | float => exact appended_scalar (by simp [kind]) sound ok
  | string =>
    obtain ⟨octets, -, written⟩ := (succeeds_encodeBody_string kind).mp ok
    exact appended_prefixed (by simp [kind]) (appended_writeOctets sound written)
  | bytes =>
    obtain ⟨octets, -, written⟩ := (succeeds_encodeBody_bytes kind).mp ok
    exact appended_prefixed (by simp [kind]) (appended_writeOctets sound written)
  | array =>
    obtain ⟨items, w₁, -, length, rest⟩ := (succeeds_encodeBody_array kind).mp ok
    have first := appended_writeLength sound length
    rcases rest with ⟨-, rfl⟩ | ⟨element, -, rest⟩
    · exact appended_prefixed (by simp [kind]) (first.trans (.refl first.sound))
    · obtain ⟨bs, second, -⟩ := appended_threaded grows.item first.sound rest
      exact appended_prefixed (by simp [kind]) (first.trans second)
  | map =>
    obtain ⟨entries, w₁, -, length, rest⟩ := (succeeds_encodeBody_map kind).mp ok
    have first := appended_writeLength sound length
    rcases rest with ⟨-, rfl⟩ | ⟨key, value, -, -, rest⟩
    · exact appended_prefixed (by simp [kind]) (first.trans (.refl first.sound))
    · obtain ⟨bs, second, -⟩ := appended_threaded grows.entry first.sound rest
      exact appended_prefixed (by simp [kind]) (first.trans second)
  | message =>
    obtain ⟨d, m, values, -, -, -, written⟩ := (succeeds_encodeBody_message kind).mp ok
    obtain ⟨-, rest⟩ := succeeds_encodeMessage.mp written
    exact appended_reference (by simp [kind]) (grows.fields sound rest)
  | enum =>
    obtain ⟨d, -, written⟩ := (succeeds_encodeBody_enum kind).mp ok
    exact appended_reference (by simp [kind]) (grows.enum sound written)
  | other name => exact ((succeeds_encodeBody_other kind).mp ok).elim

/-- The padding is as many zeros after the body. -/
theorem appended_padding (ok : Succeeds (encodeWith schema recur enc v base) w () w') :
    ∃ w₁, Succeeds (encodeBody schema recur enc v base) w () w₁ ∧
      ∀ bs, Appended w w₁ bs → Appended w w' (bs ++ List.replicate (padding enc) false) := by
  obtain ⟨w₁, body, rfl⟩ := succeeds_encodeWith.mp ok
  refine ⟨w₁, body, fun bs first => ?_⟩
  unfold padding
  cases enc.paddingBits with
  | none => simpa using first
  | some n => exact first.trans (Appended.pad first.sound n.toNat)

end

/-- Writing a value adds at least the bits that are counted on. -/
theorem grows_encodeValue (schema : Ir.Schema) (fuel : Nat) : Grows (encodeValue schema fuel) := by
  induction fuel with
  | zero =>
    intro enc v base w w' sound ok
    exact (succeeds_fail.mp ok).elim
  | succ fuel ih =>
    intro enc v base w w' sound ok
    obtain ⟨w₁, body, padded⟩ := appended_padding ok
    obtain ⟨bs, first, enough⟩ := ih.body sound body
    refine ⟨_, padded bs first, fun shaped => ?_⟩
    have := enough shaped
    rw [minEncodedBits_eq, length_append, length_replicate]
    omega

end Codec

end BitSchema
