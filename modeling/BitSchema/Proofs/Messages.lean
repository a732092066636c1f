import BitSchema.Codec.Message
import BitSchema.Proofs.DecoderFuel
import BitSchema.Proofs.RoundTrip

/-!
# Messages in a stream

Whole messages are values of an encoding that refers to them, so what holds of values holds of
messages.  The main statement is `decode_encode`: a message that was written somewhere in a stream
is read back from there, against the same baseline and whatever comes after it.
-/

namespace BitSchema.Codec

open List
open Ir (Encoding)

/-- The encoding of a message by its full name. -/
def embed (d : Ir.Descriptor) : Encoding :=
  { wire := .embedded, native := { kind := .message, descriptor := some d } }

variable {schema : Ir.Schema} {d : Ir.Descriptor} {values bases : Fields}

theorem throughout_embed {p : Encoding → Prop} (here : p (embed d)) : (embed d).Throughout p := by
  intro level mem
  rw [Encoding.levels_eq, Ir.NativeType.parts_eq] at mem
  simp only [embed, Ir.partLevels_none, append_nil, mem_singleton] at mem
  exact mem ▸ here

theorem formed_embed (d : Ir.Descriptor) : (embed d).Throughout Encoding.Fits := by
  refine throughout_embed ⟨⟨?_, ?_, ?_⟩, ?_, ?_, ?_, ?_, ?_⟩ <;>
    simp [embed, Ir.NativeKind.exact, Ir.WireFormat.embedded]

@[simp] theorem padding_embed (d : Ir.Descriptor) : padding (embed d) = 0 := rfl

/-! ## Messages as values -/

theorem succeeds_encode {w w' : BitWriter} :
    Succeeds (encode schema d values bases) w () w' ↔
      Succeeds (encodeValue schema (encodeFuel schema values + 1) (embed d) (.message values)
        (.message bases)) w () w' := by
  have body : Succeeds (encodeValue schema (encodeFuel schema values + 1) (embed d)
      (.message values) (.message bases)) w () w' ↔
      Succeeds (encodeBody schema (encodeValue schema (encodeFuel schema values)) (embed d)
        (.message values) (.message bases)) w () w' := by
    rw [encodeValue, succeeds_encodeWith]
    simp [embed]
  rw [body, succeeds_encodeBody_message rfl]
  unfold encode
  rcases found : schema.findMessage d with ⟨⟨⟩⟩ | _ | m
  · simp [embed, found]
  · simp [embed, found]
  · simp [embed, found, Value.asFields?]

variable {v : Value} {r r' : BitReader} {data : Array UInt8}

theorem succeeds_decode :
    Succeeds (decode schema d bases) r v r' ↔
      Succeeds (decodeValue schema (decodeFuel schema r.remaining + 1) (embed d) (.message bases))
        r v r' := by
  have body : Succeeds (decodeValue schema (decodeFuel schema r.remaining + 1) (embed d)
      (.message bases)) r v r' ↔
      Succeeds (decodeBody schema (decodeValue schema (decodeFuel schema r.remaining)) (embed d)
        (.message bases)) r v r' := by
    rw [decodeValue, succeeds_decodeWith]
    simp
  rw [body, succeeds_decodeBody_message rfl]
  unfold decode
  rcases found : schema.findMessage d with ⟨⟨⟩⟩ | _ | m
  · simp [embed, found]
  · simp [embed, found]
  · simp [embed, found, Value.asFields?]

/-- The fuel of `decode` is no restriction. -/
theorem succeeds_decode_iff (codable : schema.Codable) :
    Succeeds (decode schema d bases) r v r' ↔
      ∃ fuel, Succeeds (decodeValue schema fuel (embed d) (.message bases)) r v r' := by
  constructor
  · intro ok
    exact ⟨_, succeeds_decode.mp ok⟩
  · intro ⟨fuel, ok⟩
    refine succeeds_decode.mpr
      (decodeValue_enough (fun e mem => (codable.enums e mem).discriminant.1) ok ?_)
    have room := reserve_le schema (embed d)
    rw [decodeFuel, BitReader.remaining_eq, Nat.succ_mul]
    omega

/-! ## Messages as bytes -/

theorem marshal_ok_iff :
    marshal schema d values = .ok data ↔
      ∃ w, Succeeds (encode schema d values []) BitWriter.empty () w ∧ w.align.toBytes = data := by
  have unfolded : marshal schema d values =
      match outcome (encode schema d values []) BitWriter.empty with
      | (.error fault, _) => .error fault
      | (.ok (), w) => .ok w.align.toBytes := rfl
  rw [unfolded]
  unfold Succeeds
  rcases outcome (encode schema d values []) BitWriter.empty with ⟨fault | _, w⟩
  · simp
  · simp

theorem succeeds_whole :
    Succeeds (whole schema d) r v r' ↔
      ∃ r₁, Succeeds (decode schema d []) r v r₁ ∧ r₁.unread.length < 8 ∧
        r₁.unread = List.replicate r₁.unread.length false ∧
        r' = r₁.advance r₁.unread.length := by
  simp only [whole, succeeds_bind, succeeds_get, succeeds_ite, Decoder.succeeds_fail,
    Decoder.succeeds_ofRead, BitReader.succeeds_skipPadding, BitReader.remaining_eq, succeeds_pure,
    exists_unit_iff]
  grind

/-- Bytes stand for a message if they hold it and then fewer than eight zeros. -/
theorem unmarshal_ok_iff :
    unmarshal schema d data = .ok v ↔
      ∃ r, Succeeds (decode schema d []) ⟨data, 0⟩ v r ∧ r.unread.length < 8 ∧
        r.unread = List.replicate r.unread.length false := by
  have run : unmarshal schema d data = .ok v ↔ ∃ r, Succeeds (whole schema d) ⟨data, 0⟩ v r := by
    have unfolded : unmarshal schema d data = (outcome (whole schema d) ⟨data, 0⟩).1 := rfl
    rw [unfolded]
    unfold Succeeds
    rcases outcome (whole schema d) ⟨data, 0⟩ with ⟨result, r⟩
    simp
  rw [run]
  simp only [succeeds_whole]
  constructor
  · intro ⟨_, r, read, few, zeros, _⟩
    exact ⟨r, read, few, zeros⟩
  · intro ⟨r, read, few, zeros⟩
    exact ⟨_, r, read, few, zeros, rfl⟩

/-! ## Round trips -/

/-- What the decoder makes of a message that was written: it reads it exactly if it is readable. -/
theorem recovers_message (codable : schema.Codable) {w w' : BitWriter} (sound : w.Sound)
    (written : Succeeds (encode schema d values bases) w () w') :
    ∃ bs, Appended w w' bs ∧ (∃ v', ReadsBackAs schema (embed d) (.message values) v') ∧
      Recovers (fun v' r r' => Succeeds (decode schema d bases) r v' r') bs
        (Readable schema (embed d) (.message values))
        (ReadsBackAs schema (embed d) (.message values)) := by
  have ok := succeeds_encode.mp written
  have mirrors := fun more => mirrors_value codable (Nat.le_max_left _ more) _ _ _ _ _
    (formed_embed d) sound ok
  obtain ⟨bs, appended, some, -⟩ := mirrors 0
  refine ⟨bs, appended, some, ?_⟩
  intro r rest unread v' r'
  have reads : ∀ more, Succeeds (decodeValue schema (max (encodeFuel schema values + 1) more)
      (embed d) (.message bases)) r v' r' ↔
        Readable schema (embed d) (.message values) ∧
          ReadsBackAs schema (embed d) (.message values) v' ∧ r' = r.advance bs.length := by
    intro more
    obtain ⟨bs', appended', -, reads⟩ := mirrors more
    obtain rfl := appended.unique appended'
    exact reads r rest unread v' r'
  beta_reduce
  rw [succeeds_decode_iff codable]
  constructor
  · intro ⟨fuel, read⟩
    exact (reads fuel).mp (decodeValue_mono (Nat.le_max_right _ fuel) read)
  · intro back
    exact ⟨_, (reads 0).mpr back⟩

/-- The bytes of a message stand for what it reads back as, and for nothing if it is not
readable. -/
theorem unmarshal_of_marshal (codable : schema.Codable) (ok : marshal schema d values = .ok data) :
    unmarshal schema d data = .ok v ↔ Readable schema (embed d) (.message values) ∧
      ReadsBackAs schema (embed d) (.message values) v := by
  obtain ⟨w, written, rfl⟩ := marshal_ok_iff.mp ok
  obtain ⟨bs, appended, -, reads⟩ := recovers_message codable BitWriter.sound_empty written
  obtain ⟨k, few, -, held⟩ := appended.sound.octetBits_align
  have unread : (⟨w.align.toBytes, 0⟩ : BitReader).unread = bs ++ List.replicate k false := by
    rw [BitReader.unread, held, appended.bits, BitWriter.bits_empty, drop_zero, nil_append]
  have read := reads _ _ unread v
  rw [unmarshal_ok_iff]
  constructor
  · rintro ⟨r, decoded, -⟩
    obtain ⟨readable, back, -⟩ := (read r).mp decoded
    exact ⟨readable, back⟩
  · rintro ⟨readable, back⟩
    refine ⟨_, (read _).mpr ⟨readable, back, rfl⟩, ?_⟩
    rw [unread_advance_append unread, length_replicate]
    exact ⟨few, rfl⟩

/-- A message written somewhere in a stream is read back from there: from any stream that holds what
the writer then held, with any bits after it.  It is read in the one form that its value has when it
is read back, and the reader stops where the writer stood. -/
theorem decode_encode (codable : schema.Codable) {w w' : BitWriter} (sound : w.Sound)
    (written : Succeeds (encode schema d values bases) w () w')
    (readable : Readable schema (embed d) (.message values)) {stream : Array UInt8}
    {rest : List Bool} (holds : octetBits stream.toList = w'.bits ++ rest) :
    ∃ v', (∀ u, ReadsBackAs schema (embed d) (.message values) u ↔ u = v') ∧
      Succeeds (decode schema d bases) ⟨stream, w.length⟩ v' ⟨stream, w'.length⟩ := by
  obtain ⟨bs, appended, ⟨v', back⟩, reads⟩ := recovers_message codable sound written
  have unread : (⟨stream, w.length⟩ : BitReader).unread = bs ++ rest := by
    rw [BitReader.unread, holds, appended.bits, append_assoc, ← w.length_bits]
    exact drop_left
  have stop : (⟨stream, w.length⟩ : BitReader).advance bs.length = ⟨stream, w'.length⟩ := by
    rw [BitReader.advance, ← w'.length_bits, appended.bits, length_append, w.length_bits]
  have read := fun u => reads _ rest unread u ⟨stream, w'.length⟩
  have first := (read v').mpr ⟨readable, back, stop.symm⟩
  refine ⟨v', fun u => ?_, first⟩
  constructor
  · intro other
    exact (((read u).mpr ⟨readable, other, stop.symm⟩).unique first).1
  · intro same
    rw [same]
    exact back

/-- A message in a message, with a number that is written against its baseline and padded. -/
def nestedSchema : Ir.Schema :=
  let reading : Encoding :=
    { wire := .ofBits 12, native := { kind := .int, bits := 16, signed := true },
      transforms := [.delta, .zigZag], paddingBits := some 3 }
  let inner : Ir.Message :=
    { name := "Inner", fields? := some [{ name := "n", encoding := reading }] }
  let outer : Ir.Message :=
    { name := "Outer", fields? := some [{ name := "inner", encoding := embed ⟨"p", [], "Inner"⟩ }] }
  { packages? := some [{ path := "p", messages? := some [outer, inner] }] }

theorem decode_encode_nested :
    ∃ v', (∀ u, ReadsBackAs nestedSchema (embed ⟨"p", [], "Outer"⟩)
        (.message [("inner", .message [("n", .int .int (-3))])]) u ↔ u = v') ∧
      Succeeds (decode nestedSchema ⟨"p", [], "Outer"⟩
        [("inner", .message [("n", .int .int 4)])]) ⟨#[181, 1, 112], 5⟩ v'
        ⟨#[181, 1, 112], 20⟩ := by
  have written : Succeeds (encode nestedSchema ⟨"p", [], "Outer"⟩
      [("inner", .message [("n", .int .int (-3))])]
      [("inner", .message [("n", .int .int 4)])]) ⟨#[], 21, 5⟩ () ⟨#[181, 1], 0, 4⟩ := by
    decide +kernel
  have readable : Readable nestedSchema (embed ⟨"p", [], "Outer"⟩)
      (.message [("inner", .message [("n", .int .int (-3))])]) := by
    rw [readable_message rfl rfl rfl rfl]
    intro outer mem
    obtain rfl := mem_singleton.mp mem
    rw [readable_message rfl rfl rfl rfl]
    intro inner mem
    obtain rfl := mem_singleton.mp mem
    exact readable_scalar (by decide)
  have holds : octetBits (#[181, 1, 112] : Array UInt8).toList =
      (⟨#[181, 1], 0, 4⟩ : BitWriter).bits ++ [true, true, true, false] := by
    decide +kernel
  exact decode_encode (by decide +kernel) ⟨by decide, by decide⟩ written readable holds

end BitSchema.Codec
