import BitSchema.Proofs.EncoderSteps

/-!
# Inverting the decoder

What a successful step of the decoder did, by the kind of the encoding: the counterpart of the
inversion of the encoder.
-/

namespace BitSchema.Codec

open Ir (Encoding)
open Decoder (fail under ofRead repeated repeatedFrom)

variable {α : Type} {r r' : BitReader}

/-! ## Words, lengths and numbers -/

variable {a : α} {enc : Encoding} {n : Nat} {f : Nat → Decoder α}
  {step : α → BitReader → BitReader → Prop} {as : List α}

@[simp] theorem Decoder.succeeds_fail {cause : Cause} :
    Succeeds (fail cause : Decoder α) r a r' ↔ False :=
  succeeds_throw

@[simp] theorem Decoder.succeeds_under {step : Step} {d : Decoder α} :
    Succeeds (under step d) r a r' ↔ Succeeds d r a r' :=
  succeeds_adapt

@[simp] theorem Decoder.succeeds_ofRead {s : BitReader.Step α} :
    Succeeds (ofRead s) r a r' ↔ Succeeds s r a r' :=
  succeeds_adapt

theorem succeeds_readWord {n : UInt32} {v : UInt64} :
    Succeeds (readWord n) r v r' ↔
      n.toNat ≤ 64 ∧ n.toNat ≤ r.unread.length ∧
        v = UInt64.ofNat (valueOf (r.unread.take n.toNat)) ∧ r' = r.advance n.toNat := by
  rw [readWord, Decoder.succeeds_ofRead, BitReader.succeeds_readBits, BitReader.remaining_eq]

/-- This many elements can still come. -/
def CountHeld (element : Encoding) (n : Nat) (r : BitReader) : Prop :=
  if 0 < minEncodedBits element then n ≤ r.unread.length / minEncodedBits element
  else n ≤ maxEmptyElements

theorem succeeds_readCount {element : Encoding} :
    Succeeds (readCount enc element) r n r' ↔
      ∃ v : UInt64, Succeeds (readWord enc.wire.prefixBits) r v r' ∧ v.toNat = n ∧
        CountHeld element n r' := by
  simp only [readCount, succeeds_bind, succeeds_map, succeeds_get, succeeds_ite,
    Decoder.succeeds_fail, succeeds_pure, CountHeld, BitReader.remaining_eq]
  grind

theorem succeeds_readOctets {octets : List UInt8} :
    Succeeds (readOctets enc) r octets r' ↔
      ∃ n r₁, Succeeds (readWord enc.wire.prefixBits) r n r₁ ∧ octets.length = n.toNat ∧
        octetBits octets = r₁.unread.take (8 * n.toNat) ∧ r' = r₁.advance (8 * n.toNat) := by
  simp only [readOctets, succeeds_bind, Decoder.succeeds_ofRead, BitReader.succeeds_readBytes]

theorem succeeds_decodeNumber {base v : Value} :
    Succeeds (decodeNumber enc base) r v r' ↔
      ∃ last bases raw n, prepared enc base = .ok (last, bases) ∧
        Succeeds (readWord enc.wire.bits) r raw r' ∧
        ofWord last raw enc.wire.bits.toNat = .ok n ∧
        v = (unrun enc.transforms bases n).toValue := by
  unfold decodeNumber
  split
  next fault eq => simp [eq]
  next last bases eq =>
    simp only [eq, succeeds_bind]
    constructor
    · rintro ⟨raw, r₁, read, rest⟩
      cases word : ofWord last raw enc.wire.bits.toNat with
      | error cause => simp [word] at rest
      | ok n =>
        simp only [word, succeeds_pure] at rest
        obtain ⟨rfl, rfl⟩ := rest
        exact ⟨last, bases, raw, n, rfl, read, word, rfl⟩
    · rintro ⟨_, _, raw, n, ⟨⟩, read, word, rfl⟩
      refine ⟨raw, r', read, ?_⟩
      simp [word]

/-! ## Collections and fields -/

theorem succeeds_repeatedFrom (steps : ∀ i a r r', Succeeds (f i) r a r' ↔ step a r r') {i : Nat}
    {done : List α} :
    Succeeds (repeatedFrom f i n done) r as r' ↔
      ∃ later, as = done.reverse ++ later ∧ later.length = n ∧ Threaded step later r r' := by
  induction n generalizing i done r with
  | zero =>
    simp only [repeatedFrom, succeeds_pure, List.length_eq_zero_iff]
    constructor
    · rintro ⟨rfl, rfl⟩
      exact ⟨[], by simp⟩
    · rintro ⟨_, rfl, rfl, rfl⟩
      simp
  | succ n ih =>
    simp only [repeatedFrom, succeeds_bind, steps, ih]
    constructor
    · rintro ⟨a, r₁, first, later, rfl, len, rest⟩
      exact ⟨a :: later, by simp, by simp [len], r₁, first, rest⟩
    · rintro ⟨later, rfl, len, rest⟩
      obtain ⟨a, later, rfl⟩ := List.exists_cons_of_length_eq_add_one len
      obtain ⟨r₁, first, rest⟩ := rest
      exact ⟨a, r₁, first, later, by simp, by simpa using len, rest⟩

theorem succeeds_repeated (steps : ∀ i a r r', Succeeds (f i) r a r' ↔ step a r r') :
    Succeeds (repeated f n) r as r' ↔ as.length = n ∧ Threaded step as r r' := by
  rw [repeated, succeeds_repeatedFrom steps]
  simp

section

variable {schema : Ir.Schema} {recur : Encoding → Value → Decoder Value}

/-- A value of an encoding is read, without a baseline. -/
def DecodesAs (recur : Encoding → Value → Decoder Value) (enc : Encoding) (v : Value)
    (r r' : BitReader) : Prop :=
  Succeeds (recur enc .null) r v r'

/-- The value of a field is read, against the same field of the baseline. -/
def DecodesField (recur : Encoding → Value → Decoder Value) (bases : List (String × Value))
    (f : Ir.Field × Value) (r r' : BitReader) : Prop :=
  Succeeds (recur f.1.encoding (Value.fieldOf bases f.1.name)) r f.2 r'

/-- The key and the value of an entry are read. -/
def DecodesEntry (recur : Encoding → Value → Decoder Value) (key value : Encoding)
    (entry : Value × Value) (r r' : BitReader) : Prop :=
  ∃ r₁, DecodesAs recur key entry.1 r r₁ ∧ DecodesAs recur value entry.2 r₁ r'

variable {name : String} {bases : List (String × Value)}

theorem succeeds_decodeFields {fields : List (String × Value)} {fs : List Ir.Field} :
    Succeeds (decodeFields recur name bases fs) r fields r' ↔
      ∃ vs, fs.length = vs.length ∧ fields = (fs.map (·.name)).zip vs ∧
        Threaded (DecodesField recur bases) (fs.zip vs) r r' := by
  induction fs generalizing r r' fields with
  | nil =>
    simp only [decodeFields, succeeds_pure]
    constructor
    · rintro ⟨empty, stop⟩
      exact ⟨[], rfl, empty.symm, stop⟩
    · rintro ⟨vs, length, empty, stop⟩
      exact ⟨empty.symm, stop⟩
  | cons f fs ih =>
    simp only [decodeFields, succeeds_bind, Decoder.succeeds_under, ih, succeeds_pure]
    constructor
    · rintro ⟨v, r₁, first, rest, r₂, ⟨vs, length, eq, later⟩, all, stop⟩
      subst all stop eq
      exact ⟨v :: vs, by simp [length], rfl, r₁, first, later⟩
    · rintro ⟨vs, length, eq, later⟩
      obtain ⟨v, vs, rfl⟩ := List.exists_cons_of_length_eq_add_one length.symm
      obtain ⟨r₁, first, later⟩ := later
      exact ⟨v, r₁, first, _, r', ⟨vs, by simpa using length, rfl, later⟩, eq.symm, rfl⟩

theorem succeeds_decodeMessage {m : Ir.Message} {v : Value} :
    Succeeds (decodeMessage recur m bases) r v r' ↔
      m.fields.any (·.absent) = false ∧
        ∃ vs, (sortedFields m).length = vs.length ∧
          Threaded (DecodesField recur bases) ((sortedFields m).zip vs) r r' ∧
          v = messageValue (((sortedFields m).map (·.name)).zip vs) := by
  simp only [decodeMessage, succeeds_ite, succeeds_bind, Decoder.succeeds_fail, succeeds_pure,
    succeeds_decodeFields]
  grind

theorem succeeds_decodeEnum {d : Ir.Descriptor} {v : Value} :
    Succeeds (decodeEnum schema recur d) r v r' ↔
      ∃ e index r₁ variant, schema.findEnum d = .ok (some e) ∧
        Succeeds (readWord e.discriminant.wire.bits) r index r₁ ∧
        Ir.search (·.absent) (·.index.toUInt64 == index) e.variants = .ok (some variant) ∧
        match variant.field with
        | none => v = .enum variant.name .null ∧ r₁ = r'
        | some f => ∃ payload, v = .enum variant.name payload ∧
            DecodesAs recur f.encoding payload r₁ r' := by
  unfold decodeEnum
  rcases findEnum : schema.findEnum d with ⟨⟨⟩⟩ | _ | e
  · simp
  · simp
  · simp only [succeeds_bind, Except.ok.injEq, Option.some.injEq]
    constructor
    · rintro ⟨index, r₁, read, rest⟩
      refine ⟨e, index, r₁, ?_⟩
      rcases found : Ir.search (·.absent) (·.index.toUInt64 == index) e.variants with
        ⟨⟨⟩⟩ | _ | variant
      · simp [found] at rest
      · simp [found] at rest
      · refine ⟨variant, rfl, read, found, ?_⟩
        cases field : variant.field with
        | none => simpa [found, field, eq_comm] using rest
        | some f => simpa [found, field, DecodesAs, eq_comm, and_comm] using rest
    · rintro ⟨_, index, r₁, variant, rfl, read, found, rest⟩
      refine ⟨index, r₁, read, ?_⟩
      cases field : variant.field with
      | none => simpa [found, field, eq_comm] using rest
      | some f => simpa [found, field, DecodesAs, eq_comm, and_comm] using rest

/-! ## Values by kind -/

variable {enc : Encoding} {base v : Value}

theorem succeeds_decodeBody_bool (kind : enc.native.kind = .bool) :
    Succeeds (decodeBody schema recur enc base) r v r' ↔
      ∃ n, Succeeds (readWord enc.wire.bits) r n r' ∧ n ≤ 1 ∧ v = .bool (n == 1) := by
  unfold decodeBody
  simp only [kind, succeeds_bind, succeeds_ite, Decoder.succeeds_fail, succeeds_pure]
  grind

theorem succeeds_decodeBody_number (kind : enc.native.kind = .int ∨ enc.native.kind = .float) :
    Succeeds (decodeBody schema recur enc base) r v r' ↔
      Succeeds (decodeNumber enc base) r v r' := by
  unfold decodeBody
  rcases kind with kind | kind <;> simp only [kind]

theorem succeeds_decodeBody_string (kind : enc.native.kind = .string) :
    Succeeds (decodeBody schema recur enc base) r v r' ↔
      ∃ octets, Succeeds (readOctets enc) r octets r' ∧ Octets.isUtf8 octets = true ∧
        v = .text octets := by
  unfold decodeBody
  simp only [kind, succeeds_bind, succeeds_ite, Decoder.succeeds_fail, succeeds_pure]
  grind

theorem succeeds_decodeBody_bytes (kind : enc.native.kind = .bytes) :
    Succeeds (decodeBody schema recur enc base) r v r' ↔
      ∃ octets, Succeeds (readOctets enc) r octets r' ∧ v = .bytes octets := by
  unfold decodeBody
  simp only [kind, succeeds_map, eq_comm]

theorem succeeds_decodeBody_array (kind : enc.native.kind = .array) :
    Succeeds (decodeBody schema recur enc base) r v r' ↔
      ∃ element items r₁, enc.native.element = some element ∧
        Succeeds (readCount enc element) r items.length r₁ ∧
        Threaded (DecodesAs recur element) items r₁ r' ∧ v = .list items := by
  unfold decodeBody
  simp only [kind]
  cases elements : enc.native.element with
  | none => simp
  | some element =>
    have each : ∀ {n : Nat} {items : List Value} {r r' : BitReader},
        Succeeds (repeated (fun i => under (.item i) (recur element .null)) n) r items r' ↔
          items.length = n ∧ Threaded (DecodesAs recur element) items r r' :=
      succeeds_repeated fun _ _ _ _ => by simp [DecodesAs]
    simp only [succeeds_bind, succeeds_map, each, Option.some.injEq]
    constructor
    · rintro ⟨n, r₁, count, items, ⟨rfl, rest⟩, rfl⟩
      exact ⟨element, items, r₁, rfl, count, rest, rfl⟩
    · rintro ⟨_, items, r₁, rfl, count, rest, rfl⟩
      exact ⟨items.length, r₁, count, items, ⟨rfl, rest⟩, rfl⟩

theorem succeeds_decodeBody_map (kind : enc.native.kind = .map) :
    Succeeds (decodeBody schema recur enc base) r v r' ↔
      ∃ key entries r₁, enc.native.key = some key ∧
        Succeeds (readCount enc key) r entries.length r₁ ∧
        (entries = [] ∧ r₁ = r' ∨ ∃ value, enc.native.value = some value ∧
          Threaded (DecodesEntry recur key value) entries r₁ r') ∧ v = .map entries := by
  unfold decodeBody
  simp only [kind]
  cases enc.native.key with
  | none => simp
  | some key =>
    cases enc.native.value with
    | none =>
      -- A value is missed only when the first entry is read.
      have each : ∀ {n : Nat} {entries : List (Value × Value)} {r r' : BitReader},
          Succeeds (repeated (fun i => do
              let _ ← under (.key i) (recur key .null)
              (fail .incompleteType : Decoder (Value × Value))) n) r entries r' ↔
            entries.length = n ∧ Threaded (fun _ _ _ => False) entries r r' :=
        succeeds_repeated fun _ _ _ _ => by simp
      have none : ∀ {entries : List (Value × Value)} {r r' : BitReader},
          Threaded (fun _ _ _ => False) entries r r' ↔ entries = [] ∧ r = r' := by
        intro entries
        cases entries <;> simp
      simp only [succeeds_bind, succeeds_map, each, none]
      grind
    | some value =>
      have each : ∀ {n : Nat} {entries : List (Value × Value)} {r r' : BitReader},
          Succeeds (repeated (fun i => do
              let k ← under (.key i) (recur key .null)
              return (k, ← under (.value i) (recur value .null))) n) r entries r' ↔
            entries.length = n ∧ Threaded (DecodesEntry recur key value) entries r r' :=
        succeeds_repeated fun i entry r r' => by
          simp only [succeeds_bind, Decoder.succeeds_under, succeeds_pure, DecodesEntry, DecodesAs]
          constructor
          · rintro ⟨k, r₁, first, x, r₂, second, rfl, rfl⟩
            exact ⟨r₁, first, second⟩
          · rintro ⟨r₁, first, second⟩
            exact ⟨entry.1, r₁, first, entry.2, r', second, rfl, rfl⟩
      simp only [succeeds_bind, succeeds_map, each]
      constructor
      · rintro ⟨n, r₁, count, entries, ⟨rfl, rest⟩, rfl⟩
        exact ⟨key, entries, r₁, rfl, count, Or.inr ⟨value, rfl, rest⟩, rfl⟩
      · rintro ⟨_, entries, r₁, ⟨⟩, count, ⟨rfl, rfl⟩ | ⟨_, ⟨⟩, rest⟩, rfl⟩
        · exact ⟨0, r₁, count, [], ⟨rfl, rfl⟩, rfl⟩
        · exact ⟨entries.length, r₁, count, entries, ⟨rfl, rest⟩, rfl⟩

theorem succeeds_decodeBody_message (kind : enc.native.kind = .message) :
    Succeeds (decodeBody schema recur enc base) r v r' ↔
      ∃ d m, enc.native.descriptor = some d ∧ schema.findMessage d = .ok (some m) ∧
        Succeeds (decodeMessage recur m (base.asFields?.getD [])) r v r' := by
  unfold decodeBody
  simp only [kind]
  cases descriptor : enc.native.descriptor with
  | none => simp
  | some d =>
    rcases found : schema.findMessage d with ⟨⟨⟩⟩ | _ | m
    · simp [found]
    · simp [found]
    · simp [found]

theorem succeeds_decodeBody_enum (kind : enc.native.kind = .enum) :
    Succeeds (decodeBody schema recur enc base) r v r' ↔
      ∃ d, enc.native.descriptor = some d ∧
        Succeeds (decodeEnum schema recur d) r v r' := by
  unfold decodeBody
  simp only [kind]
  cases descriptor : enc.native.descriptor with
  | none | some d => simp

theorem succeeds_decodeBody_other (kind : enc.native.kind = .other name) :
    Succeeds (decodeBody schema recur enc base) r v r' ↔ False := by
  unfold decodeBody
  simp only [kind, Decoder.succeeds_fail]

theorem succeeds_decodeWith :
    Succeeds (decodeWith schema recur enc base) r v r' ↔
      ∃ r₁, Succeeds (decodeBody schema recur enc base) r v r₁ ∧
        r₁.unread.take (padding enc) = List.replicate (padding enc) false ∧
        r' = r₁.advance (padding enc) := by
  simp only [decodeWith, succeeds_bind, padding]
  cases enc.paddingBits with
  | none => simp
  | some n =>
    simp only [succeeds_bind, exists_unit_iff, Decoder.succeeds_ofRead,
      BitReader.succeeds_skipPadding, succeeds_pure, Option.map_some, Option.getD_some]
    grind

end

end BitSchema.Codec
