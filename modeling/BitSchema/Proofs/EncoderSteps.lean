import BitSchema.Proofs.BitStream
import BitSchema.Proofs.Pipeline

/-!
# Inverting the encoder

What a successful step of the encoder did, by the kind of the encoding.  One equivalence for each
definition: read from left to right it takes a run apart, from right to left it builds one.
-/

namespace BitSchema.Codec

open Ir (Encoding)
open Encoder (fail under word each)

/-! ## Values by what the encoder takes them for -/

namespace Value

def boolean? : Value → Option Bool
  | null => some false
  | bool b => some b
  | _ => none

def text? : Value → Option Octets
  | null => some []
  | text octets => some octets
  | _ => none

def octets? : Value → Option (List UInt8)
  | null => some []
  | bytes octets => some octets
  | _ => none

def items? : Value → Option (List Value)
  | null => some []
  | list items => some items
  | _ => none

def entries? : Value → Option (List (Value × Value))
  | null => some []
  | map entries => some entries
  | _ => none

end Value

variable {w w' : BitWriter}

/-! ## Words, lengths and numbers -/

variable {u : Unit} {bits : Nat} {enc : Encoding}

@[simp] theorem succeeds_fail {cause : Cause} : Succeeds (fail cause) w u w' ↔ False :=
  succeeds_throw

@[simp] theorem succeeds_under {step : Step} {e : Encoder} :
    Succeeds (under step e) w u w' ↔ Succeeds e w u w' :=
  succeeds_adapt

theorem succeeds_word {v : UInt64} :
    Succeeds (word v bits) w () w' ↔ bits ≤ 64 ∧ w' = w.writeBits v.toNat bits := by
  simp only [word, succeeds_ite, succeeds_bind, succeeds_fail, succeeds_modify]
  grind

theorem succeeds_writeLength {n : Nat} :
    Succeeds (writeLength enc n) w () w' ↔
      enc.wire.prefixBits.toNat ≤ 64 ∧ n < 2 ^ enc.wire.prefixBits.toNat ∧
        w' = w.writeBits n enc.wire.prefixBits.toNat := by
  simp only [writeLength, succeeds_ite, succeeds_fail, succeeds_word, Nat.pow_eq]
  by_cases narrow : enc.wire.prefixBits.toNat ≤ 64
  · by_cases small : n < 2 ^ 64
    · have nat : (UInt64.ofNat n).toNat = n := UInt64.toNat_ofNat_of_lt' small
      simp only [Word.fitsUnsigned_iff narrow, nat, small, narrow, true_and]
      split <;> simp_all
    · have wide : ¬ n < 2 ^ enc.wire.prefixBits.toNat := fun fits =>
        small (fits.trans_le (Nat.pow_le_pow_right (by decide) narrow))
      rw [if_neg fun fits => small fits.1]
      simp [wide]
  · simp [narrow]

theorem succeeds_writeOctets {octets : List UInt8} :
    Succeeds (writeOctets enc octets) w () w' ↔
      ∃ w₁, Succeeds (writeLength enc octets.length) w () w₁ ∧ w' = w₁.writeBytes octets := by
  simp only [writeOctets, succeeds_bind, succeeds_modify]
  grind

/-- The word that a number is written as. -/
def Number.word : Number → Nat → UInt64
  | unsigned n, _ => n
  | signed n, _ => n.toUInt64
  | float n, bits =>
    if bits = 32 then UInt64.ofNat (FloatFormat.double.convert FloatFormat.single n.toNat) else n

/-- The number can be written in this many bits. -/
def Number.Fits : Number → Nat → Prop
  | unsigned n, bits => Word.fitsUnsigned n bits = true
  | signed n, bits => Word.fitsSigned n bits = true
  | float _, bits => bits = 32 ∨ bits = 64

theorem succeeds_writeNumber {n : Number} :
    Succeeds (writeNumber n bits) w () w' ↔
      n.Fits bits ∧ bits ≤ 64 ∧ w' = w.writeBits (n.word bits).toNat bits := by
  cases n with
  | unsigned n | signed n | float n =>
    simp only [writeNumber, Number.Fits, Number.word, succeeds_ite, succeeds_fail, succeeds_word]
    grind

theorem succeeds_encodeNumber {v base : Value} :
    Succeeds (encodeNumber enc v base) w () w' ↔
      ∃ n, transformed enc v base = .ok n ∧
        Succeeds (writeNumber n enc.wire.bits.toNat) w () w' := by
  unfold encodeNumber
  split
  next fault eq => simp [eq]
  next n eq => simp [eq]

/-! ## Collections and fields -/

/-- The places of the elements only show in faults. -/
theorem succeeds_each {α : Type} {f : Nat → α → Encoder} {step : α → BitWriter → BitWriter → Prop}
    (steps : ∀ i a w w', Succeeds (f i a) w () w' ↔ step a w w') {i : Nat} {as : List α} :
    Succeeds (each f i as) w () w' ↔ Threaded step as w w' := by
  induction as generalizing i w with
  | nil => simp [each]
  | cons a as ih => simp [each, steps, ih]

section

variable {schema : Ir.Schema} {recur : Encoding → Value → Value → Encoder}

/-- A value of an encoding is written, without a baseline. -/
def EncodesAs (recur : Encoding → Value → Value → Encoder) (enc : Encoding) (v : Value)
    (w w' : BitWriter) : Prop :=
  Succeeds (recur enc v .null) w () w'

/-- The field of a message is written, against the same field of the baseline. -/
def EncodesField (recur : Encoding → Value → Value → Encoder) (values bases : List (String × Value))
    (f : Ir.Field) (w w' : BitWriter) : Prop :=
  Succeeds (recur f.encoding (Value.fieldOf values f.name) (Value.fieldOf bases f.name)) w () w'

/-- The key and the value of an entry are written. -/
def EncodesEntry (recur : Encoding → Value → Value → Encoder) (key value : Encoding)
    (entry : Value × Value) (w w' : BitWriter) : Prop :=
  ∃ w₁, EncodesAs recur key entry.1 w w₁ ∧ EncodesAs recur value entry.2 w₁ w'

variable {name : String} {values bases : List (String × Value)}

theorem succeeds_encodeFields {fs : List Ir.Field} :
    Succeeds (encodeFields recur name values bases fs) w () w' ↔
      Threaded (EncodesField recur values bases) fs w w' := by
  induction fs generalizing w with
  | nil => simp [encodeFields]
  | cons f fs ih => simp [encodeFields, ih, EncodesField]

theorem succeeds_encodeMessage {m : Ir.Message} :
    Succeeds (encodeMessage recur m values bases) w () w' ↔
      m.fields.any (·.absent) = false ∧
        Threaded (EncodesField recur values bases) (sortedFields m) w w' := by
  simp only [encodeMessage, succeeds_ite, succeeds_fail, succeeds_encodeFields]
  grind

/-- The payload of a variant, after its index. -/
theorem succeeds_encodeEnum {enc : Encoding} {d : Ir.Descriptor} {v : Value} :
    Succeeds (encodeEnum schema recur enc d v) w () w' ↔
      ∃ e name payload variant w₁, schema.findEnum d = .ok (some e) ∧
        enumParts? v = some (name, payload) ∧ variantNamed e name = .ok (some variant) ∧
        Succeeds (word variant.index.toUInt64 e.discriminant.wire.bits.toNat) w () w₁ ∧
        match variant.field with
        | none => payload.isNull = true ∧ w₁ = w'
        | some f => EncodesAs recur f.encoding payload w₁ w' := by
  unfold encodeEnum
  rcases findEnum : schema.findEnum d with _ | _ | e
  · simp
  · simp
  · rcases parts : enumParts? v with _ | ⟨name, payload⟩
    · simp [mistyped]
    · rcases named : variantNamed e name with ⟨⟨⟩⟩ | _ | variant
      · simp [named]
      · simp [named]
      · cases field : variant.field with
        | none => simp [named, field]
        | some f => simp [named, field, EncodesAs]

/-! ## Values by kind -/

variable {enc : Encoding} {v base : Value}

theorem succeeds_encodeBody_bool (kind : enc.native.kind = .bool) :
    Succeeds (encodeBody schema recur enc v base) w () w' ↔
      ∃ b, v.boolean? = some b ∧
        Succeeds (word (if b then 1 else 0) enc.wire.bits.toNat) w () w' := by
  unfold encodeBody
  simp only [kind]
  cases v <;> simp [Value.boolean?, mistyped]

theorem succeeds_encodeBody_number (kind : enc.native.kind = .int ∨ enc.native.kind = .float) :
    Succeeds (encodeBody schema recur enc v base) w () w' ↔
      Succeeds (encodeNumber enc v base) w () w' := by
  unfold encodeBody
  rcases kind with kind | kind <;> simp only [kind]

theorem succeeds_encodeBody_string (kind : enc.native.kind = .string) :
    Succeeds (encodeBody schema recur enc v base) w () w' ↔
      ∃ octets, v.text? = some octets ∧ Succeeds (writeOctets enc octets) w () w' := by
  unfold encodeBody
  simp only [kind]
  cases v <;> simp [Value.text?, mistyped]

theorem succeeds_encodeBody_bytes (kind : enc.native.kind = .bytes) :
    Succeeds (encodeBody schema recur enc v base) w () w' ↔
      ∃ octets, v.octets? = some octets ∧ Succeeds (writeOctets enc octets) w () w' := by
  unfold encodeBody
  simp only [kind]
  cases v <;> simp [Value.octets?, mistyped]

theorem succeeds_encodeBody_array (kind : enc.native.kind = .array) :
    Succeeds (encodeBody schema recur enc v base) w () w' ↔
      ∃ items w₁, v.items? = some items ∧ Succeeds (writeLength enc items.length) w () w₁ ∧
        (items = [] ∧ w₁ = w' ∨ ∃ element, enc.native.element = some element ∧
          Threaded (EncodesAs recur element) items w₁ w') := by
  have each : ∀ {element : Encoding} {items : List Value} {w w' : BitWriter},
      Succeeds (each (fun i item => under (.item i) (recur element item .null)) 0 items) w () w' ↔
        Threaded (EncodesAs recur element) items w w' :=
    succeeds_each fun _ _ _ _ => by simp [EncodesAs]
  unfold encodeBody
  simp only [kind]
  cases v with
  | null => cases enc.native.element <;> simp [Value.items?]
  | list items =>
    cases items with
    | nil => cases enc.native.element <;> simp [Value.items?]
    | cons item items =>
      cases enc.native.element with
      | none => simp [Value.items?]
      | some element =>
        simp only [succeeds_bind, exists_unit_iff, each, Value.items?]
        grind
  | _ => simp [Value.items?, mistyped]

theorem succeeds_encodeBody_map (kind : enc.native.kind = .map) :
    Succeeds (encodeBody schema recur enc v base) w () w' ↔
      ∃ entries w₁, v.entries? = some entries ∧ Succeeds (writeLength enc entries.length) w () w₁ ∧
        (entries = [] ∧ w₁ = w' ∨ ∃ key value, enc.native.key = some key ∧
          enc.native.value = some value ∧
          Threaded (EncodesEntry recur key value) entries w₁ w') := by
  have each : ∀ {key value : Encoding} {entries : List (Value × Value)} {w w' : BitWriter},
      Succeeds (each (fun i entry => do
          under (.key i) (recur key entry.1 .null)
          under (.value i) (recur value entry.2 .null)) 0 entries) w () w' ↔
        Threaded (EncodesEntry recur key value) entries w w' :=
    succeeds_each fun _ _ _ _ => by simp [EncodesEntry, EncodesAs]
  unfold encodeBody
  simp only [kind]
  cases v with
  | null => cases enc.native.key <;> cases enc.native.value <;> simp [Value.entries?]
  | map entries =>
    cases entries with
    | nil => cases enc.native.key <;> cases enc.native.value <;> simp [Value.entries?]
    | cons entry entries =>
      cases enc.native.key with
      | none => simp [Value.entries?]
      | some key =>
        cases enc.native.value with
        | none => simp [Value.entries?]
        | some value =>
          simp only [succeeds_bind, exists_unit_iff, each, Value.entries?]
          grind
  | _ => simp [Value.entries?, mistyped]

theorem succeeds_encodeBody_message (kind : enc.native.kind = .message) :
    Succeeds (encodeBody schema recur enc v base) w () w' ↔
      ∃ d m values, enc.native.descriptor = some d ∧ schema.findMessage d = .ok (some m) ∧
        v.asFields? = some values ∧
        Succeeds (encodeMessage recur m values (base.asFields?.getD [])) w () w' := by
  unfold encodeBody
  simp only [kind]
  cases descriptor : enc.native.descriptor with
  | none => simp
  | some d =>
    rcases found : schema.findMessage d with ⟨⟨⟩⟩ | _ | m
    · simp [found]
    · simp [found]
    · cases fields : v.asFields? with
      | none => simp [found, mistyped]
      | some values => simp [found]

theorem succeeds_encodeBody_enum (kind : enc.native.kind = .enum) :
    Succeeds (encodeBody schema recur enc v base) w () w' ↔
      ∃ d, enc.native.descriptor = some d ∧
        Succeeds (encodeEnum schema recur enc d v) w () w' := by
  unfold encodeBody
  simp only [kind]
  cases descriptor : enc.native.descriptor with
  | none | some d => simp

theorem succeeds_encodeBody_other (kind : enc.native.kind = .other name) :
    Succeeds (encodeBody schema recur enc v base) w () w' ↔ False := by
  unfold encodeBody
  simp only [kind, succeeds_fail]

/-- The number of padding bits. -/
def padding (enc : Encoding) : Nat := (enc.paddingBits.map UInt32.toNat).getD 0

theorem succeeds_encodeWith :
    Succeeds (encodeWith schema recur enc v base) w () w' ↔
      ∃ w₁, Succeeds (encodeBody schema recur enc v base) w () w₁ ∧
        w' = match enc.paddingBits with
          | some n => w₁.pad n.toNat
          | none => w₁ := by
  simp only [encodeWith]
  cases enc.paddingBits with
  | none => simp
  | some n => simp [eq_comm]

end

end BitSchema.Codec
