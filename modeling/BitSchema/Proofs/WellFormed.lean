import BitSchema.Proofs.Definitions

/-!
# Well-formed schemas

The conditions under which a schema without floats can be written and read back.  `Shaped` and
`Fits` speak of one level of an encoding, `Codable` and `WellFormed` of a whole schema.  All of them
can be decided.
-/

namespace BitSchema.Ir

/-- The wire format is of the kind that the native type asks for. -/
structure Encoding.Shaped (e : Encoding) : Prop where
  scalar : e.native.kind ∈ [.bool, .int, .float] → e.wire.kind = .bits
  collection : e.native.kind ∈ [.string, .bytes, .array, .map] → e.wire.kind = .lengthPrefixed
  reference : e.native.kind ∈ [.message, .enum] → e.wire.kind = .embedded

/-- The kinds of types without floats. -/
def NativeKind.exact : List NativeKind :=
  [.bool, .int, .string, .bytes, .array, .map, .message, .enum]

/-- The kinds of types that mean something. -/
def NativeKind.known : List NativeKind :=
  [.bool, .int, .float, .string, .bytes, .array, .map, .message, .enum]

/-- One level of an encoding without floats: its parts are there, and its widths are those of a
word. -/
structure Encoding.Fits (e : Encoding) : Prop extends e.Shaped where
  kind : e.native.kind ∈ NativeKind.exact
  bits : e.native.kind ∈ [.bool, .int] → 1 ≤ e.wire.bits.toNat ∧ e.wire.bits.toNat ≤ 64
  lengths : e.native.kind ∈ [.string, .bytes, .array, .map] →
    1 ≤ e.wire.prefixBits.toNat ∧ e.wire.prefixBits.toNat ≤ 64
  element : e.native.kind = .array → e.native.element.isSome
  entry : e.native.kind = .map → e.native.key.isSome ∧ e.native.value.isSome

/-- The definition that an encoding refers to is found. -/
structure Encoding.Resolves (s : Schema) (e : Encoding) : Prop where
  message : e.native.kind = .message → (e.native.descriptor.bind s.message?).isSome
  enum : e.native.kind = .enum → (e.native.descriptor.bind s.enum?).isSome

/-- The variants of an enum have indices of their own, all of them in range of the discriminant. -/
structure Enum.Indexed (e : Enum) : Prop where
  present : ∀ v ∈ e.variants, v.absent = false
  distinct : (e.variants.map (·.index)).Nodup
  discriminant : 1 ≤ e.discriminant.wire.bits.toNat ∧ e.discriminant.wire.bits.toNat ≤ 64
  fit : ∀ v ∈ e.variants, v.index.toNat < 2 ^ e.discriminant.wire.bits.toNat

/-- What a schema without floats needs for its messages to be read back as they were written. -/
structure Schema.Codable (s : Schema) : Prop where
  encodings : ∀ e ∈ s.encodings, e.Fits
  fieldNames : ∀ m ∈ s.allMessages, (m.fields.map (·.name)).Nodup
  enums : ∀ e ∈ s.allEnums, e.Indexed

/-- A codable schema in which every reference resolves and every variant has a name of its own. -/
structure Schema.WellFormed (s : Schema) : Prop extends s.Codable where
  resolves : ∀ e ∈ s.encodings, e.Resolves s
  variantNames : ∀ e ∈ s.allEnums, (e.variants.map (·.name)).Nodup ∧ ∀ v ∈ e.variants, v.name ≠ ""

/-! ## Decisions -/

section

variable {e : Encoding} {s : Schema} {en : Enum}

instance : Decidable e.Shaped :=
  decidable_of_iff
    ((e.native.kind ∈ [.bool, .int, .float] → e.wire.kind = .bits) ∧
      (e.native.kind ∈ [.string, .bytes, .array, .map] → e.wire.kind = .lengthPrefixed) ∧
      (e.native.kind ∈ [.message, .enum] → e.wire.kind = .embedded))
    ⟨fun ⟨a, b, c⟩ => ⟨a, b, c⟩, fun ⟨a, b, c⟩ => ⟨a, b, c⟩⟩

instance : Decidable e.Fits :=
  decidable_of_iff
    (e.Shaped ∧ e.native.kind ∈ NativeKind.exact ∧
      (e.native.kind ∈ [.bool, .int] → 1 ≤ e.wire.bits.toNat ∧ e.wire.bits.toNat ≤ 64) ∧
      (e.native.kind ∈ [.string, .bytes, .array, .map] →
        1 ≤ e.wire.prefixBits.toNat ∧ e.wire.prefixBits.toNat ≤ 64) ∧
      (e.native.kind = .array → e.native.element.isSome) ∧
      (e.native.kind = .map → e.native.key.isSome ∧ e.native.value.isSome))
    ⟨fun ⟨a, b, c, d, e, f⟩ => ⟨a, b, c, d, e, f⟩, fun ⟨a, b, c, d, e, f⟩ => ⟨a, b, c, d, e, f⟩⟩

instance : Decidable (e.Resolves s) :=
  decidable_of_iff
    ((e.native.kind = .message → (e.native.descriptor.bind s.message?).isSome) ∧
      (e.native.kind = .enum → (e.native.descriptor.bind s.enum?).isSome))
    ⟨fun ⟨a, b⟩ => ⟨a, b⟩, fun ⟨a, b⟩ => ⟨a, b⟩⟩

instance : Decidable en.Indexed :=
  decidable_of_iff
    ((∀ v ∈ en.variants, v.absent = false) ∧ (en.variants.map (·.index)).Nodup ∧
      (1 ≤ en.discriminant.wire.bits.toNat ∧ en.discriminant.wire.bits.toNat ≤ 64) ∧
      ∀ v ∈ en.variants, v.index.toNat < 2 ^ en.discriminant.wire.bits.toNat)
    ⟨fun ⟨a, b, c, d⟩ => ⟨a, b, c, d⟩, fun ⟨a, b, c, d⟩ => ⟨a, b, c, d⟩⟩

instance : Decidable s.Codable :=
  decidable_of_iff
    ((∀ e ∈ s.encodings, e.Fits) ∧ (∀ m ∈ s.allMessages, (m.fields.map (·.name)).Nodup) ∧
      ∀ e ∈ s.allEnums, e.Indexed)
    ⟨fun ⟨a, b, c⟩ => ⟨a, b, c⟩, fun ⟨a, b, c⟩ => ⟨a, b, c⟩⟩

instance : Decidable s.WellFormed :=
  decidable_of_iff
    (s.Codable ∧ (∀ e ∈ s.encodings, e.Resolves s) ∧
      ∀ e ∈ s.allEnums, (e.variants.map (·.name)).Nodup ∧ ∀ v ∈ e.variants, v.name ≠ "")
    ⟨fun ⟨a, b, c⟩ => ⟨a, b, c⟩, fun ⟨a, b, c⟩ => ⟨a, b, c⟩⟩

end

/-! ## Every level -/

/-- A condition holds of all levels of an encoding. -/
def Encoding.Throughout (p : Encoding → Prop) (e : Encoding) : Prop := ∀ level ∈ e.levels, p level

namespace Encoding.Throughout

variable {p : Encoding → Prop} {e inner : Encoding}

section

variable (all : e.Throughout p)

include all

theorem here : p e := all e e.self_mem_levels

theorem element (part : e.native.element = some inner) : inner.Throughout p :=
  fun level mem => all level (e.levels_element part mem)

theorem key (part : e.native.key = some inner) : inner.Throughout p :=
  fun level mem => all level (e.levels_key part mem)

theorem value (part : e.native.value = some inner) : inner.Throughout p :=
  fun level mem => all level (e.levels_value part mem)

end

end Encoding.Throughout

namespace Schema

variable {p : Encoding → Prop} {s : Schema} {d : Descriptor}

theorem throughout_field (all : ∀ e ∈ s.encodings, p e) {m : Message} {f : Field}
    (found : s.findMessage d = .ok (some m)) (mem : f ∈ m.fields) : f.encoding.Throughout p :=
  fun level inside => all level (levels_field_subset found mem inside)

theorem throughout_payload (all : ∀ e ∈ s.encodings, p e) {e : Enum} {v : Variant} {f : Field}
    (found : s.findEnum d = .ok (some e)) (mem : v ∈ e.variants) (field : v.field = some f) :
    f.encoding.Throughout p :=
  fun level inside => all level (levels_payload_subset found mem field inside)

end Schema

end BitSchema.Ir
