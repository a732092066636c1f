import BitSchema.Proofs.DecoderSteps
import BitSchema.Proofs.Growth

/-!
# What is read back

The two sides of a round trip, said without running anything.  `ReadsBackAs` relates a value to the
form it has after it was written and read: absent parts are filled in, numbers have the widest type
of their sign, and a message has its fields in the order of their indices.  `Readable` says that no
place in a value is refused by the decoder although the encoder takes it.
-/

namespace BitSchema.Codec

open List
open Ir (Encoding)

/-! ## Places in a value -/

/-- A value and the encoding it is written by. -/
abbrev Place : Type := Encoding × Value

/-- One step into a value: to an element, to the key or value of an entry, to a field or to the
payload of a variant. -/
inductive Part (schema : Ir.Schema) : Place → Place → Prop where
  | item {enc element : Encoding} {v item : Value} {items : List Value}
      (kind : enc.native.kind = .array) (elements : enc.native.element = some element)
      (list : v.items? = some items) (mem : item ∈ items) :
      Part schema (enc, v) (element, item)
  | key {enc key : Encoding} {v : Value} {entry : Value × Value} {entries : List (Value × Value)}
      (kind : enc.native.kind = .map) (keys : enc.native.key = some key)
      (map : v.entries? = some entries) (mem : entry ∈ entries) :
      Part schema (enc, v) (key, entry.1)
  | value {enc value : Encoding} {v : Value} {entry : Value × Value}
      {entries : List (Value × Value)}
      (kind : enc.native.kind = .map) (values : enc.native.value = some value)
      (map : v.entries? = some entries) (mem : entry ∈ entries) :
      Part schema (enc, v) (value, entry.2)
  | field {enc : Encoding} {v : Value} {d : Ir.Descriptor} {m : Ir.Message} {f : Ir.Field}
      {values : List (String × Value)}
      (kind : enc.native.kind = .message) (descriptor : enc.native.descriptor = some d)
      (found : schema.findMessage d = .ok (some m)) (fields : v.asFields? = some values)
      (mem : f ∈ m.fields) :
      Part schema (enc, v) (f.encoding, Value.fieldOf values f.name)
  | payload {enc : Encoding} {v payload : Value} {d : Ir.Descriptor} {e : Ir.Enum}
      {name : Octets} {variant : Ir.Variant} {f : Ir.Field}
      (kind : enc.native.kind = .enum) (descriptor : enc.native.descriptor = some d)
      (found : schema.findEnum d = .ok (some e)) (parts : enumParts? v = some (name, payload))
      (named : variantNamed e name = .ok (some variant)) (field : variant.field = some f) :
      Part schema (enc, v) (f.encoding, payload)

/-- The decoder has no objection at this place: a text is valid, and of elements that may take no
bits there are not too many. -/
structure Legible (place : Place) : Prop where
  text : place.1.native.kind = .string → ∀ octets, place.2.text? = some octets →
    Octets.isUtf8 octets = true
  items : place.1.native.kind = .array → ∀ element items, place.1.native.element = some element →
    place.2.items? = some items → minEncodedBits element = 0 → items.length ≤ maxEmptyElements
  entries : place.1.native.kind = .map → ∀ key entries, place.1.native.key = some key →
    place.2.entries? = some entries → minEncodedBits key = 0 → entries.length ≤ maxEmptyElements

/-- Every place of a value is legible. -/
def Readable (schema : Ir.Schema) (enc : Encoding) (v : Value) : Prop :=
  ∀ place, Relation.ReflTransGen (Part schema) (enc, v) place → Legible place

section

variable {schema : Ir.Schema} {enc : Encoding} {v : Value}

theorem readable_iff :
    Readable schema enc v ↔
      Legible (enc, v) ∧ ∀ place, Part schema (enc, v) place → Readable schema place.1 place.2 := by
  constructor
  · intro readable
    exact ⟨readable _ .refl, fun place part inner path => readable inner (.head part path)⟩
  · rintro ⟨here, inside⟩ place path
    rcases Relation.ReflTransGen.cases_head path with rfl | ⟨next, part, path⟩
    · exact here
    · exact inside next part place path

/-- Numbers, truth values and bytes have no objectionable places. -/
theorem readable_scalar (kind : enc.native.kind ∈ [.bool, .int, .float, .bytes]) :
    Readable schema enc v := by
  simp only [mem_cons, not_mem_nil, or_false] at kind
  rw [readable_iff]
  refine ⟨⟨?_, ?_, ?_⟩, fun place part => ?_⟩
  · intro other
    simp_all
  · intro other
    simp_all
  · intro other
    simp_all
  · cases part <;> simp_all

theorem readable_string (kind : enc.native.kind = .string) {octets : Octets}
    (text : v.text? = some octets) : Readable schema enc v ↔ Octets.isUtf8 octets = true := by
  rw [readable_iff]
  constructor
  · rintro ⟨here, -⟩
    exact here.text kind octets text
  · intro valid
    refine ⟨⟨fun _ octets' text' => ?_, ?_, ?_⟩, fun place part => ?_⟩
    · cases text.symm.trans text'
      exact valid
    · simp [kind]
    · simp [kind]
    · cases part <;> simp_all

end

/-! ## The form that is read -/

/-- The type in which integers are read. -/
def integerType (native : Ir.NativeType) : IntType := if native.signed then .int64 else .uint64

/-- A value, written by an encoding, is read as another. -/
inductive ReadsBackAs (schema : Ir.Schema) : Encoding → Value → Value → Prop where
  | bool {enc : Encoding} {v : Value} {b : Bool} (kind : enc.native.kind = .bool)
      (value : v.boolean? = some b) : ReadsBackAs schema enc v (.bool b)
  | integer {enc : Encoding} {v : Value} {n : Int} (kind : enc.native.kind = .int)
      (value : v.integer? = some n) :
      ReadsBackAs schema enc v (.int (integerType enc.native) n)
  | text {enc : Encoding} {v : Value} {octets : Octets} (kind : enc.native.kind = .string)
      (value : v.text? = some octets) : ReadsBackAs schema enc v (.text octets)
  | bytes {enc : Encoding} {v : Value} {octets : List UInt8} (kind : enc.native.kind = .bytes)
      (value : v.octets? = some octets) : ReadsBackAs schema enc v (.bytes octets)
  | array {enc element : Encoding} {v : Value} {items items' : List Value}
      (kind : enc.native.kind = .array) (elements : enc.native.element = some element)
      (value : v.items? = some items) (length : items.length = items'.length)
      (each : ∀ p ∈ items.zip items', ReadsBackAs schema element p.1 p.2) :
      ReadsBackAs schema enc v (.list items')
  | map {enc key value : Encoding} {v : Value} {entries entries' : List (Value × Value)}
      (kind : enc.native.kind = .map) (keys : enc.native.key = some key)
      (values : enc.native.value = some value) (map : v.entries? = some entries)
      (length : entries.length = entries'.length)
      (eachKey : ∀ p ∈ entries.zip entries', ReadsBackAs schema key p.1.1 p.2.1)
      (eachValue : ∀ p ∈ entries.zip entries', ReadsBackAs schema value p.1.2 p.2.2) :
      ReadsBackAs schema enc v (.map entries')
  | message {enc : Encoding} {v : Value} {d : Ir.Descriptor} {m : Ir.Message}
      {values : List (String × Value)} {vs : List Value} (kind : enc.native.kind = .message)
      (descriptor : enc.native.descriptor = some d)
      (found : schema.findMessage d = .ok (some m)) (value : v.asFields? = some values)
      (length : (sortedFields m).length = vs.length)
      (each : ∀ p ∈ (sortedFields m).zip vs,
        ReadsBackAs schema p.1.encoding (Value.fieldOf values p.1.name) p.2) :
      ReadsBackAs schema enc v (.message (((sortedFields m).map (·.name)).zip vs))
  | unit {enc : Encoding} {v payload : Value} {d : Ir.Descriptor} {e : Ir.Enum} {name : Octets}
      {variant : Ir.Variant} (kind : enc.native.kind = .enum)
      (descriptor : enc.native.descriptor = some d) (found : schema.findEnum d = .ok (some e))
      (parts : enumParts? v = some (name, payload))
      (named : variantNamed e name = .ok (some variant)) (field : variant.field = none) :
      ReadsBackAs schema enc v (.enum variant.name .null)
  | payload {enc : Encoding} {v payload payload' : Value} {d : Ir.Descriptor} {e : Ir.Enum}
      {name : Octets} {variant : Ir.Variant} {f : Ir.Field} (kind : enc.native.kind = .enum)
      (descriptor : enc.native.descriptor = some d) (found : schema.findEnum d = .ok (some e))
      (parts : enumParts? v = some (name, payload))
      (named : variantNamed e name = .ok (some variant)) (field : variant.field = some f)
      (inner : ReadsBackAs schema f.encoding payload payload') :
      ReadsBackAs schema enc v (.enum variant.name payload')

section

variable {schema : Ir.Schema} {enc : Encoding} {v v' : Value}

/-- Numbers, truth values, texts and bytes read back in one form. -/
theorem readsBackAs_scalar {v₀ : Value} (kind : enc.native.kind ∈ [.bool, .int, .string, .bytes])
    (back : ReadsBackAs schema enc v v₀) : ReadsBackAs schema enc v v' ↔ v' = v₀ := by
  constructor
  · intro back'
    cases back <;> cases back' <;> simp_all
  · rintro rfl
    exact back

/-! ## Values by kind -/

section

variable (kind : enc.native.kind = .array) {element : Encoding}
  (elements : enc.native.element = some element) {items : List Value}
  (list : v.items? = some items)

include kind elements list

theorem readable_array :
    Readable schema enc v ↔
      (minEncodedBits element = 0 → items.length ≤ maxEmptyElements) ∧
        ∀ item ∈ items, Readable schema element item := by
  rw [readable_iff]
  constructor
  · rintro ⟨here, inside⟩
    exact ⟨here.items kind element items elements list,
      fun item mem => inside (element, item) (.item kind elements list mem)⟩
  · rintro ⟨few, inside⟩
    refine ⟨⟨?_, fun _ element' items' elements' list' => ?_, ?_⟩, fun place part => ?_⟩
    · simp [kind]
    · cases elements.symm.trans elements'
      cases list.symm.trans list'
      exact few
    · simp [kind]
    · cases part with
      | item _ elements' list' mem =>
        cases elements.symm.trans elements'
        cases list.symm.trans list'
        exact inside _ mem
      | _ => simp_all

theorem readsBackAs_array :
    ReadsBackAs schema enc v v' ↔
      ∃ items', List.Forall₂ (ReadsBackAs schema element) items items' ∧ v' = .list items' := by
  simp only [forall₂_iff_zip]
  constructor
  · intro back
    cases back with
    | @array _ _ _ _ items' _ elements' list' length each =>
      cases elements.symm.trans elements'
      cases list.symm.trans list'
      exact ⟨items', ⟨length, fun mem => each _ mem⟩, rfl⟩
    | _ => simp_all
  · rintro ⟨items', ⟨length, each⟩, rfl⟩
    exact .array kind elements list length fun p mem => each mem

end

section

variable (kind : enc.native.kind = .map) {key value : Encoding}
  (keys : enc.native.key = some key) (values : enc.native.value = some value)
  {entries : List (Value × Value)} (map : v.entries? = some entries)

include kind keys values map

theorem readable_map :
    Readable schema enc v ↔
      (minEncodedBits key = 0 → entries.length ≤ maxEmptyElements) ∧
        ∀ entry ∈ entries, Readable schema key entry.1 ∧ Readable schema value entry.2 := by
  rw [readable_iff]
  constructor
  · rintro ⟨here, inside⟩
    exact ⟨here.entries kind key entries keys map, fun entry mem =>
      ⟨inside (key, entry.1) (.key kind keys map mem),
        inside (value, entry.2) (.value kind values map mem)⟩⟩
  · rintro ⟨few, inside⟩
    refine ⟨⟨?_, ?_, fun _ key' entries' keys' map' => ?_⟩, fun place part => ?_⟩
    · simp [kind]
    · simp [kind]
    · cases keys.symm.trans keys'
      cases map.symm.trans map'
      exact few
    · cases part with
      | key _ keys' map' mem =>
        cases keys.symm.trans keys'
        cases map.symm.trans map'
        exact (inside _ mem).1
      | value _ values' map' mem =>
        cases values.symm.trans values'
        cases map.symm.trans map'
        exact (inside _ mem).2
      | _ => simp_all

theorem readsBackAs_map :
    ReadsBackAs schema enc v v' ↔
      ∃ entries', List.Forall₂ (fun entry entry' => ReadsBackAs schema key entry.1 entry'.1 ∧
        ReadsBackAs schema value entry.2 entry'.2) entries entries' ∧ v' = .map entries' := by
  simp only [forall₂_iff_zip]
  constructor
  · intro back
    cases back with
    | @map _ _ _ _ _ entries' _ keys' values' map' length eachKey eachValue =>
      cases keys.symm.trans keys'
      cases values.symm.trans values'
      cases map.symm.trans map'
      exact ⟨entries', ⟨length, fun mem => ⟨eachKey _ mem, eachValue _ mem⟩⟩, rfl⟩
    | _ => simp_all
  · rintro ⟨entries', ⟨length, each⟩, rfl⟩
    exact .map kind keys values map length (fun p mem => (each mem).1) fun p mem => (each mem).2

end

section

variable (kind : enc.native.kind = .message) {d : Ir.Descriptor} {m : Ir.Message}
  (descriptor : enc.native.descriptor = some d) (found : schema.findMessage d = .ok (some m))
  {values : List (String × Value)} (fields : v.asFields? = some values)

include kind descriptor found fields

theorem readable_message :
    Readable schema enc v ↔
      ∀ f ∈ m.fields, Readable schema f.encoding (Value.fieldOf values f.name) := by
  rw [readable_iff]
  constructor
  · rintro ⟨-, inside⟩ f mem
    exact inside (f.encoding, _) (.field kind descriptor found fields mem)
  · intro inside
    refine ⟨⟨by simp [kind], by simp [kind], by simp [kind]⟩, fun place part => ?_⟩
    cases part with
    | field _ descriptor' found' fields' mem =>
      cases descriptor.symm.trans descriptor'
      cases found.symm.trans found'
      cases fields.symm.trans fields'
      exact inside _ mem
    | _ => simp_all

theorem readsBackAs_message :
    ReadsBackAs schema enc v v' ↔
      ∃ vs, List.Forall₂ (fun f => ReadsBackAs schema f.encoding (Value.fieldOf values f.name))
          (sortedFields m) vs ∧
        v' = .message (((sortedFields m).map (·.name)).zip vs) := by
  simp only [forall₂_iff_zip]
  constructor
  · intro back
    cases back with
    | @message _ _ _ _ _ vs _ descriptor' found' fields' length each =>
      cases descriptor.symm.trans descriptor'
      cases found.symm.trans found'
      cases fields.symm.trans fields'
      exact ⟨vs, ⟨length, fun mem => each _ mem⟩, rfl⟩
    | _ => simp_all
  · rintro ⟨vs, ⟨length, each⟩, rfl⟩
    exact .message kind descriptor found fields length fun p mem => each mem

end

section

variable (kind : enc.native.kind = .enum) {d : Ir.Descriptor} {e : Ir.Enum}
  (descriptor : enc.native.descriptor = some d) (found : schema.findEnum d = .ok (some e))
  {name : Octets} {payload : Value} (parts : enumParts? v = some (name, payload))
  {variant : Ir.Variant} (named : variantNamed e name = .ok (some variant))

include kind descriptor found parts named

theorem readable_enum :
    Readable schema enc v ↔ ∀ f, variant.field = some f → Readable schema f.encoding payload := by
  rw [readable_iff]
  constructor
  · rintro ⟨-, inside⟩ f field
    exact inside (f.encoding, payload) (.payload kind descriptor found parts named field)
  · intro inside
    refine ⟨⟨by simp [kind], by simp [kind], by simp [kind]⟩, fun place part => ?_⟩
    cases part with
    | payload _ descriptor' found' parts' named' field =>
      cases descriptor.symm.trans descriptor'
      cases found.symm.trans found'
      cases parts.symm.trans parts'
      cases named.symm.trans named'
      exact inside _ field
    | _ => simp_all

theorem readsBackAs_enum :
    ReadsBackAs schema enc v v' ↔
      match variant.field with
      | none => v' = .enum variant.name .null
      | some f => ∃ payload', ReadsBackAs schema f.encoding payload payload' ∧
          v' = .enum variant.name payload' := by
  constructor
  · intro back
    cases back with
    | unit _ descriptor' found' parts' named' field
    | payload _ descriptor' found' parts' named' field inner =>
      cases descriptor.symm.trans descriptor'
      cases found.symm.trans found'
      cases parts.symm.trans parts'
      cases named.symm.trans named'
      simp_all only [Value.enum.injEq, true_and, exists_eq_right']
    | _ => simp_all
  · cases field : variant.field with
    | none =>
      rintro rfl
      exact .unit kind descriptor found parts named field
    | some f =>
      rintro ⟨payload', inner, rfl⟩
      exact .payload kind descriptor found parts named field inner

end

end

end BitSchema.Codec
