import BitSchema.Ir.Document
import BitSchema.Proofs.Definitions
import BitSchema.Proofs.JsonText

/-!
# Schemas in documents

What a schema is written as is read back as that schema: every part that is left out means the part
that was not there.  This holds of schemas that were written by hand as well, as long as no kind in
them is spelled like another one and no definition is absent.
-/

namespace BitSchema

open List

namespace Json

/-! ## Members of records -/

/-- The values that members give a field. -/
def valuesOf (members : List (String × Json)) (field : String) : List Json :=
  (members.filter (·.1 == field)).map Prod.snd

@[simp] theorem valuesOf_nil (field : String) : valuesOf [] field = [] := rfl

@[simp] theorem valuesOf_cons (m : String × Json) (ms : List (String × Json)) (field : String) :
    valuesOf (m :: ms) field =
      if m.1 = field then m.2 :: valuesOf ms field else valuesOf ms field := by
  by_cases same : m.1 = field <;> simp [valuesOf, same]

@[simp] theorem valuesOf_append (ms more : List (String × Json)) (field : String) :
    valuesOf (ms ++ more) field = valuesOf ms field ++ valuesOf more field := by
  simp [valuesOf]

/-- All members are of a kind. -/
def Each (p : String × Json → Prop) (members : List (String × Json)) : Prop := ∀ m ∈ members, p m

section

variable {p : String × Json → Prop}

@[simp] theorem each_nil : Each p [] := forall_mem_nil _

@[simp] theorem each_cons {m : String × Json} {ms : List (String × Json)} :
    Each p (m :: ms) ↔ p m ∧ Each p ms :=
  forall_mem_cons

@[simp] theorem each_append {ms more : List (String × Json)} :
    Each p (ms ++ more) ↔ Each p ms ∧ Each p more :=
  forall_mem_append

end

/-- Fuel for the depth of an object is one more than fuel for what stands in it. -/
theorem fuel_object {members : List (String × Json)} {fuel : Nat}
    (enough : (object members).depth ≤ fuel) :
    ∃ inner, fuel = inner + 1 ∧ ∀ m ∈ members, m.2.depth ≤ inner := by
  have inside : ∀ m ∈ members, m.2.depth ≤ depth.depthMembers members := fun m mem =>
    le_of_max (f := fun m => m.2.depth) (fun _ _ => by rw [depth.depthMembers]) mem
  rw [depth] at enough
  obtain ⟨inner, rfl⟩ := Nat.exists_eq_add_one.mpr (by omega : 0 < fuel)
  exact ⟨inner, rfl, fun m mem => (inside m mem).trans (by omega)⟩

theorem depth_le_of_mem {elements : List Json} {j : Json} (mem : j ∈ elements) :
    j.depth ≤ (array elements).depth := by
  have inside : j.depth ≤ depth.depthElements elements :=
    le_of_max (fun _ _ => by rw [depth.depthElements]) mem
  rw [depth]
  omega

namespace Reading

theorem fieldMeant?_of_mem {fields : List String} {name : String} (mem : name ∈ fields) :
    fieldMeant? fields name = some name := by
  have found : fields.find? (· == name) = some name := by
    have isSome := find?_isSome (p := (· == name)).mpr ⟨name, mem, beq_self_eq_true name⟩
    obtain ⟨f, hit⟩ := Option.isSome_iff_exists.mp isSome
    have same : f = name := by simpa using find?_some hit
    rw [hit, same]
  rw [fieldMeant?, found, Option.some_or]

theorem mapM_eq_map {α β : Type} {f : α → Option β} {g : α → β} {as : List α}
    (each : ∀ a ∈ as, f a = some (g a)) : as.mapM f = some (as.map g) := by
  induction as with
  | nil => rfl
  | cons a as ih =>
    rw [mapM_cons, each a mem_cons_self, ih fun x mem => each x (mem_cons_of_mem a mem)]
    rfl

/-- An object with the names of fields gives each field what stands under its name. -/
theorem record_object {fields : List String} {members : List (String × Json)}
    (names : Each (·.1 ∈ fields) members) :
    record fields [object members] = some (valuesOf members) := by
  have named : members.mapM (fun m => (fieldMeant? fields m.1).map fun name => (name, m.2)) =
      some (members.map id) :=
    mapM_eq_map fun m mem => by rw [fieldMeant?_of_mem (names m mem), Option.map_some, id]
  rw [map_id] at named
  have outer : [object members].mapM members? = some [members] := rfl
  simp only [record, outer, Option.bind_eq_bind, Option.bind_some, flatten_singleton, named]
  rfl

/-! ## Readings of single values -/

@[simp] theorem string_nil : string [] = some "" := rfl

@[simp] theorem string_single (s : String) : string [.string s] = some s := rfl

@[simp] theorem bool_nil : bool [] = some false := rfl

@[simp] theorem bool_single (b : Bool) : bool [.bool b] = some b := rfl

@[simp] theorem uint32_nil : uint32 [] = some 0 := rfl

@[simp] theorem uint32_single (n : UInt32) : uint32 [.nat n.toNat] = some n := by
  have literal : natLiteral? n.toNat.repr = some n.toNat := by
    rw [natLiteral?, Nat.toList_repr, readDigits?_toDigits]
  simp [uint32, plain, nat, isNull, literal, n.toNat_lt]

section

variable {α : Type} {part : Reading α} {j : Json} {a : α}

theorem optional_single (present : j.isNull = false) (reads : part [j] = some a) :
    optional part [j] = some (some a) := by
  simp [optional, optionalSince, present, given, reads]

theorem entry_single {absent : α} (present : j.isNull = false) (reads : part [j] = some a) :
    entry absent part [j] = some a := by
  simp [entry, optional_single present reads]

/-- The only array that a list is given is read element by element. -/
theorem listing_array {β : Type} {toJson : β → Json} {read : Reading β} {items : List β}
    (reads : ∀ b ∈ items, read [toJson b] = some b) :
    listing read [.array (items.map toJson)] = some (some items) := by
  have stacked : ∀ js : List Json, stack [] js = js.map ([·]) := by
    intro js
    induction js with
    | nil => rfl
    | cons j js ih => rw [stack, ih, map_cons]
  have columns : (stack [] (items.map toJson)).mapM read = some items := by
    rw [stacked, map_map, mapM_map]
    have all := mapM_eq_map (g := id) reads
    rwa [map_id] at all
  cases items with
  | nil => rfl
  | cons b bs =>
    rw [map_cons] at columns ⊢
    rw [listing, listingSince, listingSince, columns]
    simp

end

end Reading

end Json

namespace Ir

open Json (valuesOf Reading)

/-! ## Members that may be left out -/

/-- A member for a part that may be missing. -/
def optionMember (name : String) (value? : Option Json) : List (String × Json) :=
  value?.toList.map (name, ·)

section

variable {name field : String} {p : String × Json → Prop}

@[simp] theorem each_memberIf {present : Bool} {value : Json} :
    Json.Each p (memberIf name present value) ↔ (present = true → p (name, value)) := by
  cases present <;> simp [memberIf]

@[simp] theorem each_textMember {s : String} :
    Json.Each p (textMember name s) ↔ (s ≠ "" → p (name, .string s)) := by
  simp [textMember]

@[simp] theorem each_numberMember {n : UInt32} :
    Json.Each p (numberMember name n) ↔ (n ≠ 0 → p (name, .nat n.toNat)) := by
  simp [numberMember]

@[simp] theorem each_listMember {js : List Json} :
    Json.Each p (listMember name js) ↔ (js ≠ [] → p (name, .array js)) := by
  simp [listMember]

@[simp] theorem each_optionMember {value? : Option Json} :
    Json.Each p (optionMember name value?) ↔ ∀ j ∈ value?, p (name, j) := by
  cases value? <;> simp [optionMember]

section

variable (other : name ≠ field)

include other

@[simp] theorem valuesOf_memberIf (present : Bool) (value : Json) :
    valuesOf (memberIf name present value) field = [] := by
  cases present <;> simp [memberIf, other]

@[simp] theorem valuesOf_textMember (s : String) : valuesOf (textMember name s) field = [] :=
  valuesOf_memberIf other _ _

@[simp] theorem valuesOf_numberMember (n : UInt32) : valuesOf (numberMember name n) field = [] :=
  valuesOf_memberIf other _ _

@[simp] theorem valuesOf_listMember (js : List Json) : valuesOf (listMember name js) field = [] :=
  valuesOf_memberIf other _ _

@[simp] theorem valuesOf_optionMember (value? : Option Json) :
    valuesOf (optionMember name value?) field = [] := by
  cases value? <;> simp [optionMember, other]

end

@[simp] theorem string_textMember (s : String) :
    Reading.string (valuesOf (textMember name s) name) = some s := by
  by_cases empty : s = "" <;> simp [textMember, memberIf, empty]

@[simp] theorem uint32_numberMember (n : UInt32) :
    Reading.uint32 (valuesOf (numberMember name n) name) = some n := by
  by_cases zero : n = 0 <;> simp [numberMember, memberIf, zero]

@[simp] theorem bool_memberIf (b : Bool) :
    Reading.bool (valuesOf (memberIf name b (.bool b)) name) = some b := by
  cases b <;> simp [memberIf]

theorem list_listMember {α : Type} {toJson : α → Json} {read : Reading α} (name : String)
    {items : List α} (reads : ∀ a ∈ items, read [toJson a] = some a) :
    Reading.list read (valuesOf (listMember name (items.map toJson)) name) = some items := by
  cases items with
  | nil => rfl
  | cons a as =>
    have values : valuesOf (listMember name ((a :: as).map toJson)) name =
        [.array ((a :: as).map toJson)] := by
      simp [listMember, memberIf]
    rw [Reading.list, values, Reading.listing_array reads]
    rfl

theorem optional_optionMember {α : Type} {toJson : α → Json} {read : Reading α} (name : String)
    {item? : Option α} (present : ∀ a, (toJson a).isNull = false)
    (reads : ∀ a ∈ item?, read [toJson a] = some a) :
    Reading.optional read (valuesOf (optionMember name (item?.map toJson)) name) = some item? := by
  cases item? with
  | none => rfl
  | some a =>
    have values : valuesOf (optionMember name (some (toJson a))) name = [toJson a] := by
      simp [optionMember]
    rw [Option.map_some, values]
    exact Reading.optional_single (present a) (reads a rfl)

/-- An absent list is null, and null is read as an absent list. -/
theorem listing_listOrNull {α : Type} {toJson : α → Json} {read : Reading α} (absent : α)
    {items? : Option (List α)} {fuel : Nat} (present : ∀ a, (toJson a).isNull = false)
    (enough : (listOrNull (items?.map (·.map toJson))).depth ≤ fuel)
    (reads : ∀ a ∈ items?.getD [], (toJson a).depth ≤ fuel → read [toJson a] = some a) :
    Reading.listing (Reading.entry absent read) [listOrNull (items?.map (·.map toJson))] =
      some items? := by
  cases items? with
  | none => rfl
  | some items =>
    refine Reading.listing_array fun a mem => Reading.entry_single (present a) (reads a mem ?_)
    exact (Json.depth_le_of_mem (mem_map_of_mem mem)).trans enough

end

/-! ## Names and layouts -/

theorem Descriptor.read_toJson (d : Descriptor) : Descriptor.read [d.toJson] = some d := by
  have path := list_listMember "path" fun s (_ : s ∈ d.path) => Reading.string_single s
  rw [Descriptor.read, toJson, Reading.record_object (by simp)]
  simp [path]

theorem WireFormat.read_toJson {w : WireFormat} (spelled : WireKind.ofName w.kind.name = w.kind) :
    WireFormat.read [w.toJson] = some w := by
  rw [WireFormat.read, toJson, Reading.record_object (by simp)]
  simp [kindReading, spelled]

theorem Transform.read_toJson {t : Transform}
    (spelled : TransformKind.ofName t.kind.name = t.kind) : Transform.read [t.toJson] = some t := by
  rw [Transform.read, toJson, Reading.record_object (by simp)]
  simp [kindReading, spelled]

/-! ## Encodings -/

/-- The kinds at one level of an encoding are what their names stand for. -/
structure Encoding.Spelled (e : Encoding) : Prop where
  wire : WireKind.ofName e.wire.kind.name = e.wire.kind
  native : NativeKind.ofName e.native.kind.name = e.native.kind
  transforms : ∀ t ∈ e.transforms, TransformKind.ofName t.kind.name = t.kind

/-- The document of an encoding is read back with fuel for its depth. -/
def Encoding.Restored (e : Encoding) : Prop :=
  ∀ fuel, e.toJson.depth ≤ fuel → Encoding.read fuel [e.toJson] = some e

theorem Encoding.toJson_eq (e : Encoding) :
    e.toJson = .object ([("wire", e.wire.toJson), ("native", e.native.toJson)] ++
      listMember "transforms" (e.transforms.map Transform.toJson) ++
      optionMember "padding_bits" (e.paddingBits.map fun n => .nat n.toNat)) := by
  obtain ⟨wire, native, transforms, padding⟩ := e
  cases padding <;> simp [Encoding.toJson, optionMember]

theorem NativeType.toJson_eq (n : NativeType) :
    n.toJson = .object ([("kind", .string n.kind.name)] ++ numberMember "bits" n.bits ++
      memberIf "signed" n.signed (.bool n.signed) ++
      optionMember "element" (n.element.map Encoding.toJson) ++
      optionMember "key" (n.key.map Encoding.toJson) ++
      optionMember "value" (n.value.map Encoding.toJson) ++
      optionMember "descriptor" (n.descriptor.map Descriptor.toJson)) := by
  obtain ⟨kind, bits, signed, element, key, value, descriptor⟩ := n
  cases element <;> cases key <;> cases value <;> cases descriptor <;>
    simp [NativeType.toJson, partMember, optionMember]

theorem isNull_toJson (e : Encoding) : e.toJson.isNull = false := by
  rw [e.toJson_eq]
  rfl

theorem mem_optionMember (name : String) {value? : Option Json} {j : Json} (given : j ∈ value?) :
    (name, j) ∈ optionMember name value? := by
  cases given
  simp [optionMember]

variable {fuel : Nat} {s : Schema}

theorem NativeType.read_toJson {n : NativeType} (spelled : NativeKind.ofName n.kind.name = n.kind)
    (element : ∀ e ∈ n.element, e.Restored) (key : ∀ e ∈ n.key, e.Restored)
    (value : ∀ e ∈ n.value, e.Restored) (enough : n.toJson.depth ≤ fuel) :
    NativeType.read fuel [n.toJson] = some n := by
  rw [n.toJson_eq] at enough ⊢
  obtain ⟨fuel, rfl, inside⟩ := Json.fuel_object enough
  have part : ∀ (name : String) {part : Option Encoding}, (∀ e ∈ part, e.Restored) →
      (∀ m ∈ optionMember name (part.map Encoding.toJson), m.2.depth ≤ fuel) →
      Reading.optional (Encoding.read fuel)
        (valuesOf (optionMember name (part.map Encoding.toJson)) name) = some part :=
    fun name _ restored depth => optional_optionMember name isNull_toJson fun e mem =>
      restored e mem fuel
        (depth _ (mem_optionMember name (Option.mem_map_of_mem Encoding.toJson mem)))
  have elements := part "element" element fun m mem => inside m (by simp [mem])
  have keys := part "key" key fun m mem => inside m (by simp [mem])
  have values := part "value" value fun m mem => inside m (by simp [mem])
  have descriptors : Reading.optional Descriptor.read (valuesOf (optionMember "descriptor"
      (n.descriptor.map Descriptor.toJson)) "descriptor") = some n.descriptor :=
    optional_optionMember "descriptor" (fun d => rfl) fun d _ => d.read_toJson
  obtain ⟨kind, bits, signed, e, k, v, descriptor⟩ := n
  rw [NativeType.read]
  dsimp only
  rw [Reading.record_object (by simp)]
  simp [kindReading, spelled, elements, keys, values, descriptors]

theorem Encoding.read_toJson {e : Encoding} (spelled : e.Spelled)
    (element : ∀ inner ∈ e.native.element, inner.Restored)
    (key : ∀ inner ∈ e.native.key, inner.Restored)
    (value : ∀ inner ∈ e.native.value, inner.Restored) : e.Restored := by
  intro fuel enough
  rw [e.toJson_eq] at enough ⊢
  obtain ⟨fuel, rfl, inside⟩ := Json.fuel_object enough
  have native := NativeType.read_toJson spelled.native element key value
    (inside ("native", e.native.toJson) (by simp))
  have transforms := list_listMember "transforms" fun t mem =>
    Transform.read_toJson (spelled.transforms t mem)
  have padding : Reading.optional Reading.uint32 (valuesOf (optionMember "padding_bits"
      (e.paddingBits.map fun n => .nat n.toNat)) "padding_bits") = some e.paddingBits :=
    optional_optionMember "padding_bits" (fun n => rfl) fun n _ => Reading.uint32_single n
  have wire := WireFormat.read_toJson spelled.wire
  obtain ⟨w, n, ts, paddingBits⟩ := e
  rw [Encoding.read]
  dsimp only
  rw [Reading.record_object (by simp)]
  simp [wire, native, transforms, padding]

-- By induction on the encoding; a type can hold three encodings more.
mutual
theorem restored_of_levels : ∀ e : Encoding, (∀ level ∈ e.levels, level.Spelled) → e.Restored
  | ⟨wire, native, transforms, paddingBits⟩, spelled => by
    rw [Encoding.levels] at spelled
    obtain ⟨here, parts⟩ := forall_mem_cons.mp spelled
    obtain ⟨element, key, value⟩ := restored_of_parts native parts
    exact Encoding.read_toJson here element key value
theorem restored_of_parts : ∀ n : NativeType, (∀ level ∈ n.parts, level.Spelled) →
    (∀ e ∈ n.element, e.Restored) ∧ (∀ e ∈ n.key, e.Restored) ∧ ∀ e ∈ n.value, e.Restored
  | ⟨kind, bits, signed, element, key, value, descriptor⟩, spelled => by
    rw [NativeType.parts, forall_mem_append, forall_mem_append] at spelled
    exact ⟨restored_of_partLevels element spelled.1.1, restored_of_partLevels key spelled.1.2,
      restored_of_partLevels value spelled.2⟩
theorem restored_of_partLevels : ∀ part : Option Encoding,
    (∀ level ∈ partLevels part, level.Spelled) → ∀ e ∈ part, e.Restored
  | none, _, e, mem => by cases mem
  | some inner, spelled, e, mem => by
    obtain rfl : inner = e := Option.some.inj mem
    rw [partLevels_some] at spelled
    exact restored_of_levels inner spelled
end

/-! ## Definitions -/

/-- A field that is there, with kinds that are what their names stand for. -/
structure Field.Legible (f : Field) : Prop where
  present : f.absent = false
  encoding : ∀ level ∈ f.encoding.levels, level.Spelled

structure Variant.Legible (v : Variant) : Prop where
  present : v.absent = false
  payload : ∀ f ∈ v.field, f.Legible

structure Enum.Legible (e : Enum) : Prop where
  present : e.absent = false
  discriminant : ∀ level ∈ e.discriminant.levels, level.Spelled
  variants : ∀ v ∈ e.variants, v.Legible

inductive Message.Legible : Message → Prop where
  | intro {m : Message} (present : m.absent = false) (fields : ∀ f ∈ m.fields, f.Legible)
      (messages : ∀ inner ∈ m.messages, inner.Legible) (enums : ∀ e ∈ m.enums, e.Legible) :
      m.Legible

structure Package.Legible (p : Package) : Prop where
  present : p.absent = false
  messages : ∀ m ∈ p.messages, m.Legible
  enums : ∀ e ∈ p.enums, e.Legible

theorem list_entries {α : Type} {toJson : α → Json} {read : Reading α} (name : String) (absent : α)
    {items : List α} (present : ∀ a, (toJson a).isNull = false)
    (enough : ∀ m ∈ listMember name (items.map toJson), m.2.depth ≤ fuel)
    (reads : ∀ a ∈ items, (toJson a).depth ≤ fuel → read [toJson a] = some a) :
    Reading.list (Reading.entry absent read)
      (valuesOf (listMember name (items.map toJson)) name) = some items := by
  refine list_listMember name fun a mem => Reading.entry_single (present a) (reads a mem ?_)
  have filled : items ≠ [] := ne_nil_of_mem mem
  have array := enough (name, .array (items.map toJson)) (by simp [listMember, memberIf, filled])
  exact (Json.depth_le_of_mem (mem_map_of_mem mem)).trans array

theorem Field.Legible.read {f : Field} (legible : f.Legible) (enough : f.toJson.depth ≤ fuel) :
    Field.read fuel [f.toJson] = some f := by
  rw [Field.toJson] at enough
  obtain ⟨inner, rfl, inside⟩ := Json.fuel_object enough
  have encoding := restored_of_levels f.encoding legible.encoding (inner + 1)
    ((inside ("encoding", f.encoding.toJson) (by simp)).trans (Nat.le_succ inner))
  have present := legible.present
  obtain ⟨name, index, enc, doc, absent⟩ := f
  cases present
  rw [Field.read, Field.toJson, Reading.record_object (by simp)]
  simp [encoding]

theorem Variant.toJson_eq (v : Variant) :
    v.toJson = .object ([("kind", .string v.kind), ("name", .string v.name),
      ("index", .nat v.index.toNat)] ++ optionMember "field" (v.field.map Field.toJson) ++
        textMember "doc" v.doc) := by
  obtain ⟨kind, name, index, field, doc, absent⟩ := v
  cases field <;> simp [Variant.toJson, optionMember]

theorem Variant.Legible.read {v : Variant} (legible : v.Legible) (enough : v.toJson.depth ≤ fuel) :
    Variant.read fuel [v.toJson] = some v := by
  rw [v.toJson_eq] at enough ⊢
  obtain ⟨inner, rfl, inside⟩ := Json.fuel_object enough
  have field : Reading.optional (Field.read (inner + 1)) (valuesOf (optionMember "field"
      (v.field.map Field.toJson)) "field") = some v.field :=
    optional_optionMember "field" (fun f => rfl) fun f mem => by
      have given := mem_optionMember "field" (Option.mem_map_of_mem Field.toJson mem)
      have depth := inside ("field", f.toJson) (by simp [given])
      exact (legible.payload f mem).read (depth.trans (Nat.le_succ inner))
  have present := legible.present
  obtain ⟨kind, name, index, payload, doc, absent⟩ := v
  cases present
  rw [Variant.read, Reading.record_object (by simp)]
  simp [field]

theorem Enum.Legible.read {e : Enum} (legible : e.Legible) (enough : e.toJson.depth ≤ fuel) :
    Enum.read fuel [e.toJson] = some e := by
  rw [Enum.toJson] at enough
  obtain ⟨inner, rfl, inside⟩ := Json.fuel_object enough
  have discriminant := restored_of_levels e.discriminant legible.discriminant (inner + 1)
    ((inside ("discriminant", e.discriminant.toJson) (by simp)).trans (Nat.le_succ inner))
  have depth := inside ("variants", listOrNull (e.variants?.map (·.map Variant.toJson))) (by simp)
  have variants := listing_listOrNull { absent := true } (fun v => rfl)
    (depth.trans (Nat.le_succ inner)) fun v mem => (legible.variants v mem).read
  have present := legible.present
  obtain ⟨descriptor, name, disc, variants?, doc, absent⟩ := e
  cases present
  rw [Enum.read, Enum.toJson, Reading.record_object (by simp)]
  simp [Descriptor.read_toJson, discriminant, variants]

theorem messagesToJson_eq (ms : List Message) : messagesToJson ms = ms.map Message.toJson := by
  induction ms with
  | nil => rw [messagesToJson, map_nil]
  | cons m ms ih => rw [messagesToJson, ih, map_cons]

theorem Message.toJson_eq (m : Message) :
    m.toJson = .object ([("descriptor", m.descriptor.toJson), ("name", .string m.name),
      ("fields", listOrNull (m.fields?.map (·.map Field.toJson)))] ++
        listMember "messages" (m.messages.map Message.toJson) ++
        listMember "enums" (m.enums.map Enum.toJson) ++ textMember "doc" m.doc) := by
  obtain ⟨descriptor, name, fields, messages, enums, doc, absent⟩ := m
  rw [Message.toJson, messagesToJson_eq]

theorem Message.isNull_toJson (m : Message) : m.toJson.isNull = false := by
  rw [m.toJson_eq]
  rfl

theorem Message.Legible.read {m : Message} (legible : m.Legible) (enough : m.toJson.depth ≤ fuel) :
    Message.read fuel [m.toJson] = some m := by
  induction legible generalizing fuel with
  | @intro m present fieldsLegible _ enumsLegible ih =>
    rw [m.toJson_eq] at enough ⊢
    obtain ⟨inner, rfl, inside⟩ := Json.fuel_object enough
    have depth := inside ("fields", listOrNull (m.fields?.map (·.map Field.toJson))) (by simp)
    have fields := listing_listOrNull { absent := true } (fun f => rfl) depth
      fun f mem => (fieldsLegible f mem).read
    have messages := list_entries "messages" { absent := true } Message.isNull_toJson
      (fun x mem => inside x (by simp [mem])) fun m mem => ih m mem
    have enums := list_entries "enums" { absent := true } (fun e => rfl)
      (fun x mem => inside x (by simp [mem])) fun e mem => (enumsLegible e mem).read
    obtain ⟨descriptor, name, fs, ms, es, doc, absent⟩ := m
    cases present
    rw [Message.read]
    dsimp only
    rw [Reading.record_object (by simp)]
    simp [Descriptor.read_toJson, fields, messages, enums]

theorem Package.Legible.read {p : Package} (legible : p.Legible) (enough : p.toJson.depth ≤ fuel) :
    Package.read fuel [p.toJson] = some p := by
  rw [Package.toJson] at enough
  obtain ⟨inner, rfl, inside⟩ := Json.fuel_object enough
  have more := Nat.le_succ inner
  have depth := inside ("messages", listOrNull (p.messages?.map (·.map Message.toJson))) (by simp)
  have messages := listing_listOrNull { absent := true } (fun m => m.isNull_toJson)
    (depth.trans more) fun m mem => (legible.messages m mem).read
  have depth := inside ("enums", listOrNull (p.enums?.map (·.map Enum.toJson))) (by simp)
  have enums := listing_listOrNull { absent := true } (fun e => rfl) (depth.trans more)
    fun e mem => (legible.enums e mem).read
  have present := legible.present
  obtain ⟨path, messages?, enums?, absent⟩ := p
  cases present
  rw [Package.read, Package.toJson, Reading.record_object (by simp)]
  simp [messages, enums]

/-- A schema is read back from the value it is written as. -/
theorem Schema.ofJson?_toJson (legible : ∀ p ∈ s.packages, p.Legible) :
    Schema.ofJson? s.toJson = some s := by
  obtain ⟨inner, depth, inside⟩ := Json.fuel_object (Nat.le_refl s.toJson.depth)
  have within := inside ("packages", listOrNull (s.packages?.map (·.map Package.toJson))) (by simp)
  have packages := listing_listOrNull { absent := true } (fun p => rfl)
    (within.trans (Nat.le_succ inner)) fun p mem => (legible p mem).read
  rw [Schema.ofJson?, depth, Schema.read, Schema.toJson, Reading.record_object (by simp)]
  simp [packages]

/-! ## Documents -/

section

open Json (Counted)

attribute [simp] Counted.string Counted.bool Counted.nat

/-- A list of counted values is counted. -/
@[simp] theorem counted_array {α : Type} {toJson : α → Json} {items : List α}
    (counted : ∀ a ∈ items, Counted (toJson a)) : Counted (.array (items.map toJson)) :=
  .array (forall_mem_map.mpr counted)

@[simp] theorem counted_listOrNull {α : Type} {toJson : α → Json} {items? : Option (List α)}
    (counted : ∀ a ∈ items?.getD [], Counted (toJson a)) :
    Counted (listOrNull (items?.map (·.map toJson))) := by
  cases items? with
  | none => exact .null
  | some items => exact counted_array counted

theorem counted_object {members : List (String × Json)} (all : Json.Each (Counted ·.2) members) :
    Counted (.object members) :=
  .object all

@[simp] theorem Descriptor.counted (d : Descriptor) : Counted d.toJson :=
  counted_object (by simp)

@[simp] theorem WireFormat.counted (w : WireFormat) : Counted w.toJson :=
  counted_object (by simp)

@[simp] theorem Transform.counted (t : Transform) : Counted t.toJson :=
  counted_object (by simp)

-- By induction on the encoding, as above.
mutual
theorem Encoding.counted : ∀ e : Encoding, Counted e.toJson
  | ⟨wire, native, transforms, paddingBits⟩ => by
    have inner := NativeType.counted native
    rw [Encoding.toJson_eq]
    exact counted_object (by simp [inner])
theorem NativeType.counted : ∀ n : NativeType, Counted n.toJson
  | ⟨kind, bits, signed, element, key, value, descriptor⟩ => by
    have elements := part_counted element
    have keys := part_counted key
    have values := part_counted value
    rw [NativeType.toJson_eq]
    exact counted_object (by simp_all)
theorem part_counted : ∀ part : Option Encoding, ∀ e ∈ part, Counted e.toJson
  | none, e, mem => by cases mem
  | some inner, e, mem => by
    obtain rfl : inner = e := Option.some.inj mem
    exact Encoding.counted inner
end

@[simp] theorem Field.counted (f : Field) : Counted f.toJson :=
  counted_object (by simp [Encoding.counted])

@[simp] theorem Variant.counted (v : Variant) : Counted v.toJson := by
  rw [Variant.toJson_eq]
  exact counted_object (by simp)

@[simp] theorem Enum.counted (e : Enum) : Counted e.toJson :=
  counted_object (by simp [Encoding.counted])

-- By induction on the message, which can hold messages.
mutual
theorem Message.counted : ∀ m : Message, Counted m.toJson
  | ⟨descriptor, name, fields?, messages, enums, doc, absent⟩ => by
    have inner := messages_counted messages
    rw [Message.toJson_eq]
    exact counted_object (by simp_all)
theorem messages_counted : ∀ ms : List Message, ∀ m ∈ ms, Counted m.toJson
  | [] => forall_mem_nil _
  | first :: ms => forall_mem_cons.mpr ⟨Message.counted first, messages_counted ms⟩
end

@[simp] theorem Package.counted (p : Package) : Counted p.toJson :=
  counted_object (by simp [Message.counted])

theorem Schema.counted (s : Schema) : Counted s.toJson :=
  counted_object (by simp)

end

/-- The document of a schema is read as that schema, unless it is too deep. -/
theorem Schema.ofDocument?_document (legible : ∀ p ∈ s.packages, p.Legible) :
    Schema.ofDocument? (Octets.ofString s.document) =
      if s.toJson.nesting ≤ Json.depthLimit then some s else none := by
  rw [Schema.ofDocument?, Schema.document, Json.parse?_pretty s.counted]
  split
  · simpa using Schema.ofJson?_toJson legible
  · rfl

/-- A schema is encoded exactly if it is not too deep. -/
theorem Schema.encode_eq_ok (s : Schema) {text : String} :
    s.encode = .ok text ↔ s.toJson.nesting ≤ Json.depthLimit ∧ text = s.document := by
  rw [Schema.encode, ← Json.excess?_eq_none]
  split
  next deep => simp [deep]
  next shallow => simp [shallow, eq_comm]

/-- Of a schema that is too deep, the bracket is reported that opens one level too many. -/
theorem Schema.encode_eq_error (deep : Json.depthLimit < s.toJson.nesting) :
    ∃ octet, s.encode = .error (.wrong octet .depth) := by
  have some : s.toJson.excess? Json.depthLimit ≠ none := by
    rw [ne_eq, Json.excess?_eq_none]
    omega
  obtain ⟨bracket, found⟩ := Option.ne_none_iff_exists'.mp some
  exact ⟨_, by rw [Schema.encode, found]⟩

end Ir

end BitSchema
