import BitSchema.Proofs.CheckedEncodings
import BitSchema.Proofs.LoweredFields

/-!
# Lowered schemas

What the checks of a source say about the schema it is lowered to.  Every definition comes from a
declaration that was checked: every message has fields of different names, every enum has different
indices that its discriminant holds, and every encoding is laid out as the codec expects.
-/

namespace BitSchema

open List
open Ir (Encoding familyOf)

/-! ## Sound definitions -/

/-- A message whose fields have names of their own and encodings that the codec expects. -/
def MessageSound (m : Ir.Message) : Prop :=
  (m.fields.map (·.name)).Nodup ∧ ∀ f ∈ m.fields, f.encoding.Throughout Laid

/-- An enum whose variants have indices of their own and payloads that the codec expects. -/
def EnumSound (e : Ir.Enum) : Prop :=
  e.Indexed ∧ ∀ v ∈ e.variants, ∀ f ∈ v.field, f.encoding.Throughout Laid

/-- All of these messages and enums, and those declared in them, are sound. -/
structure AllSound (ms : List Ir.Message) (es : List Ir.Enum) : Prop where
  messages : ∀ m ∈ familyOf ms, MessageSound m
  enums : ∀ e ∈ es ++ (familyOf ms).flatMap (·.enums), EnumSound e

/-! ## Files -/

/-- A file whose indices and encodings are in order. -/
structure Lowering.FileChecked (table : SymbolTable) (file : Source.Schema) : Prop where
  few : Source.Indexable file.allEnums
  indices : ErrorFree (checkIndices file)
  encodings : ErrorFree (checkEncodings table file)

section

variable {table : SymbolTable} {files : List Source.Schema} {scope : Descriptor}

theorem Source.allEnums_subset_enumsIn {ms : List Member} {d : Member} (mem : d ∈ ms) :
    d.allEnums ⊆ enumsIn ms := by
  induction ms with
  | nil => cases mem
  | cons m ms ih =>
    rw [enumsIn]
    rcases mem_cons.mp mem with rfl | mem
    · exact subset_append_left _ _
    · exact List.Subset.trans (ih mem) (subset_append_right _ _)

/-- A declaration in files that the checks have no objection to. -/
theorem Source.Declared.checked {d : Member} (declared : Declared files scope d)
    (checked : ∀ file ∈ files, Lowering.FileChecked table file) :
    Indexable d.allEnums ∧ ErrorFree (checkDeclared d) := by
  induction declared with
  | @top file p d mem package inside =>
    obtain ⟨few, indices, -⟩ := checked file mem
    obtain ⟨item, top, same⟩ := mem_filterMap.mp inside
    refine ⟨fun e among => few e (mem_flatMap.mpr ⟨item, top, ?_⟩),
      fun problem found => indices problem (mem_flatMap.mpr ⟨item, top, ?_⟩)⟩
    · cases item <;> cases same <;> rwa [Member.allEnums] at among
    · cases item <;> cases same <;> exact found
  | @inner scope m d _ inside ih =>
    obtain ⟨span, doc, name, members⟩ := m
    obtain ⟨few, indices⟩ := ih
    rw [Member.allEnums, Message.allEnums] at few
    rw [checkDeclared, checkMessageIndices] at indices
    exact ⟨fun e among => few e (allEnums_subset_enumsIn inside among),
      (errorFree_checkMemberIndices.mp indices).2 d inside⟩

theorem FieldBuilt.laid {f : Ir.Field}
    (built : FieldBuilt table (files.flatMap Source.Schema.sites) f)
    (checked : ∀ file ∈ files, Lowering.FileChecked table file) :
    f.encoding.Throughout Laid := by
  obtain ⟨s, mem, encoding⟩ := built.encoding
  obtain ⟨file, isFile, site⟩ := mem_flatMap.mp mem
  have clean := (checked file isFile).encodings
  rw [checkEncodings_eq] at clean
  refine EncodingCheck.laid_of_checkField encoding fun d found => clean d ?_
  exact mem_flatMap.mpr ⟨s, site, found⟩

theorem messageSound_of_checks {m : Source.Message} {lowered : Ir.Message}
    (declared : Source.Declared files scope (.message m))
    (made : Lowering.MessageFrom table scope m lowered)
    (built : MessageBuilt table (files.flatMap Source.Schema.sites) lowered)
    (checked : ∀ file ∈ files, Lowering.FileChecked table file) : MessageSound lowered := by
  refine ⟨?_, fun f mem => (built.fields f mem).laid checked⟩
  have indices := (declared.checked checked).2
  obtain ⟨span, doc, name, members⟩ := m
  rw [checkDeclared, checkMessageIndices] at indices
  rw [made.names]
  exact (fields_of_checkMemberIndices indices).1

theorem enumSound_of_checks {e : Source.Enum} {lowered : Ir.Enum}
    (declared : Source.Declared files scope (.enum e))
    (made : Lowering.EnumFrom table scope e lowered)
    (built : EnumBuilt table (files.flatMap Source.Schema.sites) lowered)
    (checked : ∀ file ∈ files, Lowering.FileChecked table file) : EnumSound lowered := by
  obtain ⟨few, indices⟩ := declared.checked checked
  rw [Source.Member.allEnums] at few
  obtain ⟨-, distinct, narrow⟩ := variants_of_checkEnumIndices indices
  obtain ⟨width, holds⟩ :=
    discriminant_spec (assignIndices (e.variants.map fun v => v.index.map (·.value)))
  rw [← made.width] at width holds
  refine ⟨⟨fun v mem => (built.variants v mem).present, ?_, width, fun v mem => ?_⟩,
    fun v mem f field => ((built.variants v mem).payload f field).laid checked⟩
  · rw [made.indices]
    exact nodup_assignIndices (by simpa using few e mem_cons_self) narrow distinct
  · refine holds v.index ?_
    rw [← made.indices]
    exact mem_map_of_mem mem

end

/-! ## Schemas -/

/-- All that is defined in a schema is sound. -/
def SchemaSound (schema : Ir.Schema) : Prop :=
  ∀ p ∈ schema.packages, AllSound p.messages p.enums

/-- Files without errors are lowered to a sound schema. -/
theorem schemaSound_of_lower {table : SymbolTable} {files : List Source.Schema}
    {schema : Ir.Schema} (checked : ∀ file ∈ files, Lowering.FileChecked table file)
    (ok : lower table files = .ok schema) : SchemaSound schema := by
  obtain ⟨messages, enums⟩ := Lowering.origins_of_lower ok
  have built := schemaBuilt_of_lower ok
  intro p mem
  have all := (built.packages p mem).all
  refine ⟨fun l inside => ?_, fun l inside => ?_⟩
  · obtain ⟨scope, m, declared, made⟩ := messages l (mem_flatMap.mpr ⟨p, mem, inside⟩)
    exact messageSound_of_checks declared made (all.messages l inside) checked
  · obtain ⟨scope, e, declared, made⟩ := enums l (mem_flatMap.mpr ⟨p, mem, inside⟩)
    exact enumSound_of_checks declared made (all.enums l inside) checked

namespace SchemaSound

variable {schema : Ir.Schema}

section

variable (sound : SchemaSound schema)

include sound

theorem message {m : Ir.Message} (mem : m ∈ schema.allMessages) : MessageSound m := by
  obtain ⟨p, package, inside⟩ := mem_flatMap.mp mem
  exact (sound p package).messages m inside

theorem enum {e : Ir.Enum} (mem : e ∈ schema.allEnums) : EnumSound e := by
  obtain ⟨p, package, inside⟩ := mem_flatMap.mp mem
  exact (sound p package).enums e inside

theorem laid {e : Encoding} (mem : e ∈ schema.encodings) : Laid e := by
  rcases Ir.Schema.mem_encodings.mp mem with
    ⟨m, message, f, field, level⟩ | ⟨en, enum, v, variant, f, field, level⟩
  · exact (sound.message message).2 f field e level
  · exact (sound.enum enum).2 v variant f field e level

/-- A sound schema without floats can be written and read back. -/
theorem codable (exact : ∀ e ∈ schema.encodings, e.native.kind ≠ .float) : schema.Codable where
  encodings e mem := by
    have laid := sound.laid mem
    refine ⟨laid.toShaped, ?_, fun kind => laid.bits ?_, fun kind => ?_, laid.element, laid.entry⟩
    · have known := laid.kind
      have notFloat := exact e mem
      simp only [Ir.NativeKind.known, Ir.NativeKind.exact, mem_cons, not_mem_nil,
        or_false] at known ⊢
      tauto
    · simp only [mem_cons, not_mem_nil, or_false] at kind ⊢
      tauto
    · obtain ⟨least, most⟩ := laid.lengths kind
      exact ⟨by omega, most⟩
  fieldNames m mem := (sound.message mem).1
  enums e mem := (sound.enum mem).1

end

end SchemaSound

end BitSchema
