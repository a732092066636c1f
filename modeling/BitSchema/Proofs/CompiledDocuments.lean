import BitSchema.Plugin.Run
import BitSchema.Proofs.CompiledSchemas
import BitSchema.Proofs.SchemaDocuments

/-!
# The documents of compiled schemas

A compiled schema can be sent to a plugin as a document and loses nothing on the way, unless it has
more arrays and objects inside each other than a document may have.
-/

namespace BitSchema

open List
open Ir (Encoding)
open Lowering (typeEncoding fieldEncoding)

/-! ## Kinds -/

theorem wireKind_spelled {k : Ir.WireKind} (known : k ∈ [.bits, .lengthPrefixed, .embedded]) :
    Ir.WireKind.ofName k.name = k := by
  revert k
  decide

theorem nativeKind_spelled {k : Ir.NativeKind} (known : k ∈ Ir.NativeKind.known) :
    Ir.NativeKind.ofName k.name = k := by
  revert k
  decide

theorem transform_spelled {d : Directive} {t : Ir.Transform} (adds : d.transform? = some t) :
    Ir.TransformKind.ofName t.kind.name = t.kind := by
  cases d <;> cases adds <;> rfl

/-- An encoding that is laid out without transforms is spelled by its names. -/
theorem Laid.spelled {e : Encoding} (laid : Laid e) (bare : e.transforms = []) : e.Spelled := by
  refine ⟨wireKind_spelled ?_, nativeKind_spelled laid.kind, by simp [bare]⟩
  have known := laid.kind
  simp only [Ir.NativeKind.known, mem_cons, not_mem_nil, or_false] at known
  have scalar := laid.scalar
  have collection := laid.collection
  have reference := laid.reference
  rcases known with kind | kind | kind | kind | kind | kind | kind | kind | kind <;>
    simp_all

namespace Lowering

variable {table : SymbolTable} {scope : Descriptor}

/-- Whatever a type is, the kinds at every level of its encoding are what their names stand for. -/
theorem spelled_of_typeEncoding {type : Source.TypeExpr} {enc : Encoding}
    (ok : typeEncoding table scope type = .ok enc) : ∀ level ∈ enc.levels, level.Spelled := by
  intro level mem
  obtain ⟨inner, ok, -⟩ := EncodingCheck.typeEncoding_of_level ok mem
  cases inner with
  | scalar span s =>
    cases ok
    exact (EncodingCheck.ready_scalar s).toLaid.spelled rfl
  | named span absolute path name =>
    obtain ⟨ready, plain, -⟩ := EncodingCheck.referenceEncoding_ok span ok
    exact ready.toLaid.spelled plain.transforms
  | array span element =>
    obtain ⟨inner, -, rfl⟩ := EncodingCheck.typeEncoding_array_ok.mp ok
    exact ⟨rfl, rfl, by simp⟩
  | map span key value =>
    obtain ⟨innerKey, innerValue, -, -, rfl⟩ := EncodingCheck.typeEncoding_map_ok.mp ok
    exact ⟨rfl, rfl, by simp⟩

/-- Directives bring in no other kinds. -/
theorem spelled_of_fieldEncoding {f : Source.Field} {enc : Encoding}
    (ok : fieldEncoding table scope f = .ok enc) : ∀ level ∈ enc.levels, level.Spelled := by
  obtain ⟨bare, type, ⟨-, rfl⟩ | ⟨-, rfl⟩⟩ := EncodingCheck.fieldEncoding_ok ok
  · exact spelled_of_typeEncoding type
  · have spelled := spelled_of_typeEncoding type
    have plain := EncodingCheck.plain_of_typeEncoding type
    generalize (EncodingCheck.meanings f.directives).1.map EncodingCheck.Applied.meaning = ds
    rw [Encoding.levels_eq] at spelled ⊢
    obtain ⟨here, parts⟩ := forall_mem_cons.mp spelled
    rw [Directive.native_foldl_apply]
    refine forall_mem_cons.mpr ⟨⟨?_, ?_, ?_⟩, parts⟩
    · rcases Directive.wire_foldl_apply ds bare with same | ⟨n, -, same⟩ | ⟨n, -, same⟩
      · rw [same]
        exact here.wire
      · rw [same]
        rfl
      · rw [same]
        rfl
    · rw [Directive.native_foldl_apply]
      exact here.native
    · rw [Directive.transforms_foldl_apply, plain.transforms, nil_append]
      intro t mem
      obtain ⟨d, -, adds⟩ := mem_filterMap.mp mem
      exact transform_spelled adds

theorem spelled_discriminant (indices : List UInt32) :
    ∀ level ∈ (discriminant indices).levels, level.Spelled := by
  rw [Encoding.levels_eq, Ir.NativeType.parts_eq]
  simpa [discriminant] using ⟨rfl, rfl, by simp⟩

end Lowering

/-! ## Definitions -/

section

variable {table : SymbolTable} {sites : List Source.FieldSite}

theorem FieldBuilt.legible {f : Ir.Field} (built : FieldBuilt table sites f) : f.Legible := by
  obtain ⟨s, -, encoding⟩ := built.encoding
  exact ⟨built.present, Lowering.spelled_of_fieldEncoding encoding⟩

theorem EnumBuilt.legible {e : Ir.Enum} (built : EnumBuilt table sites e) : e.Legible := by
  obtain ⟨indices, discriminant⟩ := built.discriminant
  refine ⟨built.present, ?_, fun v mem => ?_⟩
  · rw [discriminant]
    exact Lowering.spelled_discriminant indices
  · have variant := built.variants v mem
    exact ⟨variant.present, fun f field => (variant.payload f field).legible⟩

-- By induction on the message: all messages in it belong to its family.
mutual
theorem legible_of_family : ∀ m : Ir.Message, (∀ x ∈ m.family, MessageBuilt table sites x) →
    (∀ x ∈ m.family, ∀ e ∈ x.enums, EnumBuilt table sites e) → m.Legible
  | ⟨descriptor, name, fields, messages, enums, doc, absent⟩, built, enumsBuilt => by
    rw [Ir.Message.family] at built enumsBuilt
    obtain ⟨here, below⟩ := forall_mem_cons.mp built
    obtain ⟨enumsHere, enumsBelow⟩ := forall_mem_cons.mp enumsBuilt
    exact .intro here.present (fun f mem => (here.fields f mem).legible)
      (legible_of_familyOf messages below enumsBelow) fun e mem => (enumsHere e mem).legible
theorem legible_of_familyOf : ∀ ms : List Ir.Message,
    (∀ x ∈ Ir.familyOf ms, MessageBuilt table sites x) →
    (∀ x ∈ Ir.familyOf ms, ∀ e ∈ x.enums, EnumBuilt table sites e) → ∀ m ∈ ms, m.Legible
  | [], _, _ => forall_mem_nil _
  | first :: ms, built, enumsBuilt => by
    rw [Ir.familyOf] at built enumsBuilt
    obtain ⟨here, rest⟩ := forall_mem_append.mp built
    obtain ⟨enumsHere, enumsRest⟩ := forall_mem_append.mp enumsBuilt
    exact forall_mem_cons.mpr ⟨legible_of_family first here enumsHere,
      legible_of_familyOf ms rest enumsRest⟩
end

theorem PackageBuilt.legible {p : Ir.Package} (built : PackageBuilt table sites p) : p.Legible := by
  refine ⟨built.present, legible_of_familyOf _ built.all.messages fun m message e mem => ?_,
    fun e mem => (built.all.enums e (mem_append_left _ mem)).legible⟩
  exact built.all.enums e (mem_append_right _ (mem_flatMap.mpr ⟨m, message, mem⟩))

end

/-! ## Schemas -/

theorem legible_of_compile {importer : Importer} {policy : RedefinitionPolicy}
    {entries : List String} {schema : Ir.Schema}
    (compiled : (compile importer policy entries).schema = some schema) :
    ∀ p ∈ schema.packages, p.Legible := by
  obtain ⟨table, files, ok, -⟩ := lower_of_compile compiled
  exact fun p mem => ((schemaBuilt_of_lower ok).packages p mem).legible

/-- A compiled schema of at most `Json.depthLimit` levels is encoded, and decoding gives the same
schema again, so what a plugin reads is what was compiled.  A deeper one is neither encoded nor
decoded. -/
theorem document_of_compile {importer : Importer} {policy : RedefinitionPolicy}
    {entries : List String} {schema : Ir.Schema}
    (compiled : (compile importer policy entries).schema = some schema) :
    (schema.toJson.nesting ≤ Json.depthLimit →
      ∃ text, schema.encode = .ok text ∧ Plugin.request schema = .ok (Octets.ofString text) ∧
        Ir.Schema.ofDocument? (Octets.ofString text) = some schema) ∧
    (Json.depthLimit < schema.toJson.nesting →
      (∃ octet, schema.encode = .error (.wrong octet .depth)) ∧
        Ir.Schema.ofDocument? (Octets.ofString schema.document) = none) := by
  have read := Ir.Schema.ofDocument?_document (legible_of_compile compiled)
  refine ⟨fun shallow => ?_, fun deep => ⟨Ir.Schema.encode_eq_error deep, ?_⟩⟩
  · have encoded := schema.encode_eq_ok.mpr ⟨shallow, rfl⟩
    refine ⟨_, encoded, ?_, ?_⟩
    · rw [Plugin.request, encoded]
      rfl
    · rw [read, if_pos shallow]
  · rw [read, if_neg (by omega)]

/-- One file with every kind of type, and documentation that is escaped. -/
def atlasImporter : Importer where
  fileCount := 1
  resolve _ := .ok "atlas"
  read _ := .ok ("package geo.v1; /// \"Maße\" <\t& \\> – 🗺\n".toUTF8 ++
    "message Atlas \x7b [string][]Tile tiles; 7: [][u16]bytes raw [bits(var(9))]; ".toUTF8 ++
    "message Tile \x7b f32 x [fixed_point(4, 12), zig_zag]; i16 h [delta, pad(3)]; \x7d ".toUTF8 ++
    "/// Kinds\n enum Kind \x7b 2: u8 code [bits(5)]; /// none\n plain; \x7d \x7d ".toUTF8)

theorem document_of_compile_atlas :
    ∃ schema, (compile atlasImporter .refuse ["atlas"]).schema = some schema ∧
      schema.toJson.nesting ≤ Json.depthLimit ∧
      ∃ text, schema.encode = .ok text ∧ Plugin.request schema = .ok (Octets.ofString text) ∧
        Ir.Schema.ofDocument? (Octets.ofString text) = some schema := by
  have run : ∃ schema ∈ (compile atlasImporter .refuse ["atlas"]).schema,
      schema.toJson.nesting ≤ Json.depthLimit := by
    decide +kernel
  obtain ⟨schema, compiled, shallow⟩ := run
  exact ⟨schema, compiled, shallow, (document_of_compile compiled).1 shallow⟩

end BitSchema
