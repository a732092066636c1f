import BitSchema.Proofs.CompilePhases
import BitSchema.Proofs.EmptyValues

/-!
# Empty messages

The empty message of a compiled schema can be written exactly if what is absent in it comes to an
end, its references lead to definitions, and the codec accepts the transforms of every number on the
way.  References can lead nowhere only if definitions have been overwritten.

The checker refuses transforms that the codec would refuse, unless they are repetitions: it holds a
transform against the type of the field, and the codec against what the transforms before it left.
-/

namespace BitSchema

open List

/-! ## Checked fields -/

section

open Ir (Encoding)
open Codec (Accepted FloatWide Furnished Refers Unfolds Finite referent)

theorem float_of_domains {ts : List Ir.Transform} {d : Codec.Domain} {befores : List Codec.Domain}
    (ends : Codec.domains ts d = .ok (befores, .float)) :
    d = .float ∧ ∀ t ∈ ts, t.kind ≠ .fixedPoint := by
  induction ts generalizing d befores with
  | nil =>
    cases ends
    exact ⟨rfl, by simp⟩
  | cons t ts ih =>
    obtain ⟨next, befores, rfl, step, ends⟩ := Codec.domains_cons_ok_iff.mp ends
    obtain ⟨rfl, later⟩ := ih ends
    have here : d = .float ∧ t.kind ≠ .fixedPoint := by
      rcases t with ⟨kind, integer, fractional⟩
      cases kind <;> cases d <;> simp_all [Codec.stepDomain]
    exact ⟨here.1, forall_mem_cons.mpr ⟨here.2, later⟩⟩

variable {e : Encoding}

theorem Ready.floatWide (ready : Ready e) : FloatWide e := by
  intro befores ends
  obtain ⟨befores', last, ends', wide⟩ := ready.domains
  cases ends.symm.trans ends'
  exact wide rfl

theorem Ready.accepted (ready : Ready e) : Accepted e := by
  intro _
  obtain ⟨befores, last, ends, -⟩ := ready.domains
  rw [ends]
  rfl

variable {table : SymbolTable} {scope : Descriptor} {f : Source.Field} {enc : Encoding}

/-- What is left of a float has the width of one, whatever warnings there are. -/
theorem floatWide_of_checkField (ok : Lowering.fieldEncoding table scope f = .ok enc)
    (clean : ErrorFree (EncodingCheck.checkField table scope f)) : enc.Throughout FloatWide := by
  intro e mem
  rcases EncodingCheck.level_of_checkField ok clean mem with
    ready | ⟨bare, native, plain, ready, -, isNative, kind, notReference, clean, -, rfl⟩
  · exact ready.floatWide
  · intro befores ends
    rw [EncodingCheck.checkApplied_value notReference] at clean
    rw [Directive.native_foldl_apply, Directive.transforms_foldl_apply, plain.transforms,
      nil_append] at ends
    obtain ⟨domain, unquantized⟩ := float_of_domains ends
    have float : bare.native.kind = .float := by
      by_contra other
      unfold Codec.nativeDomain at domain
      rw [if_neg other] at domain
      split at domain <;> cases domain
    -- A fixed-point directive would have left a transform of its kind.
    have none : (EncodingCheck.meanings f.directives).1.any (·.meaning.kind == .fixedPoint) =
        false := by
      rw [any_eq_false]
      intro a applied isFixed
      cases meaning : a.meaning with
      | fixedPoint i n =>
        refine unquantized (.fixedPoint i.toUInt32 n.toUInt32) ?_ rfl
        refine mem_filterMap.mpr ⟨a.meaning, mem_map_of_mem applied, ?_⟩
        rw [meaning]
        rfl
      | _ => simp [meaning, Directive.kind] at isFixed
    exact (EncodingCheck.wireFits_foldl plain ready isNative clean).float (kind.trans float) none

/-- Without repetitions the codec accepts what the checker lets through. -/
theorem accepted_of_checkField (ok : Lowering.fieldEncoding table scope f = .ok enc)
    (clean : ErrorFree (EncodingCheck.checkField table scope f))
    (single : ∀ d ∈ EncodingCheck.checkField table scope f, d.code ≠ 4003) :
    enc.Throughout Accepted := by
  intro e mem
  rcases EncodingCheck.level_of_checkField ok clean mem with
    ready | ⟨bare, native, plain, ready, value, isNative, -, -, clean, reported, rfl⟩
  · exact ready.accepted
  · exact (EncodingCheck.ready_foldl plain ready value isNative clean
      fun d mem => single d (reported mem)).accepted

/-! ## Compiled schemas -/

variable {importer : Importer} {policy : RedefinitionPolicy} {entries : List String}
  {schema : Ir.Schema}

open Compilation in
/-- The schema of a compilation is built from fields of its sources, and what the checks say about
these fields is among its diagnostics, which hold no error. -/
theorem schemaBuilt_of_compile
    (compiled : (compile importer policy entries).schema = some schema) :
    ErrorFree (compile importer policy entries).diagnostics ∧
      ∃ table sites, SchemaBuilt table sites schema ∧ ∀ s ∈ sites,
        EncodingCheck.checkSite table s ⊆ (compile importer policy entries).diagnostics := by
  rcases run : registerAll policy {} (load importer entries).files with ⟨files, table, problems⟩
  obtain ⟨diagnostics, clean, -, ok⟩ := lowered_of_compile run compiled
  rw [diagnostics]
  refine ⟨clean, table, _, schemaBuilt_of_lower ok, fun s site d found => ?_⟩
  obtain ⟨file, ordered, site⟩ := mem_flatMap.mp site
  obtain ⟨r, registered, rfl⟩ := registered_of_mem ordered
  refine mem_append_right _ (mem_flatMap.mpr ⟨r, registered, ?_⟩)
  have reported : d ∈ checkEncodings table r.schema := by
    rw [checkEncodings_eq]
    exact mem_flatMap.mpr ⟨s, site, found⟩
  exact mem_append_left _ (mem_append_right _ reported)

/-- Where nothing is overwritten, every reference leads to a definition. -/
theorem refers_of_compile (compiled : (compile importer .refuse entries).schema = some schema)
    (mem : e ∈ schema.encodings) : Refers schema e := by
  intro kind
  obtain ⟨message, enum⟩ := defined_of_compile compiled mem
  simp only [mem_cons, not_mem_nil, or_false] at kind
  rcases kind with kind | kind
  · obtain ⟨d, descriptor, m, found, -⟩ := message kind
    rw [Codec.referent_message kind descriptor found]
    rfl
  · obtain ⟨d, descriptor, en, found, -⟩ := enum kind
    rw [Codec.referent_enum kind descriptor found]
    rfl

theorem furnished_of_compile (compiled : (compile importer policy entries).schema = some schema)
    (inhabited : ∀ e ∈ schema.allEnums, e.variants ≠ []) : Furnished schema := by
  have sound := schemaSound_of_compile compiled
  obtain ⟨clean, table, sites, built, checks⟩ := schemaBuilt_of_compile compiled
  refine ⟨fun e => sound.laid, fun e mem => ?_, fun m mem => ?_,
    fun e mem => (sound.enum mem).1, inhabited⟩
  · obtain ⟨s, site, enc, ok, level⟩ := built.origin mem
    exact floatWide_of_checkField ok (fun d found => clean d (checks s site found)) e level
  · rw [any_eq_false]
    intro f field absent
    rw [((built.message mem).fields f field).present] at absent
    cases absent

/-- What an empty message holds is the message itself or an encoding of the schema. -/
theorem reached_of_embed {d : Ir.Descriptor}
    (path : Relation.ReflTransGen (Unfolds schema) (Codec.embed d) e) :
    e = Codec.embed d ∨ e ∈ schema.encodings := by
  rcases Relation.ReflTransGen.cases_tail path with same | ⟨last, -, x, refers, inside⟩
  · exact .inl same
  · exact .inr (Codec.contents_subset refers inside)

/-- The empty message of a compiled schema can be written exactly if what it holds comes to an end,
its references lead to definitions, and the codec accepts the transforms of all numbers in it.  The
first is sure if no definition holds itself, the second if nothing is overwritten, and the last if
no transform is repeated. -/
theorem marshal_empty_iff (compiled : (compile importer policy entries).schema = some schema)
    (inhabited : ∀ e ∈ schema.allEnums, e.variants ≠ []) {d : Ir.Descriptor} {m : Ir.Message}
    (found : schema.findMessage d = .ok (some m)) :
    ((∃ data, Codec.marshal schema d [] = .ok data) ↔ Finite schema (Codec.embed d) ∧
        ∀ e, Relation.ReflTransGen (Unfolds schema) (Codec.embed d) e →
          Accepted e ∧ Refers schema e) ∧
      (policy = .refuse → ∀ e, Relation.ReflTransGen (Unfolds schema) (Codec.embed d) e →
        Refers schema e) ∧
      ((∀ e, ¬ Relation.TransGen (Unfolds schema) e e) →
        (∀ x ∈ (compile importer policy entries).diagnostics, x.code ≠ 4003) →
        (∀ e, Relation.ReflTransGen (Unfolds schema) (Codec.embed d) e → Refers schema e) →
        ∃ data, Codec.marshal schema d [] = .ok data) := by
  have written := Codec.marshal_empty (furnished_of_compile compiled inhabited) found
  rw [Codec.writable_iff] at written
  refine ⟨written, ?_, fun acyclic single refers =>
    written.mpr ⟨Codec.finite_of_acyclic acyclic _, fun e path => ⟨?_, refers e path⟩⟩⟩
  · rintro rfl e path
    rcases reached_of_embed path with rfl | mem
    · intro _
      rw [Codec.referent_message rfl rfl found]
      rfl
    · exact refers_of_compile compiled mem
  · obtain ⟨clean, table, sites, built, checks⟩ := schemaBuilt_of_compile compiled
    rcases reached_of_embed path with rfl | mem
    · intro kind
      simp [Codec.embed] at kind
    · obtain ⟨s, site, enc, ok, level⟩ := built.origin mem
      exact accepted_of_checkField ok (fun d found => clean d (checks s site found))
        (fun d found => single d (checks s site found)) e level

/-- One file, in which an absent track has a mark that carries a point. -/
def trackImporter : Importer where
  fileCount := 1
  resolve _ := .ok "track"
  read _ := .ok ("package a; ".toUTF8 ++
    "message Point \x7b f32 x [fixed_point(4, 12), zig_zag]; \x7d ".toUTF8 ++
    "enum Mark \x7b 3: u8 code; 1: Point at; \x7d ".toUTF8 ++
    "message Track \x7b Mark mark; []Track parts; \x7d".toUTF8)

/-- A track holds a mark, and a mark a point. -/
def trackLevel (e : Encoding) : Nat :=
  e.native.descriptor.elim 0 fun d =>
    if d.name = "Track" then 3 else if d.name = "Mark" then 2 else 1

theorem marshal_empty_track :
    ∃ schema m, (compile trackImporter .refuse ["track"]).schema = some schema ∧
      (∀ e ∈ schema.allEnums, e.variants ≠ []) ∧
      schema.findMessage ⟨"a", [], "Track"⟩ = .ok (some m) ∧
      (∀ e, ¬ Relation.TransGen (Unfolds schema) e e) ∧
      (∀ x ∈ (compile trackImporter .refuse ["track"]).diagnostics, x.code ≠ 4003) ∧
      (∃ data, Codec.marshal schema ⟨"a", [], "Track"⟩ [] = .ok data) ∧
      Finite schema (Codec.embed ⟨"a", [], "Track"⟩) ∧
      ∀ e, Relation.ReflTransGen (Unfolds schema) (Codec.embed ⟨"a", [], "Track"⟩) e →
        Accepted e := by
  have run : (∃ schema ∈ (compile trackImporter .refuse ["track"]).schema,
      (∀ e ∈ schema.allEnums, e.variants ≠ []) ∧
        (schema.message? ⟨"a", [], "Track"⟩).isSome = true ∧
        ∀ e ∈ schema.encodings, ∀ x ∈ referent schema e, ∀ inner ∈ Codec.contents x,
          trackLevel inner < trackLevel e) ∧
      ∀ x ∈ (compile trackImporter .refuse ["track"]).diagnostics, x.code ≠ 4003 := by
    decide +kernel
  obtain ⟨⟨schema, compiled, inhabited, there, falls⟩, single⟩ := run
  obtain ⟨m, there⟩ := Option.isSome_iff_exists.mp there
  have found := Codec.findMessage_of_message? there
  have acyclic := Codec.acyclic_of_falling trackLevel falls
  obtain ⟨iff, refers, enough⟩ := marshal_empty_iff compiled inhabited found
  have written := enough acyclic single (refers rfl)
  obtain ⟨finite, accepted⟩ := iff.mp written
  exact ⟨schema, m, compiled, inhabited, found, acyclic, single, written, finite,
    fun e path => (accepted e path).1⟩

/-- One file, in which a number is zig-zagged twice. -/
def twiceImporter : Importer where
  fileCount := 1
  resolve _ := .ok "twice"
  read _ := .ok "package a; message M \x7b i8 x [zig_zag, zig_zag]; \x7d".toUTF8

/-- The checker warns of a repeated transform and the codec refuses it, so the schema compiles but
its empty message cannot be written. -/
theorem marshal_refuses_twice :
    (compile twiceImporter .refuse ["twice"]).failed = false ∧
      ∃ schema m, (compile twiceImporter .refuse ["twice"]).schema = some schema ∧
        (∀ e ∈ schema.allEnums, e.variants ≠ []) ∧
        (∀ e, ¬ Relation.TransGen (Unfolds schema) e e) ∧
        schema.findMessage ⟨"a", [], "M"⟩ = .ok (some m) ∧
        ∀ data, Codec.marshal schema ⟨"a", [], "M"⟩ [] ≠ .ok data := by
  have run : ∃ schema ∈ (compile twiceImporter .refuse ["twice"]).schema,
      (∀ e ∈ schema.allEnums, e.variants ≠ []) ∧
        (schema.message? ⟨"a", [], "M"⟩).isSome = true ∧
        (∀ e ∈ schema.encodings, ∀ x ∈ referent schema e, ∀ inner ∈ Codec.contents x, 0 < 0) ∧
        (Codec.marshal schema ⟨"a", [], "M"⟩ []).toOption.isSome = false ∧
        (compile twiceImporter .refuse ["twice"]).failed = false := by
    decide +kernel
  obtain ⟨schema, compiled, inhabited, there, falls, refused, passed⟩ := run
  obtain ⟨m, there⟩ := Option.isSome_iff_exists.mp there
  refine ⟨passed, schema, m, compiled, inhabited,
    Codec.acyclic_of_falling (fun _ => 0) falls, Codec.findMessage_of_message? there, ?_⟩
  intro data written
  rw [written] at refused
  cases refused

end

end BitSchema
