import BitSchema.Compilation.Basic
import BitSchema.Proofs.SourceDeclarations
import BitSchema.Proofs.LoadedFiles
import BitSchema.Proofs.LoweredSchemas
import BitSchema.Proofs.Messages

/-!
# Compiled schemas

A compilation without errors has checked every file that it lowers, so its schema is sound.  Of such
a schema the codec refuses no message that it wrote itself, except for texts that are not UTF-8 and
for collections of more elements than it is willing to read.
-/

namespace BitSchema

open List

/-! ## Loading -/

namespace Loading

variable {importer : Importer}

/-- The schema of a file is what the parser made of its contents. -/
def Parsed (file : LoadedFile) : Prop :=
  ∀ schema, file.schema = some schema → ∃ source, Source.Schema.parse file.path source = .ok schema

theorem parsed_loadFile (path : String) : Parsed (loadFile importer path).1 := by
  unfold loadFile
  split
  next => nofun
  next source read =>
    dsimp only
    split
    next => nofun
    next schema parsed =>
      intro schema' same
      cases same
      exact ⟨source, parsed⟩

end Loading

theorem parsed_load (importer : Importer) (entries : List String) :
    ∀ file ∈ (load importer entries).files, Loading.Parsed file := by
  obtain ⟨paths, same, -⟩ := load_eq_ofPaths importer entries
  rw [same]
  exact forall_mem_map.mpr fun path _ => Loading.parsed_loadFile path

/-- A parsed file knows its path. -/
theorem file_of_parse {path : String} {source : ByteArray} {schema : Source.Schema}
    (ok : Source.Schema.parse path source = .ok schema) : schema.span.file = path := by
  obtain ⟨-, chars, d, -, -, read⟩ := Source.parse_ok ok
  obtain ⟨phrase, -, eq⟩ := bind_ok_iff.mp read
  split at eq
  next =>
    cases eq
    rfl
  next =>
    cases eq
    rfl

/-! ## Registration -/

namespace Compilation

theorem mem_registerAll {symbols : SymbolTable} {policy : RedefinitionPolicy}
    {files : List LoadedFile} {r : Registered} (mem : r ∈ (registerAll policy symbols files).1) :
    r.file ∈ files ∧ r.file.schema = some r.schema := by
  induction files generalizing symbols with
  | nil => cases mem
  | cons file files ih =>
    rw [registerAll] at mem
    split at mem
    next =>
      obtain ⟨inside, same⟩ := ih mem
      exact ⟨mem_cons_of_mem _ inside, same⟩
    next schema parsed =>
      dsimp only at mem
      split at mem
      next =>
        obtain ⟨inside, same⟩ := ih mem
        exact ⟨mem_cons_of_mem _ inside, same⟩
      next =>
        rcases mem_cons.mp mem with rfl | mem
        · exact ⟨mem_cons_self, parsed⟩
        · obtain ⟨inside, same⟩ := ih mem
          exact ⟨mem_cons_of_mem _ inside, same⟩

/-- The sources of registered files in the order of their links. -/
def orderedSchemas (files : List Registered) : List Source.Schema :=
  (graphOf files).order.filterMap fun path => (files.find? (·.file.path == path)).map (·.schema)

theorem registered_of_mem {files : List Registered} {file : Source.Schema}
    (mem : file ∈ orderedSchemas files) : ∃ r ∈ files, r.schema = file := by
  obtain ⟨path, -, found⟩ := mem_filterMap.mp mem
  obtain ⟨r, found, same⟩ := Option.map_eq_some_iff.mp found
  exact ⟨r, mem_of_find?_eq_some found, same⟩

/-! ## Endings -/

/-- How a compilation can end that has made these checks. -/
inductive Ends (files : List Registered) (table : SymbolTable) (checks : List Diagnostic)
    (c : Compilation) : Prop where
  | failed : ¬ ErrorFree checks → c.schema = none → c.diagnostics = checks →
    Ends files table checks c
  | unlinked {cause : LinkError} : ErrorFree checks → (graphOf files).link = .error cause →
    c.schema = none → c.diagnostics = checks ++ [⟨linkSpan files cause, .unlinked cause⟩] →
    Ends files table checks c
  | notLowered {cause : LowerError} : ErrorFree checks → (graphOf files).link = .ok () →
    lower table (orderedSchemas files) = .error cause → c.schema = none →
    c.diagnostics = checks ++ [⟨.none, .notLowered cause⟩] → Ends files table checks c
  | lowered {schema : Ir.Schema} : ErrorFree checks → (graphOf files).link = .ok () →
    lower table (orderedSchemas files) = .ok schema → c.schema = some schema →
    c.diagnostics = checks → Ends files table checks c

end Compilation

theorem errors_eq_nil_iff {ds : List Diagnostic} : Diagnostic.errors ds = [] ↔ ErrorFree ds := by
  simp [Diagnostic.errors, filter_eq_nil_iff, ErrorFree]

open Compilation

variable {importer : Importer} {policy : RedefinitionPolicy} {entries : List String}
  {files : List Registered} {table : SymbolTable} {problems : List Diagnostic} {schema : Ir.Schema}

theorem failed_eq_false_iff {c : Compilation} : c.failed = false ↔ ErrorFree c.diagnostics := by
  rw [Compilation.failed, errors, Bool.not_eq_false', List.isEmpty_iff, errors_eq_nil_iff]

theorem ends_compile
    (run : registerAll policy {} (load importer entries).files = (files, table, problems)) :
    Ends files table
      ((load importer entries).diagnostics ++ problems ++ files.flatMap (analyze table))
      (compile importer policy entries) := by
  unfold compile
  simp only [run]
  split
  next failed =>
    refine .failed (fun clean => ?_) rfl rfl
    cases failed.symm.trans (failed_eq_false_iff.mpr clean)
  next passed =>
    have clean := failed_eq_false_iff.mp (Bool.not_eq_true _ ▸ passed)
    unfold linkAndLower
    dsimp only
    split
    next cause isLinked => exact .unlinked clean isLinked rfl rfl
    next isLinked =>
      split
      next cause isLowered => exact .notLowered clean isLinked isLowered rfl rfl
      next schema isLowered => exact .lowered clean isLinked isLowered rfl rfl

/-- A schema comes from lowering files that were checked and linked. -/
theorem lowered_of_compile
    (run : registerAll policy {} (load importer entries).files = (files, table, problems))
    (compiled : (compile importer policy entries).schema = some schema) :
    (compile importer policy entries).diagnostics =
        (load importer entries).diagnostics ++ problems ++ files.flatMap (analyze table) ∧
      ErrorFree ((load importer entries).diagnostics ++ problems ++ files.flatMap (analyze table)) ∧
      (graphOf files).link = .ok () ∧ lower table (orderedSchemas files) = .ok schema := by
  cases ends_compile run with
  | failed _ none | unlinked _ _ none | notLowered _ _ _ none => cases none.symm.trans compiled
  | lowered clean linked lowered isSchema checks =>
    cases isSchema.symm.trans compiled
    exact ⟨checks, clean, linked, lowered⟩

/-! ## Schemas -/

/-- The schema of a compilation is lowered from files that the checks have no objection to. -/
theorem lower_of_compile (compiled : (compile importer policy entries).schema = some schema) :
    ∃ table files, lower table files = .ok schema ∧
      ∀ file ∈ files, Lowering.FileChecked table file := by
  rcases run : registerAll policy {} (load importer entries).files with ⟨files, table, problems⟩
  obtain ⟨-, clean, -, ok⟩ := lowered_of_compile run compiled
  refine ⟨table, _, ok, fun file mem => ?_⟩
  obtain ⟨r, inside, rfl⟩ := registered_of_mem mem
  obtain ⟨loaded, parsed⟩ := mem_registerAll (run.symm ▸ inside :
    r ∈ (registerAll policy {} (load importer entries).files).1)
  obtain ⟨source, parsed⟩ := parsed_load importer entries r.file loaded r.schema parsed
  have checks : ErrorFree (analyze table r) := fun d found =>
    clean d (mem_append_right _ (mem_flatMap.mpr ⟨r, inside, found⟩))
  simp only [analyze, errorFree_append] at checks
  exact ⟨Source.indexable_of_parse parsed, checks.1.1.2, checks.1.2⟩

/-- A compiled schema is sound. -/
theorem schemaSound_of_compile (compiled : (compile importer policy entries).schema = some schema) :
    SchemaSound schema := by
  obtain ⟨table, files, ok, checked⟩ := lower_of_compile compiled
  exact schemaSound_of_lower checked ok

/-! ## Messages of a compiled schema -/

namespace Codec

variable {importer : Importer} {policy : RedefinitionPolicy} {entries : List String}
  {schema : Ir.Schema} {d : Ir.Descriptor} {values : Fields} {data : Array UInt8}

/-- Bytes that were written under a compiled schema without floats are read again exactly if the
message has nothing in it that the decoder objects to. -/
theorem unmarshal_marshal_iff (compiled : (compile importer policy entries).schema = some schema)
    (exact : ∀ e ∈ schema.encodings, e.native.kind ≠ .float)
    (written : marshal schema d values = .ok data) :
    (∃ v, unmarshal schema d data = .ok v) ↔ Readable schema (embed d) (.message values) := by
  have codable := (schemaSound_of_compile compiled).codable exact
  constructor
  · intro ⟨v, read⟩
    exact ((unmarshal_of_marshal codable written).mp read).1
  · intro readable
    obtain ⟨w, encoded, -⟩ := marshal_ok_iff.mp written
    obtain ⟨-, -, ⟨v, back⟩, -⟩ := recovers_message codable BitWriter.sound_empty encoded
    exact ⟨v, (unmarshal_of_marshal codable written).mpr ⟨readable, back⟩⟩

/-- One file, which declares a message of words and breaks between them. -/
def labelImporter : Importer where
  fileCount := 1
  resolve _ := .ok "label"
  read _ := .ok ("package a; enum Part \x7b Break; 9: string word [bits(var(99))]; \x7d ".toUTF8 ++
    "message Label \x7b []Part parts; \x7d".toUTF8)

def label : Ir.Descriptor := ⟨"a", [], "Label"⟩

/-- A break and a word. -/
def labelValues (word : Octets) : Fields :=
  [("parts", .list [.enum "Break" .null, .enum "word" (.text word)])]

theorem unmarshal_marshal_label :
    ∃ schema data, (compile labelImporter .refuse ["label"]).schema = some schema ∧
      (∀ e ∈ schema.encodings, e.native.kind ≠ .float) ∧
      marshal schema label (labelValues [0xC3, 0xA9]) = .ok data ∧
      (∃ v, unmarshal schema label data = .ok v) ∧
      Readable schema (embed label) (.message (labelValues [0xC3, 0xA9])) := by
  have run : ∃ schema ∈ (compile labelImporter .refuse ["label"]).schema,
      (∀ e ∈ schema.encodings, e.native.kind ≠ .float) ∧
        ∃ data ∈ (marshal schema label (labelValues [0xC3, 0xA9])).toOption,
          (unmarshal schema label data).toOption.isSome = true := by
    decide +kernel
  obtain ⟨schema, compiled, exact, data, written, read⟩ := run
  have written := toOption_eq_some_iff.mp written
  obtain ⟨v, read⟩ := Option.isSome_iff_exists.mp read
  have read : ∃ v, unmarshal schema label data = .ok v := ⟨v, toOption_eq_some_iff.mp read⟩
  refine ⟨schema, data, compiled, exact, written, read, ?_⟩
  exact (unmarshal_marshal_iff compiled exact written).mp read

/-- The encoder writes a word that is not UTF-8, and the decoder refuses to read it. -/
theorem unmarshal_refuses_label :
    (compile labelImporter .refuse ["label"]).failed = false ∧
      ∃ schema data, (compile labelImporter .refuse ["label"]).schema = some schema ∧
        (∀ e ∈ schema.encodings, e.native.kind ≠ .float) ∧
        marshal schema label (labelValues [0xFF]) = .ok data ∧
        ∀ v, unmarshal schema label data ≠ .ok v := by
  have run : ∃ schema ∈ (compile labelImporter .refuse ["label"]).schema,
      (∀ e ∈ schema.encodings, e.native.kind ≠ .float) ∧
        ∃ data ∈ (marshal schema label (labelValues [0xFF])).toOption,
          (unmarshal schema label data).toOption.isSome = false := by
    decide +kernel
  obtain ⟨schema, compiled, exact, data, written, refused⟩ := run
  have passed : (compile labelImporter .refuse ["label"]).failed = false := by decide +kernel
  refine ⟨passed, schema, data, compiled, exact, toOption_eq_some_iff.mp written, ?_⟩
  intro v read
  rw [read] at refused
  cases refused

end Codec

end BitSchema
