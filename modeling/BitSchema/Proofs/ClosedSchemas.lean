import BitSchema.Proofs.Linking
import BitSchema.Proofs.LoweredDefinitions
import BitSchema.Proofs.RegisteredSymbols

/-!
# Closed schemas

Every type that a compiled schema refers to is defined in it, and so is every type that a loaded
file declares; a search by the descriptor of the type finds the definition.

Three lists are followed through the compilation: the loaded files, the symbols that they register,
and the definitions that they are lowered to.  Without errors no file is lost or loaded twice,
linking only changes the order of the files, and two types never have the same full name.
-/

namespace BitSchema

open List

/-! ## Full names -/

variable {segments entries : List String} {ss : List Symbol} {schema : Ir.Schema} {s : Symbol}
  {importer : Importer}

/-- The full name of a type can be read off its descriptor. -/
theorem joinName_append (some : segments ≠ []) (named : ∀ segment ∈ segments, segment ≠ "")
    (rest : List String) :
    joinName (segments ++ rest) = if rest.filter (· != "") = [] then ".".intercalate segments
      else ".".intercalate segments ++ "." ++ joinName rest := by
  have kept : segments.filter (· != "") = segments := filter_eq_self.mpr (by simpa using named)
  rw [joinName, joinName, filter_append, kept]
  split
  next none => rw [none, append_nil]
  next more => exact String.intercalate_append_of_ne_nil some more

/-- Types with different full names have different descriptors. -/
theorem nodup_descriptors (proper : ∀ s ∈ ss, s.Proper)
    (distinct : (ss.map Symbol.fullName).Nodup) : (ss.map (·.descriptor.toIr)).Nodup := by
  refine List.Nodup.map_on (fun s mem t mem' same => ?_) distinct.of_map
  refine inj_on_of_nodup_map distinct mem mem' ?_
  obtain ⟨some, named⟩ := (proper s mem).segments
  obtain ⟨some', named'⟩ := (proper t mem').segments
  rw [Symbol.fullName, Symbol.fullName, Descriptor.text, Descriptor.text, append_assoc,
    append_assoc, joinName_append some named, joinName_append some' named']
  simp only [Descriptor.toIr, PackageName.text, Ir.Descriptor.mk.injEq] at same
  rw [same.1, same.2.1, same.2.2]

/-! ## Loading -/

namespace Loading

variable {importer : Importer} {l : Loading}

/-- Every file was loaded once, and if there was no error, all of them were parsed. -/
structure Complete (l : Loading) : Prop where
  distinct : (l.files.map (·.path)).Nodup
  parsed : ErrorFree l.diagnostics → ∀ file ∈ l.files, file.schema.isSome

theorem isSome_of_loadFile {path : String} (clean : ErrorFree (loadFile importer path).2.1) :
    (loadFile importer path).1.schema.isSome := by
  unfold loadFile at clean ⊢
  split at clean
  next => exact (not_errorFree_of_code clean (by simp [Problem.code])).elim
  next source read =>
    dsimp only at clean ⊢
    split at clean
    next e _ => exact (not_errorFree_of_code clean ((code_badSource e).trans (by decide))).elim
    next => rfl

end Loading

theorem complete_load (importer : Importer) (entries : List String) :
    (load importer entries).Complete := by
  obtain ⟨paths, same, distinct, -⟩ := load_eq_ofPaths importer entries
  rw [same]
  refine ⟨?_, fun clean => forall_mem_map.mpr fun path mem => ?_⟩
  · rw [Loading.paths_ofPaths]
    exact distinct
  · obtain ⟨-, each⟩ := errorFree_append.mp clean
    exact Loading.isSome_of_loadFile fun d found => each d (mem_flatMap.mpr ⟨path, mem, found⟩)

namespace Compilation

/-- The types among symbols. -/
def typesOf (ss : List Symbol) : List Symbol := ss.filter (·.kind ≠ .package)

/-! ## Links -/

theorem graphOf_eq (files : List Registered) :
    graphOf files = ModuleGraph.ofModules (files.map (·.module)) := by
  rw [graphOf, ModuleGraph.ofModules, foldl_map]

/-- Linking changes the order of the files and loses none of them. -/
theorem ordered_perm {files : List Registered} (distinct : (files.map (·.file.path)).Nodup)
    (paths : ∀ r ∈ files, r.module.path = r.file.path) (linked : (graphOf files).link = .ok ()) :
    (orderedSchemas files).Perm (files.map (·.schema)) := by
  obtain ⟨sorted, complete⟩ := ModuleGraph.sorted_of_link linked
  have same : (files.map (·.module)).map Module.path = files.map (·.file.path) := by
    rw [map_map]
    exact map_congr_left paths
  have perm : (graphOf files).order.Perm (files.map (·.file.path)) := by
    refine (perm_ext_iff_of_nodup sorted.distinct distinct).mpr fun path => ?_
    rw [← same, ← ModuleGraph.contains_ofModules, ← graphOf_eq]
    exact ⟨sorted.known path, complete path⟩
  have all : (files.map (·.file.path)).filterMap (fun path =>
      (files.find? (·.file.path == path)).map (·.schema)) = files.map (·.schema) := by
    rw [filterMap_map, ← filterMap_eq_map]
    refine filterMap_congr fun r mem => ?_
    have found : files.find? (·.file.path == r.file.path) = some r := find?_of_nodup distinct mem
    simp [found]
  exact all ▸ perm.filterMap _

end Compilation

/-! ## Schemas -/

open Compilation

/-- What comes of loading and registering without an error: one module for each file, and a table
that has the types of all files. -/
structure Entered (importer : Importer) (entries : List String) (files : List Registered)
    (table : SymbolTable) (ss : List Symbol) : Prop where
  loaded : files.map (·.file) = (load importer entries).files
  schema : ∀ r ∈ files, r.file.schema = some r.schema
  path : ∀ r ∈ files, r.module.path = r.file.path
  package : ∀ r ∈ files, (filePackage? r.schema).isSome
  holds : table.Holds ss
  proper : ∀ s ∈ typesOf ss, s.Proper
  listed : typesOf ss = files.flatMap fun r => r.schema.types

section

variable {importer : Importer} {entries : List String} {files : List Registered}
  {table : SymbolTable} {ss : List Symbol} {schema : Ir.Schema}

theorem entered_of_registerAll {problems : List Diagnostic}
    (run : registerAll .refuse {} (load importer entries).files = (files, table, problems))
    (clean : ErrorFree (load importer entries).diagnostics) (clean' : ErrorFree problems) :
    ∃ ss, Entered importer entries files table ss := by
  have parsed := parsed_load importer entries
  obtain ⟨⟨ss, holds, listed⟩, hierarchy⟩ := records_of_registerAll parsed run clean'
  have modules := modules_of_registerAll parsed ((complete_load importer entries).parsed clean) run
    clean'
  refine ⟨ss, modules.files, modules.schema, modules.path, modules.package, holds, ?_, ?_⟩
  · rw [typesOf, listed.types]
    exact fun s mem => hierarchy.proper mem
  · rw [typesOf, listed.types, ← typesIn_eq parsed, typesIn, modules.schemas, flatMap_map]

/-- Lowering the files in the order of their links makes one definition for each of their types. -/
theorem Entered.gathered (entered : Entered importer entries files table ss)
    (linked : (graphOf files).link = .ok ())
    (ok : lower table (orderedSchemas files) = .ok schema) :
    Gathered (typesOf ss) schema.packages := by
  have distinct : (files.map (·.file.path)).Nodup := by
    have once := (complete_load importer entries).distinct
    rwa [← entered.loaded, map_map] at once
  have perm := ordered_perm distinct entered.path linked
  have types : typesOf ss = (files.map (·.schema)).flatMap Source.Schema.types := by
    rw [entered.listed, flatMap_map]
  have named : ∀ file ∈ orderedSchemas files, ∀ s ∈ file.types, s.descriptor.name ≠ "" := by
    intro file mem s inside
    refine (entered.proper s ?_).named
    rw [types]
    exact mem_flatMap.mpr ⟨file, perm.mem_iff.mp mem, inside⟩
  rw [types]
  exact (gathered_of_lower named ok).perm_symbols (perm.flatMap_right _)

theorem Entered.distinct (entered : Entered importer entries files table ss) :
    ((typesOf ss).map Symbol.fullName).Nodup :=
  entered.holds.2.sublist (filter_sublist.map _)

theorem entered_of_compile (compiled : (compile importer .refuse entries).schema = some schema) :
    ∃ files table ss, Entered importer entries files table ss ∧
      Gathered (typesOf ss) schema.packages ∧ ∃ sites, SchemaBuilt table sites schema := by
  rcases run : registerAll .refuse {} (load importer entries).files with ⟨files, table, problems⟩
  obtain ⟨-, clean, linked, ok⟩ := lowered_of_compile run compiled
  simp only [errorFree_append] at clean
  obtain ⟨ss, entered⟩ := entered_of_registerAll run clean.1.1 clean.1.2
  exact ⟨files, table, ss, entered, entered.gathered linked ok, _, schemaBuilt_of_lower ok⟩

end

/-- The schema has a definition of this kind under this very descriptor. -/
def Ir.Schema.Defines (schema : Ir.Schema) (kind : TypeKind) (d : Ir.Descriptor) : Prop :=
  match kind with
  | .message => ∃ m, schema.findMessage d = .ok (some m) ∧ m.descriptor = d
  | .enum => ∃ e, schema.findEnum d = .ok (some e) ∧ e.descriptor = d
  | .package => False

theorem Gathered.defines {symbols : List Symbol} (gathered : Gathered symbols schema.packages)
    (proper : ∀ s ∈ symbols, s.Proper) (distinct : (symbols.map Symbol.fullName).Nodup)
    (mem : s ∈ symbols) : schema.Defines s.kind s.descriptor.toIr := by
  have filed := gathered.filed (nodup_descriptors proper distinct)
  cases kind : s.kind with
  | message =>
    obtain ⟨m, inside, same⟩ := gathered.exists_message mem kind
    exact ⟨m, same ▸ filed.findMessage inside, same⟩
  | enum =>
    obtain ⟨e, inside, same⟩ := gathered.exists_enum mem kind
    exact ⟨e, same ▸ filed.findEnum inside, same⟩
  | package => exact absurd kind (proper s mem).type

/-- Every type that is registered is defined. -/
theorem Entered.defines {files : List Registered} {table : SymbolTable}
    (entered : Entered importer entries files table ss)
    (gathered : Gathered (typesOf ss) schema.packages) (mem : s ∈ typesOf ss) :
    schema.Defines s.kind s.descriptor.toIr :=
  gathered.defines entered.proper entered.distinct mem

theorem defined_of_compile (compiled : (compile importer .refuse entries).schema = some schema)
    {e : Ir.Encoding} (mem : e ∈ schema.encodings) :
    (e.native.kind = .message → ∃ d, e.native.descriptor = some d ∧ schema.Defines .message d) ∧
      (e.native.kind = .enum → ∃ d, e.native.descriptor = some d ∧ schema.Defines .enum d) := by
  obtain ⟨files, table, ss, entered, gathered, sites, built⟩ := entered_of_compile compiled
  obtain ⟨message, enum⟩ := built.resolved mem
  constructor
  · intro kind
    obtain ⟨name, s, found, isMessage, descriptor⟩ := message kind
    have inside := (entered.holds.mem_of_get? found).1
    have type : s ∈ typesOf ss := mem_filter.mpr ⟨inside, by simp [isMessage]⟩
    exact ⟨_, descriptor, isMessage ▸ entered.defines gathered type⟩
  · intro kind
    obtain ⟨name, s, found, isEnum, descriptor⟩ := enum kind
    have inside := (entered.holds.mem_of_get? found).1
    have type : s ∈ typesOf ss := mem_filter.mpr ⟨inside, by simp [isEnum]⟩
    exact ⟨_, descriptor, isEnum ▸ entered.defines gathered type⟩

/-- A compiled schema defines every type that it refers to, and every type that was declared. -/
theorem closed_of_compile {importer : Importer} {entries : List String} {schema : Ir.Schema}
    (compiled : (compile importer .refuse entries).schema = some schema) :
    (∀ e ∈ schema.encodings,
      (e.native.kind = .message → ∃ d, e.native.descriptor = some d ∧ schema.Defines .message d) ∧
      (e.native.kind = .enum → ∃ d, e.native.descriptor = some d ∧ schema.Defines .enum d)) ∧
    ∀ file ∈ (load importer entries).files, ∃ source p, file.schema = some source ∧
      filePackage? source = some p ∧
      ∀ s ∈ source.symbols p, schema.Defines s.kind s.descriptor.toIr := by
  refine ⟨fun e mem => defined_of_compile compiled mem, fun file mem => ?_⟩
  obtain ⟨files, table, ss, entered, gathered, -⟩ := entered_of_compile compiled
  rw [← entered.loaded] at mem
  obtain ⟨r, inside, rfl⟩ := mem_map.mp mem
  obtain ⟨p, package⟩ := Option.isSome_iff_exists.mp (entered.package r inside)
  refine ⟨r.schema, p, entered.schema r inside, package, fun s declared =>
    entered.defines gathered ?_⟩
  rw [entered.listed]
  refine mem_flatMap.mpr ⟨r, inside, ?_⟩
  rw [Source.Schema.types, package]
  exact declared

/-- Two files of one package; a message of the first has elements that are declared inside a message
of the second. -/
def outerImporter : Importer where
  fileCount := 2
  resolve path := .ok (if path == Octets.ofString "use" then "use" else "outer")
  read path := .ok (if path == "use" then
      "package a; include \"outer\"; message Use \x7b []Outer.Inner items; \x7d".toUTF8
    else "package a; message Outer \x7b enum Kind \x7b On; Off; \x7d ".toUTF8 ++
      "message Inner \x7b [string]Kind kinds; \x7d \x7d".toUTF8)

theorem closed_of_compile_outer :
    ∃ schema, (compile outerImporter .refuse ["use"]).schema = some schema ∧
      (∃ e ∈ schema.encodings, e.native.kind = .message ∧
        ∃ d, e.native.descriptor = some d ∧ schema.Defines .message d) ∧
      (∃ e ∈ schema.encodings, e.native.kind = .enum ∧
        ∃ d, e.native.descriptor = some d ∧ schema.Defines .enum d) ∧
      ∃ file ∈ (load outerImporter ["use"]).files, ∃ source p, file.schema = some source ∧
        filePackage? source = some p ∧ ∃ s ∈ source.symbols p, s.kind = .enum ∧
        schema.Defines .enum ⟨"a", ["Outer"], "Kind"⟩ := by
  have run : ∃ schema ∈ (compile outerImporter .refuse ["use"]).schema,
      (∃ e ∈ schema.encodings, e.native.kind = .message) ∧
        ∃ e ∈ schema.encodings, e.native.kind = .enum := by
    decide +kernel
  have declared : ∃ file ∈ (load outerImporter ["use"]).files, ∃ source ∈ file.schema,
      ∃ p ∈ filePackage? source, ∃ s ∈ source.symbols p,
        s.kind = .enum ∧ s.descriptor.toIr = ⟨"a", ["Outer"], "Kind"⟩ := by
    decide +kernel
  obtain ⟨schema, compiled, ⟨e, mem, message⟩, ⟨e', mem', enum⟩⟩ := run
  obtain ⟨file, loaded, source, isSource, p, package, s, symbol, kind, descriptor⟩ := declared
  obtain ⟨references, declarations⟩ := closed_of_compile compiled
  obtain ⟨source', p', isSource', package', defines⟩ := declarations file loaded
  cases isSource.symm.trans isSource'
  cases package.symm.trans package'
  refine ⟨schema, compiled, ⟨e, mem, message, (references e mem).1 message⟩,
    ⟨e', mem', enum, (references e' mem').2 enum⟩, file, loaded, source, p, isSource, package, s,
    symbol, kind, ?_⟩
  have found := defines s symbol
  rwa [kind, descriptor] at found

end BitSchema
