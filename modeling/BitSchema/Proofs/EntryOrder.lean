import BitSchema.Proofs.CompilePhases
import BitSchema.Proofs.MergedPackages
import BitSchema.Proofs.SameTypes

/-!
# The order of entries

The order of the entries decides the order in which files are loaded, registered, checked, linked
and lowered, and nothing else.  Which files are loaded follows from the set of the entries, and an
error of any phase is a fact about the files that does not mention their order.  Without errors, two
orders give tables that answer every reference alike, so every definition is lowered alike.
-/

namespace BitSchema

open List
open Compilation Loading

/-! ## Loading -/

section

variable {importer : Importer} {entries entries' : List String}

theorem mem_resolveEntries_problems {d : Diagnostic} :
    d ∈ (resolveEntries importer entries).2 ↔ ∃ entry ∈ entries, ∃ cause,
      importer.resolve (Octets.ofString entry) = .error cause ∧
        d = ⟨fileSpan entry, .includeNotFound (Octets.ofString entry) cause⟩ := by
  induction entries with
  | nil => simp [resolveEntries]
  | cons entry entries ih =>
    rw [resolveEntries]
    dsimp only
    cases resolved : importer.resolve (Octets.ofString entry) with
    | ok path | error cause => simp [ih, resolved]

/-- An entry that means no file is an error, so without errors there is nothing to report. -/
theorem resolveEntries_eq_nil (clean : ErrorFree (resolveEntries importer entries).2) :
    (resolveEntries importer entries).2 = [] := by
  refine eq_nil_iff_forall_not_mem.mpr fun d mem => ?_
  have warning := isError_eq_false_iff.mp (clean d mem)
  obtain ⟨entry, -, cause, -, rfl⟩ := mem_resolveEntries_problems.mp mem
  simp [Problem.code] at warning

theorem Importer.Covers.of_same (covers : importer.Covers entries)
    (same : ∀ entry, entry ∈ entries ↔ entry ∈ entries') : importer.Covers entries' := by
  obtain ⟨paths, short, all⟩ := covers
  exact ⟨paths, short, fun path reached => all path (reached.mono fun e => (same e).mpr)⟩

/-- The same entries load the same files, in whatever order. -/
theorem load_perm (covers : importer.Covers entries)
    (same : ∀ entry, entry ∈ entries ↔ entry ∈ entries') :
    (load importer entries).files.Perm (load importer entries').files ∧
      (ErrorFree (load importer entries).diagnostics →
        (load importer entries).diagnostics.Perm (load importer entries').diagnostics) := by
  obtain ⟨paths, eq, distinct, reached, complete⟩ := load_eq_ofPaths importer entries
  obtain ⟨paths', eq', distinct', reached', complete'⟩ := load_eq_ofPaths importer entries'
  have perm : paths.Perm paths' := by
    refine (perm_ext_iff_of_nodup distinct distinct').mpr fun path => ⟨?_, ?_⟩
    · intro mem
      exact complete' (covers.of_same same) path ((reached path mem).mono fun e => (same e).mp)
    · intro mem
      exact complete covers path ((reached' path mem).mono fun e => (same e).mpr)
  rw [eq, eq']
  refine ⟨perm.map _, fun clean => ?_⟩
  have found := (errorFree_append.mp clean).1
  have found' : ErrorFree (resolveEntries importer entries').2 := by
    intro d mem
    obtain ⟨entry, inside, problem⟩ := mem_resolveEntries_problems.mp mem
    exact found d (mem_resolveEntries_problems.mpr ⟨entry, (same entry).mpr inside, problem⟩)
  rw [ofPaths, ofPaths, resolveEntries_eq_nil found, resolveEntries_eq_nil found']
  exact perm.flatMap_right _

end

/-! ## Registering and checking -/

section

variable {loaded loaded' : List LoadedFile} {files files' : List Registered}
  {table table' : SymbolTable} {problems problems' : List Diagnostic}

theorem Compatible.perm {ts us : List Symbol} {ps qs : List PackageName}
    (compatible : Compatible ts ps) (types : ts.Perm us) (packages : ps.Perm qs) :
    Compatible us qs where
  distinct := (types.map _).nodup_iff.mp compatible.distinct
  apart s mem p inside := compatible.apart s (types.mem_iff.mpr mem) p (packages.mem_iff.mpr inside)

/-- If files register without an error, they do so in any order. -/
theorem registerAll_perm (same : loaded.Perm loaded')
    (run : registerAll .refuse {} loaded = (files, table, problems))
    (run' : registerAll .refuse {} loaded' = (files', table', problems'))
    (clean : ErrorFree problems) :
    ErrorFree problems' ∧ problems.Perm problems' ∧ SameTypes table table' := by
  have schemas : (schemasOf loaded).Perm (schemasOf loaded') := same.filterMap _
  have types : (typesIn loaded).Perm (typesIn loaded') := schemas.flatMap_right _
  have packages : (packagesIn loaded).Perm (packagesIn loaded') := schemas.flatMap_right _
  have specified := registerAll_spec loaded SymbolTable.records_empty
  have specified' := registerAll_spec loaded' SymbolTable.records_empty
  rw [run] at specified
  rw [run'] at specified'
  simp only [nil_append] at specified specified'
  obtain ⟨orderly, compatible⟩ := specified.1.mp clean
  have clean' : ErrorFree problems' := specified'.1.mpr
    ⟨fun schema mem => orderly schema (schemas.mem_iff.mpr mem), compatible.perm types packages⟩
  obtain ⟨records, reported⟩ := specified.2 clean
  obtain ⟨records', reported'⟩ := specified'.2 clean'
  refine ⟨clean', ?_, records.sameTypes records' (fun s => types.mem_iff) fun p => packages.mem_iff⟩
  rw [reported, reported']
  exact types.flatMap_right _

/-- What is checked in a file that was parsed. -/
def Compilation.analyzeFile (table : SymbolTable) (file : LoadedFile) : List Diagnostic :=
  file.schema.elim [] fun schema => analyze table ⟨file, schema, default⟩

theorem analyze_perm (same : loaded.Perm loaded') (modules : Modules loaded files)
    (modules' : Modules loaded' files') (types : SameTypes table table') :
    (files.flatMap (analyze table)).Perm (files'.flatMap (analyze table')) := by
  have byFile : ∀ {loaded files table}, Modules loaded files →
      files.flatMap (analyze table) = loaded.flatMap (analyzeFile table) := by
    intro loaded files table modules
    rw [← modules.files, flatMap_map]
    refine flatMap_congr fun r mem => ?_
    rw [analyzeFile, modules.schema r mem]
    rfl
  have alike : analyze table = analyze table' := funext types.analyze
  rw [alike, byFile modules, byFile modules']
  exact same.flatMap_right _

end

/-! ## Linking and lowering -/

section

variable {importer : Importer} {entries entries' : List String} {files files' : List Registered}
  {table table' : SymbolTable} {problems problems' : List Diagnostic} {schema : Ir.Schema}

theorem link_graphOf_iff (covers : importer.Covers entries)
    (modules : Modules (load importer entries).files files) :
    (graphOf files).link = .ok () ↔
      ∀ path, ¬ Relation.TransGen (graphOf files).Includes path path :=
  ⟨ModuleGraph.acyclic_of_link, ModuleGraph.link_ok_of_closed_acyclic (nodup_paths_graphOf files)
    fun _ _ => closed_graphOf covers modules⟩

/-- After clean checks and links a compilation is bound to end with a schema. -/
theorem lowered_of_checks
    (run : registerAll .refuse {} (load importer entries).files = (files, table, problems))
    (clean : ErrorFree
      ((load importer entries).diagnostics ++ problems ++ files.flatMap (analyze table)))
    (linked : (graphOf files).link = .ok ()) :
    ∃ schema, (compile importer .refuse entries).schema = some schema ∧
      lower table (orderedSchemas files) = .ok schema ∧
      (compile importer .refuse entries).diagnostics =
        (load importer entries).diagnostics ++ problems ++ files.flatMap (analyze table) := by
  cases ends_compile run with
  | failed dirty => exact absurd clean dirty
  | unlinked _ broken => cases broken.symm.trans linked
  | notLowered _ _ broken =>
    obtain ⟨modules, checked⟩ := modules_of_checks run clean
    obtain ⟨schema, lowered⟩ := exists_lower_of_checks modules checked
    cases broken.symm.trans lowered
  | lowered _ _ lowered isSchema checks => exact ⟨_, isSchema, lowered, checks⟩

/-- A compilation passes exactly if the checks are clean and the files link. -/
theorem passes_iff
    (run : registerAll .refuse {} (load importer entries).files = (files, table, problems)) :
    (compile importer .refuse entries).failed = false ↔
      ErrorFree ((load importer entries).diagnostics ++ problems ++ files.flatMap (analyze table)) ∧
        (graphOf files).link = .ok () := by
  rw [failed_eq_false_iff]
  constructor
  · intro passed
    cases ends_compile run with
    | failed dirty _ checks => exact absurd (checks ▸ passed) dirty
    | unlinked _ _ _ checks | notLowered _ _ _ _ checks =>
      rw [checks, errorFree_append] at passed
      exact (not_errorFree_of_code passed.2 (by simp [Problem.code])).elim
    | lowered clean linked => exact ⟨clean, linked⟩
  · intro passes
    obtain ⟨clean, linked⟩ := passes
    obtain ⟨-, -, -, checks⟩ := lowered_of_checks run clean linked
    exact checks ▸ clean

theorem filed_of_compile (compiled : (compile importer .refuse entries).schema = some schema) :
    schema.Filed := by
  obtain ⟨files, table, ss, entered, gathered, -⟩ := entered_of_compile compiled
  exact gathered.filed (nodup_descriptors entered.proper entered.distinct)

variable (covers : importer.Covers entries) (same : ∀ entry, entry ∈ entries ↔ entry ∈ entries')

include covers same

theorem link_perm (modules : Modules (load importer entries).files files)
    (modules' : Modules (load importer entries').files files')
    (linked : (graphOf files).link = .ok ()) : (graphOf files').link = .ok () := by
  have edges : (graphOf files).Includes = (graphOf files').Includes := by
    funext a b
    have paths := ((load_perm covers same).1.map (·.path)).mem_iff (a := a)
    rw [includes_graphOf modules, includes_graphOf modules', paths]
  rw [link_graphOf_iff covers modules, edges] at linked
  exact (link_graphOf_iff (covers.of_same same) modules').mpr linked

/-- Checks that are clean find the same things in any order of the entries, and the symbol tables
that they used agree. -/
theorem checks_perm
    (run : registerAll .refuse {} (load importer entries).files = (files, table, problems))
    (run' : registerAll .refuse {} (load importer entries').files = (files', table', problems'))
    (clean : ErrorFree
      ((load importer entries).diagnostics ++ problems ++ files.flatMap (analyze table))) :
    SameTypes table table' ∧
      ((load importer entries).diagnostics ++ problems ++ files.flatMap (analyze table)).Perm
        ((load importer entries').diagnostics ++ problems' ++ files'.flatMap (analyze table')) := by
  obtain ⟨modules, -⟩ := modules_of_checks run clean
  simp only [errorFree_append] at clean
  obtain ⟨⟨loads, registers⟩, -⟩ := clean
  obtain ⟨loaded, found⟩ := load_perm covers same
  obtain ⟨registers', reported, types⟩ := registerAll_perm loaded run run' registers
  have parsed' : ∀ file ∈ (load importer entries').files, file.schema.isSome := fun file mem =>
    (complete_load importer entries).parsed loads file (loaded.mem_iff.mpr mem)
  have modules' := modules_of_registerAll (parsed_load importer entries') parsed' run' registers'
  exact ⟨types, ((found loads).append reported).append (analyze_perm loaded modules modules' types)⟩

/-- The files are lowered in another order, but they are the same files. -/
theorem orderedSchemas_perm (modules : Modules (load importer entries).files files)
    (modules' : Modules (load importer entries').files files')
    (linked : (graphOf files).link = .ok ()) (linked' : (graphOf files').link = .ok ()) :
    (orderedSchemas files).Perm (orderedSchemas files') := by
  have schemas : (files.map (·.schema)).Perm (files'.map (·.schema)) := by
    rw [← modules.schemas, ← modules'.schemas]
    exact (load_perm covers same).1.filterMap _
  have ordered := ordered_perm (nodup_files modules) modules.path linked
  have ordered' := ordered_perm (nodup_files modules') modules'.path linked'
  exact ordered.trans (schemas.trans ordered'.symm)

/-- The same entries pass in any order. -/
theorem passes_of_same (passed : (compile importer .refuse entries).failed = false) :
    (compile importer .refuse entries').failed = false := by
  rcases run : registerAll .refuse {} (load importer entries).files with ⟨files, table, problems⟩
  rcases run' : registerAll .refuse {} (load importer entries').files with
    ⟨files', table', problems'⟩
  obtain ⟨clean, linked⟩ := (passes_iff run).mp passed
  obtain ⟨-, perm⟩ := checks_perm covers same run run' clean
  have clean' := clean.perm perm
  obtain ⟨modules, -⟩ := modules_of_checks run clean
  obtain ⟨modules', -⟩ := modules_of_checks run' clean'
  exact (passes_iff run').mpr ⟨clean', link_perm covers same modules modules' linked⟩

end

/-- The result of a compilation does not depend on the order of its entries, nor on how often one is
named. -/
theorem compile_sameEntries {importer : Importer} {entries entries' : List String}
    (covers : importer.Covers entries) (same : ∀ entry, entry ∈ entries ↔ entry ∈ entries') :
    (compile importer .refuse entries).failed = (compile importer .refuse entries').failed ∧
    ((compile importer .refuse entries).failed = false →
      ∃ schema schema', (compile importer .refuse entries).schema = some schema ∧
        (compile importer .refuse entries').schema = some schema' ∧
        schema.packages.map (·.path) = schema'.packages.map (·.path) ∧
        (∀ d, schema.findMessage d = schema'.findMessage d) ∧
        (∀ d, schema.findEnum d = schema'.findEnum d) ∧
        (compile importer .refuse entries).warnings.Perm
          (compile importer .refuse entries').warnings) := by
  have back : ∀ entry, entry ∈ entries' ↔ entry ∈ entries := fun entry => (same entry).symm
  have alike : (compile importer .refuse entries).failed = false ↔
      (compile importer .refuse entries').failed = false :=
    ⟨passes_of_same covers same, passes_of_same (covers.of_same same) back⟩
  refine ⟨Bool.eq_iff_iff.mpr (by simpa using not_congr alike), fun passed => ?_⟩
  rcases run : registerAll .refuse {} (load importer entries).files with ⟨files, table, problems⟩
  rcases run' : registerAll .refuse {} (load importer entries').files with
    ⟨files', table', problems'⟩
  obtain ⟨clean, linked⟩ := (passes_iff run).mp passed
  obtain ⟨clean', linked'⟩ := (passes_iff run').mp (alike.mp passed)
  obtain ⟨modules, -⟩ := modules_of_checks run clean
  obtain ⟨modules', -⟩ := modules_of_checks run' clean'
  obtain ⟨types, found⟩ := checks_perm covers same run run' clean
  obtain ⟨schema, isSchema, lowered, checks⟩ := lowered_of_checks run clean linked
  obtain ⟨schema', isSchema', lowered', checks'⟩ := lowered_of_checks run' clean' linked'
  have ordered := orderedSchemas_perm covers same modules modules' linked linked'
  rw [types.lower] at lowered
  obtain ⟨paths, packages⟩ := Lowering.reorders_of_lower ordered lowered lowered'
  have filed := filed_of_compile isSchema
  refine ⟨schema, schema', isSchema, isSchema', paths, fun d => (filed.find_reorders packages d).1,
    fun d => (filed.find_reorders packages d).2, ?_⟩
  rw [warnings, warnings, checks, checks']
  exact found.filter _

/-- Two files of one package that both include a third. -/
def pairImporter : Importer where
  fileCount := 3
  resolve path := .ok (if path == Octets.ofString "a" then "a"
    else if path == Octets.ofString "b" then "b" else "c")
  read path := .ok (if path == "a" then
      "package p; include \"c\"; message A \x7b .q.C c; \x7d".toUTF8
    else if path == "b" then
      "package p; include \"c\"; message B \x7b A a; \x7d enum E \x7b On; Off; \x7d".toUTF8
    else "package q; message C \x7b u8 n; \x7d".toUTF8)

theorem compile_sameEntries_pair :
    pairImporter.Covers ["a", "b"] ∧ (∀ entry, entry ∈ ["a", "b"] ↔ entry ∈ ["b", "a", "b"]) ∧
    (compile pairImporter .refuse ["a", "b"]).failed = false ∧
    (compile pairImporter .refuse ["b", "a", "b"]).failed = false ∧
    ∃ schema schema', (compile pairImporter .refuse ["a", "b"]).schema = some schema ∧
      (compile pairImporter .refuse ["b", "a", "b"]).schema = some schema' ∧
      schema.packages.map (·.path) = schema'.packages.map (·.path) ∧
      (∀ d, schema.findMessage d = schema'.findMessage d) ∧
      (∀ d, schema.findEnum d = schema'.findEnum d) ∧
      (compile pairImporter .refuse ["a", "b"]).warnings.Perm
        (compile pairImporter .refuse ["b", "a", "b"]).warnings := by
  have covers : pairImporter.Covers ["a", "b"] := by
    refine Importer.covers_of_resolve ["a", "b", "c"] (Nat.le_refl 3) fun written path found => ?_
    cases found
    split
    next => simp
    next => split <;> simp
  have same : ∀ entry, entry ∈ ["a", "b"] ↔ entry ∈ ["b", "a", "b"] := by
    intro entry
    simp only [mem_cons, not_mem_nil, or_false]
    tauto
  have passed : (compile pairImporter .refuse ["a", "b"]).failed = false := by
    decide +kernel
  obtain ⟨alike, agree⟩ := compile_sameEntries covers same
  exact ⟨covers, same, passed, alike ▸ passed, agree passed⟩

end BitSchema
