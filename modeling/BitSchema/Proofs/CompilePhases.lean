import BitSchema.Proofs.ClosedSchemas
import BitSchema.Proofs.Findings

/-!
# Phases of a compilation

Linking and lowering start only after checks without errors, and then hardly anything is left that
can go wrong.  Lowering resolves the references again that were resolved before, in the same scopes.
Every include leads to a file that was loaded and registered, so the only link error is a cycle, and
its first edge is an include statement.
-/

namespace BitSchema

open List
open Compilation

section

variable {importer : Importer} {policy : RedefinitionPolicy} {entries : List String}
  {files : List Registered} {table : SymbolTable} {problems : List Diagnostic}

/-! ## Checked files -/

/-- What comes of checks without errors: every loaded file has a module and was checked. -/
theorem modules_of_checks
    (run : registerAll policy {} (load importer entries).files = (files, table, problems))
    (clean : ErrorFree
      ((load importer entries).diagnostics ++ problems ++ files.flatMap (analyze table))) :
    Modules (load importer entries).files files ∧ ∀ r ∈ files, ErrorFree (analyze table r) := by
  simp only [errorFree_append] at clean
  obtain ⟨⟨loaded, registered⟩, analyzed⟩ := clean
  refine ⟨modules_of_registerAll (parsed_load importer entries)
    ((complete_load importer entries).parsed loaded) run registered, fun r mem d found => ?_⟩
  exact analyzed d (mem_flatMap.mpr ⟨r, mem, found⟩)

/-- Files that were checked can be lowered. -/
theorem exists_lower_of_checks {loaded : List LoadedFile} (modules : Modules loaded files)
    (checked : ∀ r ∈ files, ErrorFree (analyze table r)) :
    ∃ schema, lower table (orderedSchemas files) = .ok schema := by
  refine (lowers_lower fun file mem => ?_).iff.mpr ?_
  · obtain ⟨r, inside, rfl⟩ := registered_of_mem mem
    exact modules.package r inside
  · intro file mem
    obtain ⟨r, inside, rfl⟩ := registered_of_mem mem
    have checks := checked r inside
    simp only [analyze, errorFree_append] at checks
    exact checks.1.1.1

/-! ## Links -/

section

variable (modules : Modules (load importer entries).files files)

include modules

theorem nodup_files : (files.map (·.file.path)).Nodup := by
  have once := (complete_load importer entries).distinct
  rwa [← modules.files, map_map] at once

theorem nodup_modules : ((files.map (·.module)).map Module.path).Nodup := by
  rw [map_map]
  exact map_congr_left modules.path ▸ nodup_files modules

theorem module?_graphOf {path : String}
    {m : Module} : (graphOf files).module? path = some m ↔ ∃ r ∈ files, r.module = m ∧
      r.file.path = path := by
  have distinct : ((files.map (·.module)).reverse.map Module.path).Nodup := by
    rw [map_reverse, nodup_reverse]
    exact nodup_modules modules
  rw [graphOf_eq, ModuleGraph.module?_ofModules, ModuleGraph.latest?]
  constructor
  · intro found
    obtain ⟨r, mem, rfl⟩ := mem_map.mp (mem_reverse.mp (mem_of_find?_eq_some found))
    have same : r.module.path = path := by simpa using find?_some found
    exact ⟨r, mem, rfl, (modules.path r mem).symm.trans same⟩
  · rintro ⟨r, mem, rfl, rfl⟩
    rw [← modules.path r mem]
    exact find?_of_nodup distinct (mem_reverse.mpr (mem_map_of_mem mem))

theorem contains_graphOf {path : String} :
    (graphOf files).contains path = true ↔ path ∈ (load importer entries).files.map (·.path) := by
  rw [← modules.files, map_map, ModuleGraph.contains, Option.isSome_iff_exists]
  simp [module?_graphOf modules]

/-- The edges of the graph are the includes of the loaded files. -/
theorem includes_graphOf {a b : String} :
    (graphOf files).Includes a b ↔
      a ∈ (load importer entries).files.map (·.path) ∧ importer.Includes a b := by
  have isLoad : ∀ r ∈ files, r.file = (Loading.loadFile importer r.file.path).1 := fun r mem =>
    (eq_of_mem_load (modules.files ▸ mem_map_of_mem mem)).1
  rw [ModuleGraph.Includes, ← modules.files, map_map]
  constructor
  · rintro ⟨m, found, dep⟩
    obtain ⟨r, mem, rfl, rfl⟩ := (module?_graphOf modules).mp found
    rw [modules.deps r mem, isLoad r mem, Loading.mem_includes] at dep
    exact ⟨mem_map.mpr ⟨r, mem, rfl⟩, dep⟩
  · rintro ⟨loaded, includes⟩
    obtain ⟨r, mem, rfl⟩ := mem_map.mp loaded
    refine ⟨r.module, (module?_graphOf modules).mpr ⟨r, mem, rfl, rfl⟩, ?_⟩
    rw [modules.deps r mem, isLoad r mem, Loading.mem_includes]
    exact includes

/-- The span of an edge is that of an include statement. -/
theorem edgeSpan_of_includes {a b : String} (edge : (graphOf files).Includes a b) :
    ∃ file ∈ (load importer entries).files, file.path = a ∧ ∃ schema, file.schema = some schema ∧
      ∃ node ∈ schema.inclusions, importer.resolve node.path.value = .ok b ∧
        edgeSpan files a b = node.span := by
  obtain ⟨m, found, dep⟩ := edge
  obtain ⟨r, mem, rfl, rfl⟩ := (module?_graphOf modules).mp found
  rw [modules.deps r mem] at dep
  obtain ⟨first, isFirst⟩ : ∃ i, r.file.includes.find? (·.target == b) = some i := by
    rw [← Option.isSome_iff_exists, find?_isSome]
    obtain ⟨i, inside, same⟩ := mem_map.mp dep
    exact ⟨i, inside, by simpa using same⟩
  have isTarget : first.target = b := by simpa using find?_some isFirst
  have loaded : r.file ∈ (load importer entries).files := modules.files ▸ mem_map_of_mem mem
  have inside := mem_of_find?_eq_some isFirst
  rw [(eq_of_mem_load loaded).1] at inside
  obtain ⟨source, schema, -, -, isSchema, node, resolved⟩ := Loading.node_of_includes inside
  rw [← (eq_of_mem_load loaded).1] at isSchema
  have isFile : files.find? (·.file.path == r.file.path) = some r :=
    find?_of_nodup (nodup_files modules) mem
  refine ⟨r.file, loaded, rfl, schema, isSchema, first.node, node, isTarget ▸ resolved, ?_⟩
  simp [edgeSpan, isFile, isFirst]

end

/-- If all files that can be reached were loaded, no include leads out of the graph. -/
theorem closed_graphOf (covers : importer.Covers entries)
    (modules : Modules (load importer entries).files files) {a b : String}
    (edge : (graphOf files).Includes a b) : (graphOf files).contains b = true := by
  obtain ⟨loaded, includes⟩ := (includes_graphOf modules).mp edge
  rw [contains_graphOf modules, mem_load_iff covers]
  exact .inclusion ((mem_load_iff covers).mp loaded) includes

theorem nodup_paths_graphOf (files : List Registered) : (graphOf files).paths.Nodup := by
  rw [graphOf_eq]
  exact ModuleGraph.nodup_paths_ofModules _

/-- So the only link error is a cycle. -/
theorem cycle_of_link_error (covers : importer.Covers entries)
    (modules : Modules (load importer entries).files files) {cause : LinkError}
    (failed : (graphOf files).link = .error cause) :
    ∃ a b rest, cause = .cycle (a :: b :: rest) ∧ (graphOf files).Includes a b := by
  rcases ModuleGraph.link_error (nodup_paths_graphOf files) failed with
    ⟨source, target, -, edge, absent⟩ | ⟨paths, rfl, cycle⟩
  · rw [closed_graphOf covers modules edge] at absent
    cases absent
  · obtain ⟨length, -, -, chained⟩ := cycle
    rcases paths with _ | ⟨a, _ | ⟨b, rest⟩⟩
    · simp at length
    · simp at length
    · exact ⟨a, b, rest, rfl, (isChain_cons_cons.mp chained).1⟩

/-! ## Compilations -/

theorem errors_concat {ds : List Diagnostic} {d : Diagnostic} (clean : ErrorFree ds)
    (error : d.isError = true) : Diagnostic.errors (ds ++ [d]) = [d] := by
  have none : ds.filter (·.isError) = [] := errors_eq_nil_iff.mpr clean
  rw [Diagnostic.errors, filter_append, none, filter_cons_of_pos error]
  rfl

theorem findings_checks
    (run : registerAll policy {} (load importer entries).files = (files, table, problems)) :
    Findings
      ((load importer entries).diagnostics ++ problems ++ files.flatMap (analyze table)) := by
  have registered := findings_registerAll policy {} (load importer entries).files
  rw [run] at registered
  exact findings_append.mpr ⟨findings_append.mpr ⟨findings_load importer entries, registered⟩,
    findings_flatMap fun r _ => findings_analyze table r⟩

end

/-- The phases of a compilation fit together.  There is a schema exactly if there is no error, and
lowering never fails.  A link error is the only error, and it is a cycle whose first edge is the
include statement it is reported at. -/
theorem compile_phases (importer : Importer) (policy : RedefinitionPolicy) (entries : List String) :
    ((compile importer policy entries).schema.isSome ↔
        (compile importer policy entries).errors = []) ∧
    (∀ d ∈ (compile importer policy entries).diagnostics, d.code ≠ 3021) ∧
    ∀ d ∈ (compile importer policy entries).diagnostics, d.code = 3020 →
      (compile importer policy entries).errors = [d] ∧
      (importer.Covers entries → ∃ a b rest, d.problem = .unlinked (.cycle (a :: b :: rest)) ∧
        ∃ file ∈ (load importer entries).files, file.path = a ∧
          ∃ schema, file.schema = some schema ∧ ∃ node ∈ schema.inclusions,
            importer.resolve node.path.value = .ok b ∧ d.span = node.span) := by
  rcases run : registerAll policy {} (load importer entries).files with ⟨files, table, problems⟩
  have findings := findings_checks run
  cases ends_compile run with
  | failed dirty none checks =>
      rw [none, errors, checks, errors_eq_nil_iff]
      exact ⟨⟨by simp, fun clean => absurd clean dirty⟩, fun d mem => (findings d mem).2,
        fun d mem code => absurd code (findings d mem).1⟩
  | @unlinked cause clean broken none checks =>
      have error : Diagnostic.isError ⟨linkSpan files cause, .unlinked cause⟩ = true :=
        isError_eq_true_iff.mpr (by simp [Problem.code])
      rw [none, errors, checks, errors_concat clean error]
      refine ⟨by simp, fun d mem => ?_, fun d mem code => ?_⟩
      · rcases mem_append.mp mem with check | link
        · exact (findings d check).2
        · rw [mem_singleton.mp link]
          simp [Diagnostic.code, Problem.code]
      · rcases mem_append.mp mem with check | link
        · exact absurd code (findings d check).1
        · obtain rfl := mem_singleton.mp link
          refine ⟨rfl, fun covers => ?_⟩
          obtain ⟨modules, -⟩ := modules_of_checks run clean
          obtain ⟨a, b, rest, rfl, edge⟩ := cycle_of_link_error covers modules broken
          exact ⟨a, b, rest, rfl, edgeSpan_of_includes modules edge⟩
  | notLowered clean linked broken =>
      obtain ⟨modules, checked⟩ := modules_of_checks run clean
      obtain ⟨schema, lowered⟩ := exists_lower_of_checks modules checked
      cases broken.symm.trans lowered
  | lowered clean linked lowered some checks =>
      rw [some, errors, checks, errors_eq_nil_iff]
      exact ⟨⟨fun _ => clean, fun _ => rfl⟩, fun d mem => (findings d mem).2,
        fun d mem code => absurd code (findings d mem).1⟩

/-- Two files that include each other. -/
def ringImporter : Importer where
  fileCount := 2
  resolve path := .ok (if path == Octets.ofString "a" then "a" else "b")
  read path := .ok (if path == "a" then
      "package a; include \"b\"; message A \x7b .b.B b; \x7d".toUTF8
    else "package b; include \"a\"; message B \x7b u8 n; \x7d".toUTF8)

theorem compile_phases_ring :
    (compile ringImporter .refuse ["a"]).schema.isNone ∧ ringImporter.Covers ["a"] ∧
    ∃ d, (compile ringImporter .refuse ["a"]).errors = [d] ∧ d.code = 3020 ∧
      ∃ a b rest, d.problem = .unlinked (.cycle (a :: b :: rest)) ∧
        ∃ file ∈ (load ringImporter ["a"]).files, file.path = a ∧
          ∃ schema, file.schema = some schema ∧ ∃ node ∈ schema.inclusions,
            ringImporter.resolve node.path.value = .ok b ∧ d.span = node.span := by
  have covers : ringImporter.Covers ["a"] := by
    refine Importer.covers_of_resolve ["a", "b"] (Nat.le_refl 2) fun written path found => ?_
    cases found
    split <;> simp
  have link : ∃ d ∈ (compile ringImporter .refuse ["a"]).diagnostics, d.code = 3020 := by
    decide +kernel
  obtain ⟨d, mem, code⟩ := link
  obtain ⟨-, -, links⟩ := compile_phases ringImporter .refuse ["a"]
  obtain ⟨only, cycle⟩ := links d mem code
  exact ⟨by decide +kernel, covers, d, only, code, cycle covers⟩

end BitSchema
