import BitSchema.Compilation.Loading
import BitSchema.Import.Memory
import BitSchema.Proofs.ErrorFree
import BitSchema.Proofs.Outcome
import BitSchema.Proofs.Utf8

/-!
# Loaded files

Loading follows includes from the entries on.  Whatever it has come to, its files are the loads of
different paths that were reached.  If the importer has no more files than it says, the fuel lasts
until nothing waits any more, and then every path that can be reached has been loaded.
-/

namespace BitSchema

open List
open Source (Schema)

/-! ## Reached paths -/

/-- A file can be read and parsed, and has an include that means this target. -/
def Importer.Includes (importer : Importer) (path target : String) : Prop :=
  ∃ source schema, importer.read path = .ok source ∧ Schema.parse path source = .ok schema ∧
    ∃ node ∈ schema.inclusions, importer.resolve node.path.value = .ok target

/-- The paths that entries mean, and those that includes lead to from there. -/
inductive Importer.Reached (importer : Importer) (entries : List String) : String → Prop where
  | entry {entry path : String} : entry ∈ entries →
    importer.resolve (Octets.ofString entry) = .ok path → Reached importer entries path
  | inclusion {path target : String} : Reached importer entries path →
    importer.Includes path target → Reached importer entries target

/-- No more files can be reached than the importer says that there are. -/
def Importer.Covers (importer : Importer) (entries : List String) : Prop :=
  ∃ paths : List String, paths.length ≤ importer.fileCount ∧
    ∀ path, importer.Reached entries path → path ∈ paths

namespace Importer

variable {importer : Importer} {entries entries' : List String} {path : String}

/-- What is reached depends on the set of the entries only. -/
theorem Reached.mono (reached : importer.Reached entries path) (more : entries ⊆ entries') :
    importer.Reached entries' path := by
  induction reached with
  | entry mem resolved => exact .entry (more mem) resolved
  | inclusion _ includes ih => exact .inclusion ih includes

theorem Reached.resolved (reached : importer.Reached entries path) :
    ∃ written, importer.resolve written = .ok path := by
  cases reached with
  | entry _ resolved => exact ⟨_, resolved⟩
  | inclusion _ includes =>
    obtain ⟨-, -, -, -, node, -, resolved⟩ := includes
    exact ⟨_, resolved⟩

/-- An importer that finds only files of a short list covers all entries. -/
theorem covers_of_resolve (paths : List String) (short : paths.length ≤ importer.fileCount)
    (known : ∀ written path, importer.resolve written = .ok path → path ∈ paths) :
    importer.Covers entries :=
  ⟨paths, short, fun path reached => by
    obtain ⟨written, resolved⟩ := reached.resolved
    exact known written path resolved⟩

end Importer

/-- An include path leads to its clean form, if that is text, passes the checks and is a regular
file. -/
theorem resolveLocal_ok_iff {status : String → FileStatus} {written : Octets} {path : String} :
    resolveLocal status written = .ok path ↔
      (checkIncludePath written = .ok () ∧ Path.isLocal path = true) ∧
        Path.cleanOctets written = Octets.ofString path ∧ status path = .regular := by
  rw [resolveLocal, bind_ok_iff, exists_unit_iff, and_assoc]
  refine and_congr_right fun _ => ?_
  cases text : (Path.cleanOctets written).toString? with
  | none =>
    refine iff_of_false (fun ok => by cases ok) ?_
    rintro ⟨-, same, -⟩
    rw [Octets.toString?_eq_some_iff.mpr same] at text
    cases text
  | some clean =>
    rw [Octets.toString?_eq_some_iff.mp text, Octets.ofString_inj]
    dsimp only
    by_cases inside : Path.isLocal clean = true
    · simp only [inside, Bool.not_true, Bool.false_eq_true, if_false]
      cases found : status clean with
      | regular =>
        refine ⟨fun ok => ?_, fun ok => ok.2.1 ▸ rfl⟩
        cases ok
        exact ⟨inside, rfl, found⟩
      | _ =>
        refine iff_of_false (fun ok => by cases ok) ?_
        rintro ⟨-, rfl, regular⟩
        cases found.symm.trans regular
    · simp only [inside, Bool.not_false, if_true]
      refine iff_of_false (fun ok => by cases ok) ?_
      rintro ⟨isLocal, rfl, -⟩
      exact inside isLocal

/-- Files in memory are as many as are given. -/
theorem MemoryFiles.covers (m : MemoryFiles) (entries : List String) :
    m.importer.Covers entries := by
  refine Importer.covers_of_resolve (m.files.map Prod.fst) (by simp [importer]) ?_
  intro written path resolved
  obtain ⟨-, -, regular⟩ := resolveLocal_ok_iff.mp resolved
  have known : (m.content? path).isSome = true := by
    unfold status at regular
    split at regular
    next known => exact known
    next => split at regular <;> cases regular
  rw [content?, Option.isSome_map] at known
  obtain ⟨file, found⟩ := Option.isSome_iff_exists.mp known
  refine mem_map.mpr ⟨file, mem_of_find?_eq_some found, ?_⟩
  simpa using find?_some found

/-! ## One file -/

namespace Loading

variable {importer : Importer}

theorem mem_resolveIncludes (done : List ResolvedInclude) (nodes : List Source.Inclusion) :
    ∀ i ∈ (resolveIncludes importer done nodes).1, i ∈ done ∨
      i.node ∈ nodes ∧ importer.resolve i.node.path.value = .ok i.target := by
  induction nodes generalizing done with
  | nil => exact fun i mem => .inl mem
  | cons node nodes ih =>
    intro i mem
    rw [resolveIncludes] at mem
    split at mem
    next => exact (ih done i mem).imp_right fun later => ⟨mem_cons_of_mem _ later.1, later.2⟩
    next target resolved =>
      split at mem
      next =>
        exact (ih done i mem).imp_right fun later => ⟨mem_cons_of_mem _ later.1, later.2⟩
      next =>
        rcases ih _ i mem with before | later
        · rcases mem_append.mp before with before | new
          · exact .inl before
          · obtain rfl := mem_singleton.mp new
            exact .inr ⟨mem_cons_self, resolved⟩
        · exact .inr ⟨mem_cons_of_mem _ later.1, later.2⟩

theorem subset_resolveIncludes (done : List ResolvedInclude) (nodes : List Source.Inclusion) :
    done ⊆ (resolveIncludes importer done nodes).1 := by
  induction nodes generalizing done with
  | nil => exact List.Subset.refl _
  | cons node nodes ih =>
    rw [resolveIncludes]
    split
    next => exact ih done
    next target _ =>
      split
      next => exact ih done
      next => exact List.Subset.trans (subset_append_left _ _) (ih _)

variable {target path : String} {entries paths queue : List String} {problems : List Diagnostic}

/-- A second include of one target is left out, but the target is there. -/
theorem target_resolveIncludes {nodes : List Source.Inclusion} {node : Source.Inclusion}
    (done : List ResolvedInclude) (mem : node ∈ nodes)
    (resolved : importer.resolve node.path.value = .ok target) :
    ∃ i ∈ (resolveIncludes importer done nodes).1, i.target = target := by
  induction nodes generalizing done with
  | nil => cases mem
  | cons first nodes ih =>
    rw [resolveIncludes]
    rcases mem_cons.mp mem with rfl | later
    · rw [resolved]
      dsimp only
      split
      next same found =>
        have isTarget : same.target = target := by simpa using find?_some found
        exact ⟨same, subset_resolveIncludes done nodes (mem_of_find?_eq_some found), isTarget⟩
      next => exact ⟨_, subset_resolveIncludes _ nodes (mem_append_right _ mem_cons_self), rfl⟩
    · split
      next => exact ih done later
      next =>
        split
        next => exact ih done later
        next => exact ih _ later

/-- The includes of a loaded file come from its source. -/
theorem node_of_includes {i : ResolvedInclude} (mem : i ∈ (loadFile importer path).1.includes) :
    ∃ source schema, importer.read path = .ok source ∧ Schema.parse path source = .ok schema ∧
      (loadFile importer path).1.schema = some schema ∧ i.node ∈ schema.inclusions ∧
      importer.resolve i.node.path.value = .ok i.target := by
  unfold loadFile at mem ⊢
  split at mem
  next => cases mem
  next source read =>
    dsimp only at mem ⊢
    split at mem
    next => cases mem
    next schema parsed =>
      rcases mem_resolveIncludes [] schema.inclusions i mem with none | ⟨inside, resolved⟩
      · cases none
      · exact ⟨source, schema, read, parsed, rfl, inside, resolved⟩

/-- The includes of a loaded file are those that it has. -/
theorem mem_includes :
    target ∈ (loadFile importer path).1.includes.map (·.target) ↔
      importer.Includes path target := by
  constructor
  · intro mem
    obtain ⟨i, inside, rfl⟩ := mem_map.mp mem
    obtain ⟨source, schema, read, parsed, -, node, resolved⟩ := node_of_includes inside
    exact ⟨source, schema, read, parsed, i.node, node, resolved⟩
  · rintro ⟨source, schema, read, parsed, node, inside, resolved⟩
    obtain ⟨i, mem, same⟩ := target_resolveIncludes [] inside resolved
    refine mem_map.mpr ⟨i, ?_, same⟩
    rw [loadFile, read]
    dsimp only
    rw [parsed]
    exact mem

theorem path_loadFile (path : String) : (loadFile importer path).1.path = path := by
  unfold loadFile
  split
  next => rfl
  next =>
    dsimp only
    split
    next => rfl
    next => rfl

theorem mem_resolveEntries :
    path ∈ (resolveEntries importer entries).1 ↔
      ∃ entry ∈ entries, importer.resolve (Octets.ofString entry) = .ok path := by
  induction entries with
  | nil => simp [resolveEntries]
  | cons entry entries ih =>
    rw [resolveEntries]
    dsimp only
    cases resolved : importer.resolve (Octets.ofString entry) with
    | ok first => simp [ih, resolved, eq_comm]
    | error cause => simp [ih, resolved]

/-! ## All files -/

/-- What comes of loading these paths one after the other. -/
def ofPaths (importer : Importer) (problems : List Diagnostic) (paths : List String) : Loading where
  files := paths.map fun path => (loadFile importer path).1
  diagnostics := problems ++ paths.flatMap fun path => (loadFile importer path).2.1
  log := paths.flatMap fun path => (loadFile importer path).2.2

theorem paths_ofPaths (problems : List Diagnostic) (paths : List String) :
    (ofPaths importer problems paths).files.map (·.path) = paths := by
  simp [ofPaths, Function.comp_def, path_loadFile]

theorem ofPaths_concat :
    ofPaths importer problems (paths ++ [path]) =
      ⟨(ofPaths importer problems paths).files ++ [(loadFile importer path).1],
        (ofPaths importer problems paths).diagnostics ++ (loadFile importer path).2.1,
        (ofPaths importer problems paths).log ++ (loadFile importer path).2.2⟩ := by
  simp [ofPaths]

theorem isLoaded_ofPaths :
    (ofPaths importer problems paths).isLoaded path = decide (path ∈ paths) := by
  rw [Bool.eq_iff_iff]
  simp [isLoaded, ofPaths, path_loadFile]

/-- Paths that are loaded, and others that wait: all of them were reached, and what can be reached
from the loaded ones in one step is loaded or waits. -/
structure Frontier (importer : Importer) (entries paths queue : List String) : Prop where
  distinct : paths.Nodup
  reached : ∀ path ∈ paths ++ queue, importer.Reached entries path
  entry : ∀ entry ∈ entries, ∀ path, importer.resolve (Octets.ofString entry) = .ok path →
    path ∈ paths ++ queue
  closed : ∀ path ∈ paths, ∀ target, importer.Includes path target → target ∈ paths ++ queue

namespace Frontier

variable {entries paths queue rest : List String} {path : String}

theorem start (importer : Importer) (entries : List String) :
    Frontier importer entries [] (resolveEntries importer entries).1 where
  distinct := nodup_nil
  reached path mem := by
    obtain ⟨entry, inside, resolved⟩ := mem_resolveEntries.mp mem
    exact .entry inside resolved
  entry entry mem path resolved := mem_resolveEntries.mpr ⟨entry, mem, resolved⟩
  closed := nofun

/-- Of what waits, everything before the next path is loaded already. -/
theorem mem_of_waiting (waiting : queue.dropWhile (· ∈ paths) = rest) {p : String}
    (mem : p ∈ paths ++ queue) : p ∈ paths ++ rest := by
  rcases mem_append.mp mem with loaded | queued
  · exact mem_append_left _ loaded
  · rw [← takeWhile_append_dropWhile (p := (· ∈ paths)) (l := queue), waiting] at queued
    rcases mem_append.mp queued with skipped | later
    · exact mem_append_left _ (by simpa using mem_takeWhile_imp skipped)
    · exact mem_append_right _ later

section

variable (frontier : Frontier importer entries paths queue)

include frontier

theorem step (waiting : queue.dropWhile (· ∈ paths) = path :: rest) :
    Frontier importer entries (paths ++ [path])
      (rest ++ ((loadFile importer path).1.includes.map (·.target)).filter
        (· ∉ paths ++ [path])) where
  distinct := by
    have fresh := head_dropWhile_not (· ∈ paths) (waiting ▸ cons_ne_nil path rest)
    simp only [waiting, head_cons, decide_eq_false_iff_not] at fresh
    rw [← concat_eq_append]
    exact frontier.distinct.concat fresh
  reached p mem := by
    have inQueue : ∀ p ∈ path :: rest, p ∈ queue := fun p mem =>
      (dropWhile_sublist _).subset (waiting ▸ mem)
    simp only [mem_append, mem_singleton, mem_filter, mem_includes] at mem
    rcases mem with (loaded | rfl) | later | ⟨includes, -⟩
    · exact frontier.reached p (mem_append_left _ loaded)
    · exact frontier.reached p (mem_append_right _ (inQueue p mem_cons_self))
    · exact frontier.reached p (mem_append_right _ (inQueue p (mem_cons_of_mem _ later)))
    · exact .inclusion (frontier.reached path (mem_append_right _
        (inQueue path mem_cons_self))) includes
  entry entry mem p resolved := by
    have known := mem_of_waiting waiting (frontier.entry entry mem p resolved)
    simp only [mem_append, mem_cons, not_mem_nil] at known ⊢
    tauto
  closed p mem target includes := by
    rcases mem_append.mp mem with loaded | new
    · have known := mem_of_waiting waiting (frontier.closed p loaded target includes)
      simp only [mem_append, mem_cons, not_mem_nil] at known ⊢
      tauto
    · obtain rfl := mem_singleton.mp new
      by_cases known : target ∈ paths ++ [p]
      · exact mem_append_left _ known
      · refine mem_append_right _ (mem_append_right _ (mem_filter.mpr ⟨?_, ?_⟩))
        · exact mem_includes.mpr includes
        · simpa using known

/-- If nothing waits any more, everything has been loaded. -/
theorem complete
    (waiting : queue.dropWhile (· ∈ paths) = []) (reached : importer.Reached entries path) :
    path ∈ paths := by
  induction reached with
  | entry mem resolved => simpa using mem_of_waiting waiting (frontier.entry _ mem _ resolved)
  | inclusion _ includes ih =>
    simpa using mem_of_waiting waiting (frontier.closed _ ih _ includes)

/-- The files that were loaded are not more than the importer has. -/
theorem length_le (covers : importer.Covers entries) : paths.length ≤ importer.fileCount := by
  obtain ⟨known, short, all⟩ := covers
  refine Nat.le_trans (List.Subperm.length_le (subperm_of_subset frontier.distinct ?_)) short
  exact fun path mem => all path (frontier.reached path (mem_append_left _ mem))

end

end Frontier

theorem drain_step {fuel : Nat} {rest : List String}
    (waiting : queue.dropWhile (· ∈ paths) = path :: rest) :
    drain importer (fuel + 1) queue (ofPaths importer problems paths) =
      drain importer fuel (rest ++ ((loadFile importer path).1.includes.map (·.target)).filter
        (· ∉ paths ++ [path])) (ofPaths importer problems (paths ++ [path])) := by
  have isLoaded : ∀ paths, (ofPaths importer problems paths).isLoaded = (· ∈ paths) :=
    fun paths => funext fun path => isLoaded_ofPaths
  rw [drain, isLoaded, waiting]
  dsimp only
  rw [← ofPaths_concat, isLoaded]
  simp only [decide_not]

/-- Draining the queue loads different paths that were reached.  With one unit of fuel more than
there are files, it loads all of them. -/
theorem drain_ofPaths (problems : List Diagnostic) (fuel : Nat)
    (frontier : Frontier importer entries paths queue) :
    ∃ loaded, drain importer fuel queue (ofPaths importer problems paths) =
        ofPaths importer problems loaded ∧ loaded.Nodup ∧
      (∀ path ∈ loaded, importer.Reached entries path) ∧
      (importer.Covers entries → importer.fileCount < fuel + paths.length →
        ∀ path, importer.Reached entries path → path ∈ loaded) := by
  have reached : ∀ path ∈ paths, importer.Reached entries path := fun path mem =>
    frontier.reached path (mem_append_left _ mem)
  induction fuel generalizing paths queue with
  | zero =>
    refine ⟨paths, by rw [drain], frontier.distinct, reached, fun covers enough => ?_⟩
    have short := frontier.length_le covers
    omega
  | succ fuel ih =>
    cases waiting : queue.dropWhile (· ∈ paths) with
    | nil =>
      refine ⟨paths, ?_, frontier.distinct, reached, fun _ _ path => frontier.complete waiting⟩
      rw [drain, show (ofPaths importer problems paths).isLoaded = (· ∈ paths) from
        funext fun path => isLoaded_ofPaths, waiting]
    | cons path rest =>
      have next := frontier.step waiting
      obtain ⟨loaded, same, distinct, all, complete⟩ := ih next fun path mem =>
        next.reached path (mem_append_left _ mem)
      refine ⟨loaded, ?_, distinct, all, fun covers enough => complete covers ?_⟩
      · rw [drain_step waiting, same]
      · rw [length_append, length_singleton]
        omega

end Loading

open Loading

/-- Loading entries loads different paths that were reached, and if the importer covers the entries,
all of them. -/
theorem load_eq_ofPaths (importer : Importer) (entries : List String) :
    ∃ paths, load importer entries =
        ofPaths importer (resolveEntries importer entries).2 paths ∧ paths.Nodup ∧
      (∀ path ∈ paths, importer.Reached entries path) ∧
      (importer.Covers entries → ∀ path, importer.Reached entries path → path ∈ paths) := by
  obtain ⟨paths, same, distinct, reached, complete⟩ := drain_ofPaths
    (resolveEntries importer entries).2 (importer.fileCount + 1) (Frontier.start importer entries)
  have nothing : ofPaths importer (resolveEntries importer entries).2 [] =
      { diagnostics := (resolveEntries importer entries).2 } := by
    simp [ofPaths]
  rw [nothing] at same
  exact ⟨paths, same, distinct, reached, fun covers => complete covers (Nat.lt_succ_self _)⟩

section

variable {importer : Importer} {entries : List String}

/-- A loaded file is what its path gives. -/
theorem eq_of_mem_load {file : LoadedFile} (mem : file ∈ (load importer entries).files) :
    file = (loadFile importer file.path).1 ∧ importer.Reached entries file.path := by
  obtain ⟨paths, same, -, reached, -⟩ := load_eq_ofPaths importer entries
  rw [same] at mem
  obtain ⟨path, inside, rfl⟩ := mem_map.mp mem
  rw [path_loadFile]
  exact ⟨rfl, reached path inside⟩

/-- Exactly the files that can be reached are loaded. -/
theorem mem_load_iff (covers : importer.Covers entries) {path : String} :
    path ∈ (load importer entries).files.map (·.path) ↔ importer.Reached entries path := by
  obtain ⟨paths, same, -, reached, complete⟩ := load_eq_ofPaths importer entries
  rw [same, paths_ofPaths]
  exact ⟨reached path, complete covers path⟩

end

end BitSchema
