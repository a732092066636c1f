import BitSchema.Proofs.LoadedFiles

/-!
# The order of loading

Loading as a loop that takes one path at a time from a queue and notes every file that it asks the
importer for.  Nothing bounds the loop but the importer: if includes lead to finitely many files,
it comes to an end, has asked for exactly the files that can be reached, each once and the entries
first, and has loaded what `load` loads.
-/

namespace BitSchema

open List

/-- The files that include paths lead to. -/
def Importer.targets (importer : Importer) : Set String :=
  {path | ∃ written, importer.resolve written = .ok path}

namespace Loading

variable {importer : Importer} {entries : List String}

/-! ## The loop -/

/-- What is made of the answer to a request for a file. -/
def ofAnswer (importer : Importer) (path : String) (answer : Except ReadError ByteArray) :
    LoadedFile × List Diagnostic × List Log.Record :=
  loadFile { importer with read := fun _ => answer } path

theorem resolveIncludes_read (read : String → Except ReadError ByteArray)
    (done : List ResolvedInclude) (nodes : List Source.Inclusion) :
    resolveIncludes { importer with read } done nodes = resolveIncludes importer done nodes := by
  induction nodes generalizing done with
  | nil => rfl
  | cons node nodes ih => simp only [resolveIncludes, ih]

/-- To load a file is to ask for it once. -/
theorem ofAnswer_read (path : String) :
    ofAnswer importer path (importer.read path) = loadFile importer path := by
  simp only [ofAnswer, loadFile, resolveIncludes_read]

/-- Where the loop stands: the paths that wait, what was loaded, and the paths of the files that the
importer was asked for, in order. -/
structure Loop where
  queue : List String
  loading : Loading
  reads : List String := []

/-- The loop before its first turn. -/
def Loop.start (importer : Importer) (entries : List String) : Loop where
  queue := (resolveEntries importer entries).1
  loading := { diagnostics := (resolveEntries importer entries).2 }

/-- One turn; `none` if nothing waits. -/
def Loop.turn (importer : Importer) (s : Loop) : Option Loop :=
  match s.queue with
  | [] => none
  | path :: rest =>
    if s.loading.isLoaded path then some { s with queue := rest }
    else
      let (file, problems, log) := ofAnswer importer path (importer.read path)
      let loading : Loading := ⟨s.loading.files ++ [file], s.loading.diagnostics ++ problems,
        s.loading.log ++ log⟩
      let next := (file.includes.map (·.target)).filter (!loading.isLoaded ·)
      some ⟨rest ++ next, loading, s.reads ++ [path]⟩

/-- Any number of turns. -/
def Loop.Turns (importer : Importer) : Loop → Loop → Prop :=
  Relation.ReflTransGen fun s t => s.turn importer = some t

namespace Loop

variable {problems : List Diagnostic} {path : String} {paths queue rest : List String}

/-- The loop after it has loaded these paths, while others wait. -/
def after (importer : Importer) (problems : List Diagnostic) (paths queue : List String) : Loop :=
  ⟨queue, ofPaths importer problems paths, paths⟩

theorem start_eq (importer : Importer) (entries : List String) :
    start importer entries = after importer (resolveEntries importer entries).2 []
      (resolveEntries importer entries).1 := by
  simp [start, after, ofPaths]

theorem turn_skip (loaded : path ∈ paths) :
    (after importer problems paths (path :: rest)).turn importer =
      some (after importer problems paths rest) :=
  if_pos (by simpa [after, isLoaded_ofPaths] using loaded)

theorem turn_load (fresh : path ∉ paths) :
    (after importer problems paths (path :: rest)).turn importer =
      some (after importer problems (paths ++ [path]) (rest ++
        ((loadFile importer path).1.includes.map (·.target)).filter (· ∉ paths ++ [path]))) := by
  have isLoaded : (ofPaths importer problems paths).isLoaded path = false := by
    simpa [isLoaded_ofPaths] using fresh
  simp only [turn, after, isLoaded, ofAnswer_read, ← ofPaths_concat, isLoaded_ofPaths, decide_not]
  rfl

/-! ## Its end -/

theorem eraseDups_of_nodup {ps : List String} (distinct : ps.Nodup) : ps.eraseDups = ps := by
  induction ps with
  | nil => rfl
  | cons p ps ih =>
    obtain ⟨fresh, distinct⟩ := nodup_cons.mp distinct
    have others : ps.filter (fun q => !q == p) = ps :=
      filter_eq_self.mpr fun q mem => by simpa using ne_of_mem_of_not_mem mem fresh
    rw [eraseDups_cons, others, ih distinct]

/-- What waits a second time does not count. -/
theorem eraseDups_skip (loaded : path ∈ paths) :
    (paths ++ path :: rest).eraseDups = (paths ++ rest).eraseDups := by
  rw [eraseDups_append, eraseDups_append, List.removeAll, List.removeAll,
    filter_cons_of_neg (by simpa using loaded)]

theorem eraseDups_prefix (ps qs : List String) : ps.eraseDups <+: (ps ++ qs).eraseDups := by
  rw [eraseDups_append]
  exact prefix_append _ _

end Loop

/-- A path that was loaded since it began to wait is passed over. -/
theorem Frontier.skip {paths rest : List String} {path : String}
    (frontier : Frontier importer entries paths (path :: rest)) (loaded : path ∈ paths) :
    Frontier importer entries paths rest := by
  have known : ∀ p, p ∈ paths ++ path :: rest ↔ p ∈ paths ++ rest := by
    intro p
    simp only [mem_append, mem_cons]
    constructor
    · rintro (before | rfl | later)
      · exact .inl before
      · exact .inl loaded
      · exact .inr later
    · exact fun mem => mem.imp_right .inr
  obtain ⟨distinct, reached, entry, closed⟩ := frontier
  simp only [known] at reached entry closed
  exact ⟨distinct, reached, entry, closed⟩

theorem Frontier.length_le_ncard {paths queue : List String}
    (frontier : Frontier importer entries paths queue) (finite : importer.targets.Finite) :
    paths.length ≤ importer.targets.ncard := by
  rw [← toFinset_card_of_nodup frontier.distinct, ← Set.ncard_coe_finset]
  refine Set.ncard_le_ncard (fun path mem => ?_) finite
  have inside : path ∈ paths := by simpa using mem
  exact (frontier.reached path (mem_append_left _ inside)).resolved

namespace Loop

variable {paths queue : List String}

/-- The loop ends.  It has loaded what it had and what waited, in this order, before all else; and
draining the queue loads the same, given a unit of fuel for every file that is left. -/
theorem exists_last (problems : List Diagnostic) (finite : importer.targets.Finite)
    (frontier : Frontier importer entries paths queue) :
    ∃ loaded, Turns importer (after importer problems paths queue)
        (after importer problems loaded []) ∧
      Frontier importer entries loaded [] ∧ (paths ++ queue).eraseDups <+: loaded ∧
      ∀ fuel, importer.targets.ncard < fuel + paths.length →
        drain importer fuel queue (ofPaths importer problems paths) =
          ofPaths importer problems loaded := by
  -- A turn that loads a path leaves fewer files; any other turn leaves a shorter queue.
  induction left : importer.targets.ncard - paths.length using Nat.strong_induction_on
    generalizing paths queue with
  | _ left fewer =>
    have isLoaded : (ofPaths importer problems paths).isLoaded = (· ∈ paths) :=
      funext fun path => isLoaded_ofPaths
    induction queue with
    | nil =>
      refine ⟨paths, .refl, frontier, ?_, fun fuel _ => ?_⟩
      · rw [append_nil, eraseDups_of_nodup frontier.distinct]
      · cases fuel <;> rfl
    | cons path rest shorter =>
      by_cases loaded : path ∈ paths
      · obtain ⟨all, turns, last, first, same⟩ := shorter (frontier.skip loaded)
        refine ⟨all, .head (turn_skip loaded) turns, last, ?_, fun fuel enough => ?_⟩
        · rwa [eraseDups_skip loaded]
        · rw [← same fuel enough]
          cases fuel with
          | zero => rfl
          | succ fuel =>
            rw [drain, drain, isLoaded, dropWhile_cons_of_pos (by simpa using loaded)]
      · have waiting : (path :: rest).dropWhile (· ∈ paths) = path :: rest :=
          dropWhile_cons_of_neg (by simpa using loaded)
        have next := frontier.step waiting
        have more := next.length_le_ncard finite
        rw [length_append, length_singleton] at more
        obtain ⟨all, turns, last, first, same⟩ := fewer _
          (by rw [← left, length_append, length_singleton]; omega) next rfl
        refine ⟨all, .head (turn_load loaded) turns, last, .trans ?_ first,
          fun fuel enough => ?_⟩
        · rw [← append_assoc, append_assoc paths, singleton_append]
          exact eraseDups_prefix _ _
        · cases fuel with
          | zero => omega
          | succ fuel =>
            rw [drain_step waiting]
            apply same
            rw [length_append, length_singleton]
            omega

end Loop

theorem resolveEntries_paths (importer : Importer) (entries : List String) :
    (resolveEntries importer entries).1 =
      entries.filterMap fun entry => (importer.resolve (Octets.ofString entry)).toOption := by
  induction entries with
  | nil => rfl
  | cons entry entries ih =>
    rw [resolveEntries, filterMap_cons]
    cases importer.resolve (Octets.ofString entry) with
    | ok path | error cause => simp [ih, Except.toOption]

end Loading

open Loading

/-- Loading entries from an importer whose includes lead to finitely many files comes to an end.
Until then the importer was asked once for each file that can be reached and for no other; the files
are loaded in the order in which they were asked for, the different entries first.  `load` gives the
same, if the importer has no more files than it says. -/
theorem load_once {importer : Importer} (finite : importer.targets.Finite)
    (entries : List String) :
    ∃ last, Loop.Turns importer (.start importer entries) last ∧ last.turn importer = none ∧
      (last.reads.Nodup ∧ ∀ path, path ∈ last.reads ↔ importer.Reached entries path) ∧
      last.loading.files.map (·.path) = last.reads ∧
      (entries.filterMap fun entry =>
        (importer.resolve (Octets.ofString entry)).toOption).eraseDups <+: last.reads ∧
      (importer.targets.ncard ≤ importer.fileCount → load importer entries = last.loading) := by
  obtain ⟨paths, turns, ended, first, same⟩ := Loop.exists_last
    (resolveEntries importer entries).2 finite (Frontier.start importer entries)
  rw [← Loop.start_eq] at turns
  rw [nil_append, resolveEntries_paths] at first
  refine ⟨_, turns, rfl, ⟨ended.distinct, fun path => ⟨fun mem => ?_, fun reached => ?_⟩⟩,
    paths_ofPaths _ _, first, fun enough => ?_⟩
  · exact ended.reached path (mem_append_left _ mem)
  · exact ended.complete rfl reached
  · refine Eq.trans ?_ (same (importer.fileCount + 1) (Nat.lt_succ_of_le enough))
    simp [load, ofPaths]

/-- The last letter of a path tells its file, whatever stands before it.  `a` and `b` include each
other and `a` itself; nothing includes `c`. -/
def spelledImporter : Importer where
  fileCount := 3
  resolve path := .ok (if path.getLast? == some 97 then "a"
    else if path.getLast? == some 98 then "b" else "c")
  read path := .ok (if path == "a" then "include \"a\"; include \"./b\"; include \"b\";".toUTF8
    else "include \"./a\"; include \"a\";".toUTF8)

theorem load_once_spelled :
    spelledImporter.targets.Finite ∧
    ∃ last, Loop.Turns spelledImporter (.start spelledImporter ["b", "./b", "a"]) last ∧
      last.turn spelledImporter = none ∧ last.reads = ["b", "a"] ∧
      ¬ spelledImporter.Reached ["b", "./b", "a"] "c" := by
  have known : spelledImporter.targets ⊆ ↑({"a", "b", "c"} : Finset String) := by
    rintro path ⟨written, found⟩
    cases found
    split
    next => simp
    next => split <;> simp
  have few : spelledImporter.targets.ncard ≤ 3 :=
    (Set.ncard_le_ncard known (Finset.finite_toSet _)).trans_eq (Set.ncard_coe_finset _)
  have finite := (Finset.finite_toSet _).subset known
  obtain ⟨last, turns, ended, ⟨-, reached⟩, order, -, same⟩ := load_once finite ["b", "./b", "a"]
  have run : (load spelledImporter ["b", "./b", "a"]).files.map (·.path) = ["b", "a"] := by
    decide +kernel
  rw [same few, order] at run
  refine ⟨finite, last, turns, ended, run, fun outside => ?_⟩
  have mem := (reached "c").mpr outside
  rw [run] at mem
  exact absurd mem (by decide)

end BitSchema
