import BitSchema.Proofs.Outcome
import BitSchema.Proofs.TreeGrowth
import BitSchema.Proofs.WatchedBatches

/-!
# Hidden directories

A watcher leaves out the hidden directories that it comes to below a directory, but it takes any
directory that is created in one it watches.  So on the way from the root to a watched directory the
hidden ones are those that were created in the course of the run.  Of a new directory all files are
reported, so on the way to those there are also the hidden directories inside a new one.
-/

namespace BitSchema

open List BitSchema.Path

namespace Path

/-- The clean path of what lies below another by these names. -/
def under (path : String) (names : List String) : String :=
  ofElements (isAbsolute path) (cleanElements path ++ names)

section

variable {path name : String} {names more : List String}

theorem under_nil (path : String) : under path [] = clean path := by
  rw [under, append_nil, clean]

theorem under_clean : under (clean path) names = under path names := by
  rw [under, under, isAbsolute_clean, cleanElements_clean]

theorem under_under (areNames : ∀ name ∈ names, IsName name) :
    under (under path names) more = under path (names ++ more) := by
  have tidy := (tidy_cleanElements path).append areNames
  rw [under, under, tidy.isAbsolute_eq, tidy.cleanElements_eq, append_assoc, under]

theorem under_ne_empty (areNames : ∀ name ∈ names, IsName name) : under path names ≠ "" :=
  ((tidy_cleanElements path).append areNames).ofElements_ne_empty

theorem join_name (given : path ≠ "") (isName : IsName name) :
    join [path, name] = under path [name] := by
  have single : elements name = [name] := by
    simpa using @elements_intercalate [name] (by simpa using isName) (by simp)
  rw [join_names given (by simpa [single] using isName), single, under]

end

end Path

namespace FileTree

/-- All names in the tree are proper names. -/
def IsNamed (t : FileTree) : Prop := ∀ entry ∈ t.nodes, ∀ name ∈ entry.1, IsName name

section

variable {t : FileTree} {skip : String → Bool} {fuel : Nat} {place : Place} {path : String}
  {entry : Entry}

theorem IsNamed.of_mem_names (named : t.IsNamed) {name : String} (mem : name ∈ t.names place) :
    IsName name := by
  obtain ⟨entry, among, found⟩ := mem_filterMap.mp (mem_mergeSort.mp mem)
  dsimp only at found
  split at found
  · exact named entry among name (mem_of_getLast? found)
  · cases found

theorem isDirectoryAt_of_mem_entriesAt (mem : entry ∈ t.entriesAt skip fuel place path)
    (isDir : entry.node.isDirectory = true) : t.isDirectoryAt place = true := by
  cases fuel with
  | zero => cases mem
  | succ fuel =>
    rw [entriesAt] at mem
    rw [isDirectoryAt]
    split at mem
    · cases mem
    next found => simp [found, FileNode.isDirectory]
    next found =>
      obtain rfl := mem_singleton.mp mem
      rwa [found, Option.any_some]

/-- What is found at a path and below it, and directories only by names that are not skipped. -/
theorem IsNamed.of_mem_entriesAt (named : t.IsNamed) (given : path ≠ "")
    (mem : entry ∈ t.entriesAt skip fuel place path) :
    ∃ names, (∀ name ∈ names, IsName name) ∧ clean entry.path = under path names ∧
      (entry.node.isDirectory = true → ∀ name ∈ names, skip name = false) := by
  induction fuel generalizing place path with
  | zero => cases mem
  | succ fuel ih =>
    have here : entry.path = path → ∃ names, (∀ name ∈ names, IsName name) ∧
        clean entry.path = under path names ∧
        (entry.node.isDirectory = true → ∀ name ∈ names, skip name = false) :=
      fun same => ⟨[], by simp, by rw [same, under_nil], by simp⟩
    rw [entriesAt] at mem
    split at mem
    · cases mem
    · rcases mem_cons.mp mem with rfl | mem
      · exact here rfl
      · obtain ⟨name, among, mem⟩ := mem_flatMap.mp mem
        have isName := named.of_mem_names among
        have single : ∀ other ∈ [name], IsName other := by simpa using isName
        simp only [join_name given isName] at mem
        split at mem
        · cases mem
        next kept =>
          obtain ⟨names, areNames, same, taken⟩ := ih (under_ne_empty single) mem
          refine ⟨name :: names, forall_mem_cons.mpr ⟨isName, areNames⟩, ?_, fun isDir =>
            forall_mem_cons.mpr ⟨?_, taken isDir⟩⟩
          · rw [same, under_under single, singleton_append]
          · simpa [isDirectoryAt_of_mem_entriesAt mem isDir] using kept
    · exact here (by rw [mem_singleton.mp mem])

theorem IsNamed.of_entries (named : t.IsNamed) {found : List Entry}
    (ok : t.entries skip path = .ok found) (mem : entry ∈ found) :
    ∃ names, (∀ name ∈ names, IsName name) ∧ clean entry.path = under path names ∧
      (entry.node.isDirectory = true → ∀ name ∈ names, skip name = false) := by
  have given : path ≠ "" := by
    rintro rfl
    cases ok
  obtain ⟨there, -, listed⟩ := bind_ok_iff.mp ok
  cases listed
  exact named.of_mem_entriesAt given mem

end

end FileTree

namespace Watcher

/-! ## One step -/

section

variable {w : Watcher} {tree : FileTree} {dir : WatchedDirectory} {root path : String}

theorem mem_watched_addEach {paths : List String}
    (mem : dir ∈ (w.addEach tree paths).watcher.watched) :
    dir ∈ w.watched ∨ ∃ path ∈ paths, dir.2 = clean path := by
  induction paths generalizing w with
  | nil => exact .inl mem
  | cons path paths ih =>
    rw [addEach, watchPath] at mem
    cases found : tree.look true (clean path) with
    | error reason =>
      rw [found] at mem
      exact .inl mem
    | ok there =>
      rw [found] at mem
      rcases ih mem with old | ⟨other, among, same⟩
      · rw [watch] at old
        split at old
        · exact .inl old
        · rcases mem_append.mp old with kept | new
          · exact .inl (mem_of_mem_filter kept)
          · exact .inr ⟨path, mem_cons_self, by rw [mem_singleton.mp new]⟩
      · exact .inr ⟨other, mem_cons_of_mem _ among, same⟩

/-- The directories that a watcher takes below another. -/
theorem mem_watched_add (named : tree.IsNamed) (mem : dir ∈ (w.add tree root).watcher.watched) :
    dir ∈ w.watched ∨ ∃ names, (∀ name ∈ names, IsName name) ∧ dir.2 = under root names ∧
      ∀ name ∈ names, FileTree.isHidden name = false := by
  unfold add at mem
  cases listed : directories tree root with
  | error cause =>
    rw [listed] at mem
    exact .inl mem
  | ok paths =>
    rw [listed] at mem
    refine (mem_watched_addEach mem).imp_right ?_
    rintro ⟨path, among, same⟩
    obtain ⟨found, ok, rest⟩ := bind_ok_iff.mp listed
    cases rest
    obtain ⟨entry, chosen, rfl⟩ := mem_map.mp among
    obtain ⟨inside, isDir⟩ := mem_filter.mp chosen
    obtain ⟨names, areNames, cleaned, kept⟩ := named.of_entries ok inside
    exact ⟨names, areNames, same.trans cleaned, kept isDir⟩

theorem watched_enqueue (w : Watcher) (path : String) : (w.enqueue path).1.watched = w.watched := by
  unfold enqueue
  split
  · rfl
  · split <;> rfl

theorem watched_enqueueAll (w : Watcher) (paths : List String) :
    (w.enqueueAll paths).1.watched = w.watched := by
  induction paths generalizing w with
  | nil => rfl
  | cons path paths ih => exact (ih _).trans (watched_enqueue w path)

/-- The step tells of a directory that was created. -/
def Step.Creates (s : Step) (path : String) : Prop :=
  ∃ tree e, s = .event tree e ∧ e.has .create = true ∧ isDirectory tree e.path = true ∧
    clean e.path = path

/-- Only the creation of a directory gives a watcher more to watch. -/
theorem watched_event (w : Watcher) (tree : FileTree) (e : WatchEvent) :
    (w.step (.event tree e)).1.watched = w.watched ∨
      (Step.event tree e).Creates (clean e.path) ∧
        (w.step (.event tree e)).1.watched = (w.add tree e.path).watcher.watched := by
  change (w.take tree e).1.watched = _ ∨ _ ∧ (w.take tree e).1.watched = _
  unfold take
  split
  next created =>
    obtain ⟨create, isDir⟩ := Bool.and_eq_true_iff.mp created
    refine .inr ⟨⟨tree, e, rfl, create, isDir, rfl⟩, ?_⟩
    dsimp only [enter]
    cases (w.add tree e.path).error? with
    | some cause => rfl
    | none => exact watched_enqueueAll _ _
  · split
    · exact .inl rfl
    · exact .inl (watched_enqueue w e.path)

/-- What an event makes known is what it is about, or lies in the directory that it is about. -/
theorem mem_offers (named : tree.IsNamed) {e : WatchEvent}
    (mem : path ∈ (Step.event tree e).offers) :
    path = e.path ∨ (Step.event tree e).Creates (clean e.path) ∧
      ∃ names, (∀ name ∈ names, IsName name) ∧ clean path = under e.path names := by
  rw [Step.offers] at mem
  split at mem
  next created =>
    obtain ⟨create, isDir⟩ := Bool.and_eq_true_iff.mp created
    refine .inr ⟨⟨tree, e, rfl, create, isDir, rfl⟩, ?_⟩
    split at mem
    · cases mem
    · unfold filesBelow at mem
      split at mem
      next ok =>
        obtain ⟨entry, among, rfl⟩ := mem_map.mp mem
        obtain ⟨names, areNames, cleaned, -⟩ := named.of_entries ok (mem_of_mem_filter among)
        exact ⟨names, areNames, cleaned⟩
      · cases mem
  · split at mem
    · exact .inl (mem_singleton.mp mem)
    · cases mem

end

/-! ## Runs -/

/-- An event is about a watched directory or something in one. -/
def Arises (w : Watcher) : Step → Prop
  | .event tree e => tree.IsNamed ∧ ∃ dir ∈ w.watched,
      e.path = dir.2 ∨ ∃ name, IsName name ∧ e.path = dir.2 ++ "/" ++ name
  | _ => True

/-- A directory was created at the path before a step. -/
def CreatedBefore (steps : List Step) (n : Nat) (path : String) : Prop :=
  ∃ m < n, ∃ s, steps[m]? = some s ∧ s.Creates path

/-- Something holds of all ways that lead to a hidden name on this one. -/
def EachHidden (names : List String) (P : List String → Prop) : Prop :=
  ∀ before name, before ++ [name] <+: names → FileTree.isHidden name = true → P (before ++ [name])

section

variable {w : Watcher} {root : String} {steps : List Step} {n k : Nat} {names more : List String}
  {P Q : List String → Prop}

theorem EachHidden.imp (each : EachHidden names P) (start : more <+: names)
    (imp : ∀ way, P way → Q way) : EachHidden more Q :=
  fun before name way hidden => imp _ (each before name (way.trans start) hidden)

theorem EachHidden.of_visible (visible : ∀ name ∈ names, FileTree.isHidden name = false) :
    EachHidden names P := by
  intro before name way hidden
  rw [visible name (way.subset (by simp))] at hidden
  cases hidden

/-- The hidden names on a way that goes on are before the turn, at it or after it. -/
theorem EachHidden.append (first : EachHidden names.dropLast P) (turn : P names)
    (second : ∀ before name, names <+: before ++ [name] → name ∈ more →
      FileTree.isHidden name = true → P (before ++ [name])) : EachHidden (names ++ more) P := by
  intro before name way hidden
  rcases prefix_or_prefix_of_prefix way (prefix_append names more) with
    ⟨rest, split⟩ | ⟨rest, split⟩
  · rcases eq_nil_or_concat rest with rfl | ⟨front, last, rfl⟩
    · rwa [← split, append_nil] at turn
    · refine first before name ⟨front, ?_⟩ hidden
      rw [← split, concat_eq_append, ← append_assoc, dropLast_concat]
  · rcases eq_nil_or_concat rest with rfl | ⟨front, last, rfl⟩
    · rwa [← split, append_nil]
    · refine second before name ⟨_, split⟩ ?_ hidden
      rw [← split, prefix_append_right_inj] at way
      rw [concat_eq_append, ← append_assoc] at split
      have same : last = name := singleton_inj.mp (append_inj_right' split rfl)
      exact way.subset (by simp [same])

theorem CreatedBefore.mono {path : String} (le : n ≤ k) (created : CreatedBefore steps n path) :
    CreatedBefore steps k path := by
  obtain ⟨m, before, rest⟩ := created
  exact ⟨m, before.trans_le le, rest⟩

/-- The ways to the directories that are watched before a step. -/
def Reaches (w : Watcher) (root : String) (steps : List Step) (n : Nat) : Prop :=
  ∀ dir ∈ w.watched, ∃ names, (∀ name ∈ names, IsName name) ∧
    dir.2 = under root names ∧
    EachHidden names fun way => CreatedBefore steps n (under root way)

theorem Reaches.mono (reaches : w.Reaches root steps n) (le : n ≤ k) : w.Reaches root steps k := by
  intro dir mem
  obtain ⟨names, areNames, same, each⟩ := reaches dir mem
  exact ⟨names, areNames, same, each.imp prefix_rfl fun _ => .mono le⟩

/-- The way to what an event is about. -/
theorem Reaches.event (reaches : w.Reaches root steps n) {tree : FileTree} {e : WatchEvent}
    (arises : w.Arises (.event tree e)) :
    ∃ names, (∀ name ∈ names, IsName name) ∧ clean e.path = under root names ∧
      EachHidden names.dropLast fun way => CreatedBefore steps n (under root way) := by
  obtain ⟨-, dir, watched, about⟩ := arises
  obtain ⟨names, areNames, same, each⟩ := reaches dir watched
  rcases about with self | ⟨name, isName, inside⟩
  · refine ⟨names, areNames, ?_, each.imp ( dropLast_prefix names) fun _ => id⟩
    rw [self, same, ← under_nil, under_under areNames, append_nil]
  · refine ⟨names ++ [name], forall_mem_append.mpr ⟨areNames, by simpa using isName⟩, ?_, ?_⟩
    · have given : dir.2 ≠ "" := same ▸ under_ne_empty areNames
      rw [inside, ← join_eq_clean given isName.ne_empty, join_name given isName, same,
        under_under areNames]
    · rwa [dropLast_concat]

theorem Step.Creates.createdBefore {s : Step} {path : String} (creates : s.Creates path)
    (here : steps[n]? = some s) : CreatedBefore steps (n + 1) path :=
  ⟨n, n.lt_succ_self, s, here, creates⟩

/-- A new directory is taken with the directories below it that are not hidden. -/
theorem Reaches.step (reaches : w.Reaches root steps n) {s : Step} (here : steps[n]? = some s)
    (arises : w.Arises s) : (w.step s).1.Reaches root steps (n + 1) := by
  have keeps := reaches.mono n.le_succ
  cases s with
  | timer =>
    change w.fire.1.Reaches root steps (n + 1)
    unfold fire
    split <;> exact keeps
  | error text => exact keeps
  | event tree e =>
    intro dir mem
    rcases watched_event w tree e with same | ⟨creates, added⟩
    · exact keeps dir (same ▸ mem)
    · rcases mem_watched_add arises.1 (added ▸ mem) with old | ⟨more, moreNames, below, visible⟩
      · exact keeps dir old
      · obtain ⟨names, areNames, about, each⟩ := reaches.event arises
        refine ⟨names ++ more, forall_mem_append.mpr ⟨areNames, moreNames⟩, ?_, ?_⟩
        · rw [below, ← under_clean, about, under_under areNames]
        · refine (each.imp prefix_rfl fun _ => .mono n.le_succ).append
            (about ▸ creates.createdBefore here) fun before name _ mem hidden => ?_
          rw [visible name mem] at hidden
          cases hidden

theorem Reaches.run (start : w.Reaches root steps 0)
    (arises : ∀ n s, steps[n]? = some s → (w.run (steps.take n)).1.Arises s) (n : Nat) :
    (w.run (steps.take n)).1.Reaches root steps n := by
  induction n with
  | zero => exact start
  | succ n ih =>
    cases here : steps[n]? with
    | none =>
      have ended := List.getElem?_eq_none_iff.mp here
      rw [take_of_length_le (by omega)]
      rw [take_of_length_le ended] at ih
      exact ih.mono n.le_succ
    | some s =>
      rw [run_take_succ w steps here]
      exact ih.step here (arises n s here)

/-- The way to what a step makes known.  Of a new directory all files are, so that here the hidden
directories inside a new one come in. -/
theorem Reaches.offers (reaches : w.Reaches root steps n) {s : Step} (here : steps[n]? = some s)
    (arises : w.Arises s) {path : String} (mem : path ∈ s.offers) :
    ∃ names, (∀ name ∈ names, IsName name) ∧ clean path = under root names ∧
      EachHidden names.dropLast fun way =>
        ∃ above, above <+: way ∧ CreatedBefore steps (n + 1) (under root above) := by
  cases s with
  | timer | error text => cases mem
  | event tree e =>
    obtain ⟨names, areNames, about, each⟩ := reaches.event arises
    have early := each.imp prefix_rfl fun way created =>
      (⟨way, prefix_rfl, created.mono n.le_succ⟩ :
        ∃ above, above <+: way ∧ CreatedBefore steps (n + 1) (under root above))
    rcases mem_offers arises.1 mem with rfl | ⟨creates, more, moreNames, below⟩
    · exact ⟨names, areNames, about, early⟩
    · have created := about ▸ creates.createdBefore here
      refine ⟨names ++ more, forall_mem_append.mpr ⟨areNames, moreNames⟩, ?_, ?_⟩
      · rw [below, ← under_clean, about, under_under areNames]
      · exact (early.append ⟨names, prefix_rfl, created⟩ fun _ _ around _ _ =>
          ⟨names, around, created⟩).imp ( dropLast_prefix _) fun _ => id

end

/-- Below the directory that it was told of, a watcher watches no hidden directory and nothing in
one, other than hidden directories that were created in the course of the run.  It reports nothing
in a hidden directory, unless that or one around it was created in the course of the run. -/
theorem run_hidden (accepts : String → Bool) (tree : FileTree) (root : String) (steps : List Step)
    (named : tree.IsNamed)
    (arises : ∀ n s, steps[n]? = some s →
      ((add { accepts } tree root).watcher.run (steps.take n)).1.Arises s) :
    let w := (add { accepts } tree root).watcher
    (∀ n, ∀ dir ∈ (w.run (steps.take n)).1.watched,
      ∃ names, (∀ name ∈ names, IsName name) ∧ dir.2 = under root names ∧
        EachHidden names fun way => CreatedBefore steps n (under root way)) ∧
    ∀ n b, w.batchAt? steps n = some b → ∀ path ∈ b,
      ∃ names, (∀ name ∈ names, IsName name) ∧ clean path = under root names ∧
        EachHidden names.dropLast fun way =>
          ∃ above, above <+: way ∧ CreatedBefore steps n (under root above) := by
  intro w
  have start : w.Reaches root steps 0 := by
    intro dir mem
    rcases mem_watched_add named mem with old | ⟨names, areNames, below, visible⟩
    · cases old
    · exact ⟨names, areNames, below, .of_visible visible⟩
  have reaches := start.run arises
  refine ⟨reaches, fun n b given path mem => ?_⟩
  obtain ⟨queues, -⟩ := add_spec { accepts } {} tree root
  have empty : w.pending = [] := eq_nil_iff_forall_not_mem.mpr fun p => by
    rw [queues.pending]
    simp
  have ready : w.Ready := ⟨queues.nodup nodup_nil, fun waiting => absurd empty waiting⟩
  obtain ⟨-, -, rfl⟩ := (batchAt?_eq_some_iff ready empty).mp given
  obtain ⟨m, before, queued, -⟩ := ((run_spec steps ready empty n).2.2 path).mp (mem_batch.mp mem)
  rw [queuedAt] at queued
  cases here : steps[m]? with
  | none => simp [here] at queued
  | some s =>
    rw [here] at queued
    obtain ⟨names, areNames, same, each⟩ :=
      (reaches m).offers here (arises m s here) (mem_of_mem_filter queued)
    refine ⟨names, areNames, same, each.imp prefix_rfl ?_⟩
    rintro way ⟨above, around, created⟩
    exact ⟨above, around, created.mono before⟩

section

open FileTree

/-- A hidden directory, and a new one with a file in it. -/
def hiddenTree : FileTree where
  nodes := [([".old"], .directory), ([".new"], .directory), ([".new", "y"], .file .empty false)]

def hiddenSteps : List Step := [.event hiddenTree ⟨[.create], "./.new"⟩, .timer]

theorem add_start :
    (add {} { nodes := [([".old"], .directory)] } ".").watcher = { watched := [([], ".")] } := by
  have listed : directories { nodes := [([".old"], .directory)] } "." = .ok ["."] := by
    rw [directories, entries, linkStat, look, place?_of_text ["."] (by decide)]
    cbv
  have seen : look { nodes := [([".old"], .directory)] } true "." = .ok ([], .directory) := by
    rw [look, place?_of_text ["."] (by decide)]
    cbv
  have cleaned : clean "." = "." := by decide
  simp only [add, listed, addEach, watchPath, cleaned, seen]
  rfl

theorem step_new :
    step { watched := [([], ".")] } (.event hiddenTree ⟨[.create], "./.new"⟩) =
      ({ watched := [([], "."), ([".new"], ".new")], pending := [".new/y"], armed := true },
        { log := [watchRecord "./.new"] }) := by
  have place : ∀ follow, hiddenTree.place? follow "./.new" = .ok [".new"] := by
    intro follow
    rw [place?_of_text [".", ".new"] (by decide)]
    cases follow <;> cbv
  have isDir : isDirectory hiddenTree "./.new" = true := by
    rw [isDirectory, stat, look, place]
    rfl
  have listed : directories hiddenTree "./.new" = .ok ["./.new"] := by
    rw [directories, entries, linkStat, look, place]
    cbv
  have files : filesBelow hiddenTree "./.new" = [".new/y"] := by
    rw [filesBelow, entries, linkStat, look, place]
    cbv
  have seen : hiddenTree.look true ".new" = .ok ([".new"], .directory) := by
    rw [look, place?_of_text [".new"] (by decide)]
    cbv
  have cleaned : clean "./.new" = ".new" := by decide
  simp only [step, handle, take, isDir, enter, add, listed, addEach, watchPath, cleaned, seen,
    files]
  rfl

theorem run_hidden_new :
    let w := (add {} { nodes := [([".old"], .directory)] } ".").watcher
    ∀ dir ∈ (w.run hiddenSteps).1.watched,
      ∃ names, (∀ name ∈ names, IsName name) ∧ dir.2 = under "." names ∧
        EachHidden names fun way => CreatedBefore hiddenSteps 2 (under "." way) := by
  have isName : IsName ".old" ∧ IsName ".new" ∧ IsName "y" := by
    refine ⟨?_, ?_, ?_⟩ <;> constructor <;> decide
  refine (run_hidden (fun _ => true) _ "." hiddenSteps (by simp [IsNamed, isName]) ?_).1 2
  intro n s here
  rw [add_start]
  rcases n with _ | _ | n <;> cases here
  · exact ⟨by simp [IsNamed, hiddenTree, isName], _, mem_cons_self, .inr ⟨_, isName.2.1, rfl⟩⟩
  · trivial

/-- A hidden directory is watched since it is new, and the file in it is reported. -/
theorem run_watches_hidden :
    let w := (add {} { nodes := [([".old"], .directory)] } ".").watcher
    (∃ dir ∈ (w.run hiddenSteps).1.watched, dir.2 = ".new") ∧ FileTree.isHidden ".new" = true ∧
      w.batchAt? hiddenSteps 1 = some [".new/y"] := by
  intro w
  have run : w.run hiddenSteps = ({ watched := [([], "."), ([".new"], ".new")] },
      [{ log := [watchRecord "./.new"] }, { batch? := some [".new/y"] }]) := by
    simp only [w, add_start, hiddenSteps, Watcher.run, step_new]
    simp [step, fire, batch]
  rw [batchAt?, run]
  exact ⟨by simp, by decide, rfl⟩

end

end Watcher

end BitSchema
