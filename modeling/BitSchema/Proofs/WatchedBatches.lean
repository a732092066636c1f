import Mathlib
import BitSchema.Watch.Watcher

/-!
# Watched batches

A watcher takes in events one by one, with expirations of its timer and errors between them in any
order.  What an event makes known depends on the event and the tree at that time only
(`Step.offers`), and the watcher lets those paths wait that are to be reported.

At every point of a run the paths that wait are those that were queued since the last batch, each
once, and while there are any, the timer runs.  So the next expiration gives out all of them and
nothing else.
-/

namespace BitSchema.Watcher

open List

/-! ## What steps queue -/

/-- The paths that a step makes known.  A new directory is entered first, and makes its files known
if all directories in it can be watched. -/
def Step.offers : Step → List String
  | .event tree e =>
    if e.has .create && isDirectory tree e.path then
      if (add {} tree e.path).error?.isSome then [] else filesBelow tree e.path
    else if e.isChange then [e.path]
    else []
  | _ => []

/-- The paths that a step lets wait. -/
def Step.queues (accepts : String → Bool) (s : Step) : List String := s.offers.filter accepts

/-- What comes of offering paths to a watcher. -/
structure Queues (w w' : Watcher) (offered : List String) : Prop where
  accepts : w'.accepts = w.accepts
  armed : w'.armed = w.armed
  pending : ∀ p, p ∈ w'.pending ↔ p ∈ w.pending ∨ p ∈ offered.filter w.accepts
  nodup : w.pending.Nodup → w'.pending.Nodup

section

variable {w w' w'' : Watcher} {ps qs : List String}

theorem Queues.refl (w : Watcher) : Queues w w [] := ⟨rfl, rfl, by simp, id⟩

theorem Queues.trans (first : Queues w w' ps) (second : Queues w' w'' qs) :
    Queues w w'' (ps ++ qs) where
  accepts := second.accepts.trans first.accepts
  armed := second.armed.trans first.armed
  pending p := by
    rw [second.pending, first.pending, first.accepts, filter_append, mem_append, or_assoc]
  nodup distinct := second.nodup (first.nodup distinct)

theorem queues_watch (w : Watcher) (dir : WatchedDirectory) : Queues w (w.watch dir) [] := by
  unfold watch
  split
  · exact .refl w
  · exact ⟨rfl, rfl, by simp, id⟩

/-- Watching directories queues nothing, and whether it fails is not up to the watcher. -/
theorem addEach_spec (w w' : Watcher) (tree : FileTree) (paths : List String) :
    Queues w (w.addEach tree paths).watcher [] ∧
      (w.addEach tree paths).error? = (w'.addEach tree paths).error? := by
  induction paths generalizing w w' with
  | nil => exact ⟨.refl w, rfl⟩
  | cons path paths ih =>
    rw [addEach, addEach, watchPath, watchPath]
    cases tree.look true (Path.clean path) with
    | error reason => exact ⟨.refl w, rfl⟩
    | ok found =>
      obtain ⟨later, error⟩ := ih (w.watch (found.1, Path.clean path))
        (w'.watch (found.1, Path.clean path))
      exact ⟨(queues_watch w _).trans later, error⟩

theorem add_spec (w w' : Watcher) (tree : FileTree) (root : String) :
    Queues w (w.add tree root).watcher [] ∧
      (w.add tree root).error? = (w'.add tree root).error? := by
  unfold add
  cases directories tree root with
  | error cause => exact ⟨.refl w, rfl⟩
  | ok paths => exact addEach_spec w w' tree paths

theorem enqueue_spec (w : Watcher) (path : String) :
    Queues w (w.enqueue path).1 [path] ∧ (w.enqueue path).2 = w.accepts path := by
  unfold enqueue
  cases accepted : w.accepts path with
  | false => exact ⟨⟨rfl, rfl, by simp [accepted], id⟩, rfl⟩
  | true =>
    by_cases known : path ∈ w.pending
    · simp only [Bool.not_true, Bool.false_eq_true, if_false, contains_iff_mem, known,
        if_true, and_true]
      refine ⟨rfl, rfl, fun p => ?_, id⟩
      simp only [accepted, filter_cons_of_pos, filter_nil, mem_singleton]
      exact ⟨.inl, fun mem => mem.elim id fun same => same ▸ known⟩
    · simp only [Bool.not_true, Bool.false_eq_true, if_false, contains_iff_mem, known, and_true]
      refine ⟨rfl, rfl, fun p => ?_, fun distinct => ?_⟩
      · simp [accepted]
      · rw [← concat_eq_append]
        exact distinct.concat known

theorem enqueueAll_spec (w : Watcher) (paths : List String) :
    Queues w (w.enqueueAll paths).1 paths ∧ (w.enqueueAll paths).2 = paths.any w.accepts := by
  induction paths generalizing w with
  | nil => exact ⟨.refl w, rfl⟩
  | cons path paths ih =>
    obtain ⟨first, queued⟩ := enqueue_spec w path
    obtain ⟨later, more⟩ := ih (w.enqueue path).1
    rw [enqueueAll]
    refine ⟨first.trans later, ?_⟩
    rw [any_cons, ← first.accepts, ← more, first.accepts, ← queued]

/-- An event queues what it makes known and the watcher accepts. -/
theorem take_spec (w : Watcher) (tree : FileTree) (e : WatchEvent) :
    Queues w (w.take tree e).1 (Step.event tree e).offers ∧
      (w.take tree e).2.1 = (Step.event tree e).offers.any w.accepts := by
  unfold take
  rw [Step.offers]
  by_cases entered : (e.has .create && isDirectory tree e.path) = true
  · obtain ⟨added, error⟩ := add_spec w {} tree e.path
    rw [if_pos entered, if_pos entered, enter, ← error]
    cases failed : (w.add tree e.path).error? with
    | some cause => exact ⟨added, rfl⟩
    | none =>
      obtain ⟨queues, queued⟩ := enqueueAll_spec (w.add tree e.path).watcher
        (filesBelow tree e.path)
      rw [added.accepts] at queued
      exact ⟨added.trans queues, queued⟩
  · rw [if_neg entered, if_neg entered]
    cases e.isChange with
    | false => exact ⟨.refl w, rfl⟩
    | true =>
      obtain ⟨queues, queued⟩ := enqueue_spec w e.path
      exact ⟨queues, queued.trans (by simp)⟩

end

/-! ## One step -/

/-- Nothing waits twice, and nothing waits in vain. -/
structure Ready (w : Watcher) : Prop where
  nodup : w.pending.Nodup
  armed : w.pending ≠ [] → w.armed = true

/-- What a step does to the paths that wait: the timer gives them out, any other step adds to
them. -/
inductive Effect (w w' : Watcher) (s : Step) : Option (List String) → Prop where
  | given : s = .timer → w.pending ≠ [] → w'.pending = [] → Effect w w' s (some w.batch)
  | kept : (∀ p, p ∈ w'.pending ↔ p ∈ w.pending ∨ p ∈ s.queues w.accepts) →
    (s = .timer → w.pending = []) → Effect w w' s none

theorem step_spec {w : Watcher} (ready : w.Ready) (s : Step) :
    (w.step s).1.Ready ∧ (w.step s).1.accepts = w.accepts ∧
      Effect w (w.step s).1 s (w.step s).2.batch? := by
  cases s with
  | event tree e =>
    obtain ⟨queues, queued⟩ := take_spec w tree e
    refine ⟨⟨queues.nodup ready.nodup, fun waiting => ?_⟩, queues.accepts,
      .kept queues.pending (by simp)⟩
    change ((w.take tree e).1.armed || (w.take tree e).2.1) = true
    rw [queues.armed, queued, Bool.or_eq_true, any_eq_true]
    obtain ⟨p, waits⟩ := exists_mem_of_ne_nil _ waiting
    rcases (queues.pending p).mp waits with old | new
    · exact .inl (ready.armed (ne_nil_of_mem old))
    · exact .inr ⟨p, mem_filter.mp new⟩
  | error text => exact ⟨ready, rfl, .kept (by simp [step, Step.queues, Step.offers]) (by simp)⟩
  | timer =>
    have nothing : w.pending = [] → Effect w w .timer none := fun empty =>
      .kept (by simp [Step.queues, Step.offers]) fun _ => empty
    unfold step fire
    cases armed : w.armed with
    | false =>
      refine ⟨ready, rfl, nothing ?_⟩
      by_contra waiting
      exact absurd (ready.armed waiting) (by simp [armed])
    | true =>
      refine ⟨⟨nodup_nil, fun waiting => absurd rfl waiting⟩, rfl, ?_⟩
      by_cases empty : w.pending = []
      · simp only [empty, isEmpty_nil, if_true]
        exact .kept (by simp [Step.queues, Step.offers, empty]) fun _ => empty
      · simp only [Bool.not_true, Bool.false_eq_true, if_false, List.isEmpty_iff, empty]
        exact .given rfl empty rfl

/-! ## Runs -/

section

variable (w : Watcher) (steps : List Step)

/-- The batch that a step of a run gives out. -/
def batchAt? (n : Nat) : Option (List String) := (w.run steps).2[n]?.bind (·.batch?)

/-- The paths that a step of a run queues. -/
def queuedAt (n : Nat) : List String := steps[n]?.elim [] (·.queues w.accepts)

theorem run_getElem? (n : Nat) :
    (w.run steps).2[n]? = steps[n]?.map fun s => ((w.run (steps.take n)).1.step s).2 := by
  induction steps generalizing w n with
  | nil => rfl
  | cons s steps ih =>
    cases n with
    | zero => rfl
    | succ n => exact ih (w.step s).1 n

theorem run_take_succ {n : Nat} {s : Step} (here : steps[n]? = some s) :
    (w.run (steps.take (n + 1))).1 = ((w.run (steps.take n)).1.step s).1 := by
  induction steps generalizing w n with
  | nil => cases here
  | cons first steps ih =>
    cases n with
    | zero =>
      cases here
      rfl
    | succ n => exact ih (w.step first).1 here

/-- The path was queued before a step, and no batch was given out since. -/
def Waits (n : Nat) (path : String) : Prop :=
  ∃ m < n, path ∈ w.queuedAt steps m ∧ ∀ k, m < k → k < n → w.batchAt? steps k = none

variable {w steps} {n : Nat} {path : String}

theorem Waits.succ (quiet : w.batchAt? steps n = none) :
    w.Waits steps (n + 1) path ↔ w.Waits steps n path ∨ path ∈ w.queuedAt steps n := by
  constructor
  · rintro ⟨m, before, queued, since⟩
    rcases Nat.lt_succ_iff_lt_or_eq.mp before with earlier | rfl
    · exact .inl ⟨m, earlier, queued, fun k after below => since k after (by omega)⟩
    · exact .inr queued
  · rintro (⟨m, before, queued, since⟩ | queued)
    · refine ⟨m, by omega, queued, fun k after below => ?_⟩
      rcases Nat.lt_succ_iff_lt_or_eq.mp below with earlier | rfl
      · exact since k after earlier
      · exact quiet
    · exact ⟨n, Nat.lt_succ_self n, queued, fun k after below => by omega⟩

/-- After a batch nothing waits but what the step itself queued. -/
theorem not_waits_succ {b : List String} (given : w.batchAt? steps n = some b)
    (idle : w.queuedAt steps n = []) : ¬ w.Waits steps (n + 1) path := by
  rintro ⟨m, before, queued, since⟩
  rcases Nat.lt_succ_iff_lt_or_eq.mp before with earlier | rfl
  · rw [since n earlier (Nat.lt_succ_self n)] at given
    cases given
  · rw [idle] at queued
    cases queued

/-- By induction on the steps: what waits is what was queued since the last batch. -/
theorem run_spec (steps : List Step) (ready : w.Ready) (empty : w.pending = []) (n : Nat) :
    (w.run (steps.take n)).1.Ready ∧ (w.run (steps.take n)).1.accepts = w.accepts ∧
      ∀ path, path ∈ (w.run (steps.take n)).1.pending ↔ w.Waits steps n path := by
  induction n with
  | zero =>
    rw [take_zero]
    refine ⟨ready, rfl, fun path => ?_⟩
    rw [run, empty]
    refine iff_of_false not_mem_nil ?_
    rintro ⟨m, before, -⟩
    exact absurd before (Nat.not_lt_zero m)
  | succ n ih =>
    obtain ⟨ready, accepts, waits⟩ := ih
    have outcome := run_getElem? w steps n
    cases here : steps[n]? with
    | none =>
      have ended := List.getElem?_eq_none_iff.mp here
      rw [here, Option.map_none] at outcome
      have batch : w.batchAt? steps n = none := by rw [batchAt?, outcome]; rfl
      rw [take_of_length_le (by omega)]
      rw [take_of_length_le ended] at ready accepts waits
      refine ⟨ready, accepts, fun path => ?_⟩
      rw [waits, Waits.succ batch, queuedAt, here]
      simp
    | some s =>
      rw [here, Option.map_some] at outcome
      have batch : w.batchAt? steps n = ((w.run (steps.take n)).1.step s).2.batch? := by
        rw [batchAt?, outcome]
        rfl
      have queued : w.queuedAt steps n = s.queues w.accepts := by rw [queuedAt, here]; rfl
      obtain ⟨readyNext, acceptsNext, effect⟩ := step_spec ready s
      rw [run_take_succ w steps here]
      refine ⟨readyNext, acceptsNext.trans accepts, fun path => ?_⟩
      generalize ((w.run (steps.take n)).1.step s).2.batch? = batch? at effect batch
      cases effect with
      | given timer _ empty =>
        rw [empty, iff_false_left not_mem_nil]
        exact not_waits_succ batch (by rw [queued, timer]; rfl)
      | kept pending _ => rw [pending, waits, Waits.succ batch, queued, accepts]

/-- A step gives out a batch exactly if it is the timer and something waits, and then it gives out
all of that. -/
theorem batchAt?_eq_some_iff (ready : w.Ready) (empty : w.pending = []) {b : List String} :
    w.batchAt? steps n = some b ↔ steps[n]? = some .timer ∧
      (w.run (steps.take n)).1.pending ≠ [] ∧ (w.run (steps.take n)).1.batch = b := by
  obtain ⟨ready, -, -⟩ := run_spec steps ready empty n
  rw [batchAt?, run_getElem?]
  cases steps[n]? with
  | none => simp
  | some s =>
    obtain ⟨-, -, effect⟩ := step_spec ready s
    rw [Option.map_some, Option.bind_some, Option.some_inj]
    generalize ((w.run (steps.take n)).1.step s).2.batch? = batch? at effect
    cases effect with
    | given timer waiting _ => simp [timer, waiting]
    | kept _ empty =>
      refine iff_of_false (by simp) ?_
      rintro ⟨timer, waiting, -⟩
      exact waiting (empty timer)

end

theorem sorted_batch {w : Watcher} (nodup : w.pending.Nodup) : w.batch.Pairwise (· < ·) := by
  have sorted : w.batch.Pairwise (· ≤ ·) := by
    refine (pairwise_mergeSort ?_ ?_ w.pending).imp fun le => by simpa using le
    · intro a b c
      simpa using le_trans
    · intro a b
      simpa using le_total a b
  have distinct : w.batch.Nodup := (mergeSort_perm _ _).nodup_iff.mpr nodup
  exact sorted.imp₂ (fun a b le ne => lt_of_le_of_ne le ne) distinct

theorem mem_batch {w : Watcher} {path : String} : path ∈ w.batch ↔ path ∈ w.pending :=
  (mergeSort_perm _ _).mem_iff

/-- A watcher loses nothing, gives out nothing twice and makes nothing up.  While paths wait, the
timer runs.  A path that a step queues is in the batch that the next expiration of the timer gives
out.  A batch is never empty, is in order without repetitions, and every path in it is one to report
that was queued since the batch before. -/
theorem run_batches (accepts : String → Bool) (watched : List WatchedDirectory)
    (steps : List Step) :
    let w : Watcher := { accepts, watched }
    (∀ n, (w.run (steps.take n)).1.pending ≠ [] → (w.run (steps.take n)).1.armed = true) ∧
    (∀ n path, path ∈ w.queuedAt steps n → ∀ m, n < m → steps[m]? = some .timer →
      (∀ k, n < k → k < m → w.batchAt? steps k = none) →
        ∃ b, w.batchAt? steps m = some b ∧ path ∈ b) ∧
    ∀ m b, w.batchAt? steps m = some b → steps[m]? = some .timer ∧ b ≠ [] ∧
      b.Pairwise (· < ·) ∧ ∀ path ∈ b, accepts path = true ∧
        ∃ n < m, path ∈ w.queuedAt steps n ∧
          ∀ k, n < k → k < m → w.batchAt? steps k = none := by
  intro w
  have ready : w.Ready := ⟨nodup_nil, fun waiting => absurd rfl waiting⟩
  have spec := run_spec steps ready rfl
  refine ⟨fun n => (spec n).1.armed, ?_, ?_⟩
  · intro n path queued m before timer since
    have waits := ((spec m).2.2 path).mpr ⟨n, before, queued, since⟩
    refine ⟨_, (batchAt?_eq_some_iff ready rfl).mpr ⟨timer, ne_nil_of_mem waits, rfl⟩, ?_⟩
    exact mem_batch.mpr waits
  · intro m b given
    obtain ⟨timer, waiting, rfl⟩ := (batchAt?_eq_some_iff ready rfl).mp given
    obtain ⟨readyThen, -, waits⟩ := spec m
    obtain ⟨first, inside⟩ := exists_mem_of_ne_nil _ waiting
    refine ⟨timer, ne_nil_of_mem (mem_batch.mpr inside), sorted_batch readyThen.nodup, ?_⟩
    intro path mem
    obtain ⟨n, before, queued, since⟩ := (waits path).mp (mem_batch.mp mem)
    refine ⟨?_, n, before, queued, since⟩
    unfold queuedAt at queued
    cases here : steps[n]? with
    | none => simp [here] at queued
    | some s =>
        rw [here] at queued
        exact (mem_filter.mp queued).2

/-- A file is written and reported, then written again with another one and reported with it. -/
theorem run_batches_again :
    let w : Watcher := { accepts := (· != "c") }
    let write (path : String) : Step := .event {} ⟨[.write, .mode], path⟩
    let steps := [write "b", .timer, write "b", write "c", .error "e", write "a", .timer]
    ∃ first second, w.batchAt? steps 1 = some first ∧ "b" ∈ first ∧
      w.batchAt? steps 6 = some second ∧ "a" ∈ second ∧ "b" ∈ second ∧ "c" ∉ second ∧
        second.Pairwise (· < ·) := by
  intro w write steps
  obtain ⟨-, complete, sound⟩ := run_batches w.accepts [] steps
  have since : ∀ k, 2 < k → k < 6 → w.batchAt? steps k = none := by
    intro k after before
    interval_cases k <;> rfl
  obtain ⟨first, given, inFirst⟩ := complete 0 "b" (by decide) 1 (by omega) rfl (by omega)
  obtain ⟨second, givenNext, b⟩ := complete 2 "b" (by decide) 6 (by omega) rfl since
  obtain ⟨_, again, a⟩ := complete 5 "a" (by decide) 6 (by omega) rfl (by omega)
  obtain rfl := Option.some.inj (givenNext.symm.trans again)
  obtain ⟨-, -, sorted, reported⟩ := sound 6 second givenNext
  have c : "c" ∉ second := fun mem => absurd (reported "c" mem).1 (by decide)
  exact ⟨first, second, given, inFirst, givenNext, a, b, c, sorted⟩

end BitSchema.Watcher
