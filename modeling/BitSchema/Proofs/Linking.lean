import Mathlib
import BitSchema.Linking.Graph

/-!
# Linking

A graph is built by adding modules, and under each path the last module counts.  Linking decides
whether every include leads to a module and no chain of includes comes back to its start, and the
order of a linked graph puts every module after those it includes.

Both follow from one invariant of the depth-first walk.  `Sorted` says of the modules finished so
far that each comes after its own includes; `Settled` adds that none of them is on the trail that
leads to where the walk stands.  A visit keeps the invariant and finishes what it was sent to, or it
runs into its own trail and has found a cycle (`finishes_visit`).
-/

namespace BitSchema.ModuleGraph

open List
open Relation (TransGen)

/-! ## Graphs from modules -/

/-- The graph that modules make when they are added in order. -/
def ofModules (ms : List Module) : ModuleGraph := ms.foldl add {}

/-- The module that counts under a path: the last one that was added. -/
def latest? (ms : List Module) (path : String) : Option Module := ms.reverse.find? (·.path == path)

/-- The module that counts under `a` includes `b`. -/
def Depends (ms : List Module) (a b : String) : Prop := ∃ m, latest? ms a = some m ∧ b ∈ m.deps

section

variable {g : ModuleGraph} {m : Module} {ms : List Module} {path : String}

theorem contains_iff_mem_paths : g.contains path = true ↔ path ∈ g.paths := by
  simp [contains, module?, paths, find?_isSome]

theorem module?_add :
    (g.add m).module? path = if m.path = path then some m else g.module? path := by
  unfold add
  split
  next there =>
    let replace : Module → Module := fun old => if old.path == m.path then m else old
    have kept : (fun old => (replace old).path == path) =
        fun old : Module => old.path == path := by
      funext old
      by_cases same : old.path = m.path <;> simp [replace, same]
    have found : (g.modules.map replace).find? (·.path == path) =
        (g.module? path).map replace := by
      rw [find?_map]
      exact congrArg (fun wanted => (g.modules.find? wanted).map replace) kept
    refine found.trans ?_
    by_cases here : m.path = path
    · obtain ⟨old, inside⟩ := Option.isSome_iff_exists.mp (here ▸ there)
      have same : old.path = path := by simpa using find?_some inside
      rw [if_pos here, inside, Option.map_some]
      simp [replace, same, here]
    · rw [if_neg here]
      cases inside : g.module? path with
      | none => rfl
      | some old =>
        have same : old.path = path := by simpa using find?_some inside
        simp [replace, same, Ne.symm here]
  next new =>
    have none : m.path = path → g.module? path = none := by
      rintro rfl
      simpa [contains] using new
    have appended : (ModuleGraph.mk (g.modules ++ [m])).module? path =
        (g.module? path).or (if m.path = path then some m else .none) := by
      simp [module?, find?_append, find?_singleton]
    rw [appended]
    split
    next here => simp [none here]
    next => simp

theorem paths_add :
    (g.add m).paths = if g.contains m.path then g.paths else g.paths ++ [m.path] := by
  unfold add paths
  split
  next =>
    rw [map_map]
    refine map_congr_left fun old _ => ?_
    by_cases same : old.path = m.path <;> simp [same]
  next => simp

theorem module?_foldl_add (path : String) :
    (ms.foldl add g).module? path = (latest? ms path).or (g.module? path) := by
  induction ms generalizing g with
  | nil => simp [latest?]
  | cons m ms ih =>
    rw [foldl_cons, ih, module?_add, latest?, latest?, reverse_cons,
      find?_append, find?_singleton, Option.or_assoc]
    by_cases here : m.path = path <;> simp [here]

theorem module?_ofModules (ms : List Module) (path : String) :
    (ofModules ms).module? path = latest? ms path := by
  rw [ofModules, module?_foldl_add]
  simp [module?]

theorem contains_ofModules : (ofModules ms).contains path = true ↔ path ∈ ms.map Module.path := by
  rw [contains, module?_ofModules]
  simp [latest?, find?_isSome]

theorem nodup_paths_foldl_add (distinct : g.paths.Nodup) : (ms.foldl add g).paths.Nodup := by
  induction ms generalizing g with
  | nil => exact distinct
  | cons m ms ih =>
    refine ih ?_
    rw [paths_add]
    split
    next => exact distinct
    next new =>
      rw [← concat_eq_append]
      exact distinct.concat (contains_iff_mem_paths.not.mp new)

theorem nodup_paths_ofModules (ms : List Module) : (ofModules ms).paths.Nodup :=
  nodup_paths_foldl_add nodup_nil

end

/-! ## Cycles -/

/-- A path that leads along edges back to its start and meets nothing twice on the way. -/
structure Cycle (edge : String → String → Prop) (paths : List String) : Prop where
  length : 2 ≤ paths.length
  closed : paths.head? = paths.getLast?
  distinct : paths.dropLast.Nodup
  chained : paths.IsChain edge

namespace Cycle

variable {edge : String → String → Prop} {paths trail : List String} {path : String}

/-- Where the start of a cycle leads. -/
theorem transGen (cycle : Cycle edge paths) : ∃ a, TransGen edge a a := by
  obtain ⟨length, closed, -, chained⟩ := cycle
  match paths, length with
  | a :: b :: rest, _ =>
    have reach : (a :: b :: rest).Pairwise (TransGen edge) :=
      (chained.imp fun _ _ step => TransGen.single step).pairwise
    have last : a ∈ b :: rest := by
      rw [head?_cons, getLast?_cons_cons] at closed
      exact mem_of_getLast? closed.symm
    exact ⟨a, (pairwise_cons.mp reach).1 a last⟩

/-- A trail that leads back to one of its own paths ends in a cycle. -/
theorem of_trail (distinct : trail.Nodup) (chained : (trail ++ [path]).IsChain edge)
    (back : path ∈ trail) : Cycle edge (trail.dropWhile (· != path) ++ [path]) := by
  obtain ⟨before, after, rfl, first⟩ := eq_append_cons_of_mem back
  have rest : (before ++ path :: after).dropWhile (· != path) = path :: after := by
    rw [dropWhile_append_of_pos]
    · simp
    · intro other mem
      rw [bne_iff_ne]
      rintro rfl
      exact first mem
  rw [rest]
  refine ⟨by simp, ?_, ?_, ?_⟩
  · rw [getLast?_concat]
    rfl
  · rw [dropLast_concat]
    exact (nodup_append.mp distinct).2.1
  · rw [append_assoc] at chained
    exact chained.right_of_append

end Cycle

/-! ## The walk -/

variable {g : ModuleGraph} {trail done : List String} {path : String}

/-- The module under `a` includes `b`. -/
def Includes (g : ModuleGraph) (a b : String) : Prop := ∃ m, g.module? a = some m ∧ b ∈ m.deps

/-- Modules, each once and after all modules that it includes. -/
structure Sorted (g : ModuleGraph) (done : List String) : Prop where
  distinct : done.Nodup
  known : ∀ p ∈ done, g.contains p = true
  earlier : ∀ a b, g.Includes a b → g.contains b = true → a ∈ done →
    b ∈ done ∧ done.idxOf b < done.idxOf a

/-- Sorted modules, none of which the trail holds. -/
structure Settled (g : ModuleGraph) (trail done : List String) : Prop extends Sorted g done where
  apart : ∀ p ∈ trail, p ∉ done

/-- What comes of finishing paths: they join those that are done, or there is a cycle. -/
def Finishes (g : ModuleGraph) (trail done paths : List String) :
    Except Stopped (List String) → Prop
  | .ok done' => g.Settled trail done' ∧ done ⊆ done' ∧ ∀ p ∈ paths, g.contains p = true → p ∈ done'
  | .error stopped => Cycle g.Includes stopped.cycle

theorem Sorted.concat (sorted : g.Sorted done) (known : g.contains path = true)
    (new : path ∉ done)
    (finished : ∀ dep, g.Includes path dep → g.contains dep = true → dep ∈ done) :
    g.Sorted (done ++ [path]) where
  distinct := by
    rw [← concat_eq_append]
    exact sorted.distinct.concat new
  known := by
    intro p mem
    rcases mem_append.mp mem with mem | mem
    · exact sorted.known p mem
    · rwa [mem_singleton.mp mem]
  earlier := by
    intro a b edge there mem
    rcases mem_append.mp mem with mem | mem
    · obtain ⟨inside, before⟩ := sorted.earlier a b edge there mem
      rw [idxOf_append_of_mem inside, idxOf_append_of_mem mem]
      exact ⟨mem_append_left _ inside, before⟩
    · obtain rfl := mem_singleton.mp mem
      have inside := finished b edge there
      rw [idxOf_append_of_mem inside, idxOf_append_of_notMem new]
      exact ⟨mem_append_left _ inside,
        (idxOf_lt_length_of_mem inside).trans_le (Nat.le_add_right _ _)⟩

/-- Finish one path, and then the others. -/
theorem Finishes.bind {p : String} {paths : List String} {first : Except Stopped (List String)}
    {next : List String → Except Stopped (List String)} (head : g.Finishes trail done [p] first)
    (tail : ∀ done', g.Settled trail done' → g.Finishes trail done' paths (next done')) :
    g.Finishes trail done (p :: paths) (first >>= next) := by
  cases first with
  | error stopped => exact head
  | ok done' =>
    obtain ⟨settled, grown, finished⟩ := head
    have rest := tail done' settled
    change g.Finishes trail done (p :: paths) (next done')
    cases result : next done' with
    | error stopped =>
      rw [result] at rest
      exact rest
    | ok last =>
      rw [result] at rest
      obtain ⟨settled', grown', finished'⟩ := rest
      refine ⟨settled', List.Subset.trans grown grown', fun q mem there => ?_⟩
      rcases mem_cons.mp mem with rfl | mem
      · exact grown' (finished q mem_cons_self there)
      · exact finished' q mem there

theorem finishes_foldlM {step : List String → String → Except Stopped (List String)}
    {paths : List String}
    (steps : ∀ p ∈ paths, ∀ done, g.Settled trail done → g.Finishes trail done [p] (step done p))
    (settled : g.Settled trail done) : g.Finishes trail done paths (paths.foldlM step done) := by
  induction paths generalizing done with
  | nil => exact ⟨settled, List.Subset.refl _, by simp⟩
  | cons p paths ih =>
    have others := fun q mem => steps q (mem_cons_of_mem p mem)
    rw [foldlM_cons]
    exact (steps p mem_cons_self done settled).bind fun done' => ih others

/-- After all that a module includes, the module itself can be finished. -/
theorem Finishes.concat {m : Module} {result : Except Stopped (List String)}
    (found : g.module? path = some m) (fresh : path ∉ trail)
    (deps : g.Finishes (trail ++ [path]) done m.deps result) :
    g.Finishes trail done [path] (result >>= fun done' => return done' ++ [path]) := by
  cases result with
  | error stopped => exact deps
  | ok done' =>
    obtain ⟨settled, grown, finished⟩ := deps
    have here : g.contains path = true := by simp [contains, found]
    have sorted : g.Sorted (done' ++ [path]) := by
      refine settled.toSorted.concat here (settled.apart path (by simp)) ?_
      rintro dep ⟨m', found', mem⟩ there
      cases found.symm.trans found'
      exact finished dep mem there
    refine ⟨⟨sorted, fun p mem => ?_⟩, ?_, by simp⟩
    · rw [mem_append, mem_singleton]
      rintro (finished | rfl)
      · exact settled.apart p (mem_append_left _ mem) finished
      · exact fresh mem
    · exact List.Subset.trans grown (subset_append_left _ _)

theorem length_trail_le (distinct : trail.Nodup) (known : ∀ p ∈ trail, g.contains p = true) :
    trail.length ≤ g.size := by
  have inside : trail ⊆ g.paths := fun p mem => contains_iff_mem_paths.mp (known p mem)
  have most := (distinct.subperm inside).length_le
  rwa [paths, length_map] at most

theorem visit_succ (g : ModuleGraph) (fuel : Nat) (trail done : List String) (path : String) :
    g.visit (fuel + 1) trail done path =
      if path ∈ trail then .error ⟨trail.dropWhile (· != path) ++ [path], done⟩
      else if path ∈ done then .ok done
      else match g.module? path with
        | none => .ok done
        | some m => m.deps.foldlM (g.visit fuel (trail ++ [path])) done >>= fun done' =>
          return done' ++ [path] := by
  rw [visit.eq_def]
  dsimp only
  cases g.module? path <;> rfl

-- By induction on the fuel.  The trail is a chain of includes without repetition, so it is never
-- longer than the number of modules, and the fuel cannot run out before it is that long.
theorem finishes_visit {fuel : Nat} (distinct : trail.Nodup)
    (known : ∀ p ∈ trail, g.contains p = true) (chained : (trail ++ [path]).IsChain g.Includes)
    (enough : g.size < fuel + trail.length) (settled : g.Settled trail done) :
    g.Finishes trail done [path] (g.visit fuel trail done path) := by
  induction fuel generalizing trail done path with
  | zero =>
    have most := length_trail_le distinct known
    omega
  | succ fuel ih =>
    by_cases fresh : path ∈ trail
    · rw [visit_succ, if_pos fresh]
      exact Cycle.of_trail distinct chained fresh
    by_cases unfinished : path ∈ done
    · rw [visit_succ, if_neg fresh, if_pos unfinished]
      exact ⟨settled, List.Subset.refl _, by simp [unfinished]⟩
    cases found : g.module? path with
    | none =>
      rw [visit_succ, if_neg fresh, if_neg unfinished, found]
      exact ⟨settled, List.Subset.refl _, by simp [contains, found]⟩
    | some m =>
      have here : g.contains path = true := by simp [contains, found]
      rw [visit_succ, if_neg fresh, if_neg unfinished, found]
      refine Finishes.concat found fresh (finishes_foldlM (fun dep mem done' settled' => ?_) ?_)
      · refine ih ?_ ?_ ?_ ?_ settled'
        · rw [← concat_eq_append]
          exact distinct.concat fresh
        · simpa [or_imp, forall_and] using ⟨known, here⟩
        · rw [isChain_append]
          refine ⟨chained, by simp, ?_⟩
          simpa using ⟨m, found, mem⟩
        · rw [length_append, length_singleton]
          omega
      · refine ⟨settled.toSorted, ?_⟩
        simpa [or_imp, forall_and] using ⟨settled.apart, unfinished⟩

theorem finishes_walk (g : ModuleGraph) : g.Finishes [] [] g.paths g.walk := by
  have nothing : g.Settled [] [] := ⟨⟨nodup_nil, by simp, by simp⟩, by simp⟩
  refine finishes_foldlM (fun p _ done settled => ?_) nothing
  exact finishes_visit nodup_nil (by simp) (by simp) (by simp) settled

/-! ## Links -/

theorem module?_eq_some_iff (distinct : g.paths.Nodup) {m : Module} :
    g.module? path = some m ↔ m ∈ g.modules ∧ m.path = path := by
  constructor
  · intro found
    exact ⟨mem_of_find?_eq_some found, by simpa using find?_some found⟩
  · rintro ⟨mem, rfl⟩
    obtain ⟨other, found⟩ : ∃ other, g.module? m.path = some other := by
      rw [← Option.isSome_iff_exists]
      exact contains_iff_mem_paths.mpr (mem_map_of_mem mem)
    have same : other.path = m.path := by simpa using find?_some found
    rw [found, inj_on_of_nodup_map distinct (mem_of_find?_eq_some found) mem same]

theorem missing?_eq_some (distinct : g.paths.Nodup) {source target : String}
    (found : g.missing? = some (source, target)) :
    g.Includes source target ∧ g.contains target = false := by
  obtain ⟨m, mem, first⟩ := exists_of_findSome?_eq_some found
  obtain ⟨dep, absent, eq⟩ := Option.map_eq_some_iff.mp first
  cases eq
  have there := (module?_eq_some_iff distinct).mpr ⟨mem, rfl⟩
  exact ⟨⟨m, there, mem_of_find?_eq_some absent⟩, by simpa using find?_some absent⟩

theorem closed_of_missing? (none : g.missing? = none) {a b : String} (edge : g.Includes a b) :
    g.contains b = true := by
  obtain ⟨m, found, mem⟩ := edge
  have deps := findSome?_eq_none_iff.mp none m (mem_of_find?_eq_some found)
  simpa using find?_eq_none.mp (Option.map_eq_none_iff.mp deps) b mem

/-- A graph links if no include is missed and the walk comes to its end. -/
theorem link_ok_iff : g.link = .ok () ↔ g.missing? = none ∧ ∃ done, g.walk = .ok done := by
  unfold link
  cases g.missing? with
  | some edge => simp
  | none => cases g.walk <;> simp

theorem includes_ofModules (ms : List Module) : (ofModules ms).Includes = Depends ms := by
  funext a b
  simp only [Includes, Depends, module?_ofModules]

/-- The order of a linked graph is sorted and complete. -/
theorem sorted_of_link (linked : g.link = .ok ()) :
    g.Sorted g.order ∧ ∀ p, g.contains p = true → p ∈ g.order := by
  obtain ⟨-, done, walked⟩ := link_ok_iff.mp linked
  have finishes := finishes_walk g
  rw [walked] at finishes
  obtain ⟨settled, -, finished⟩ := finishes
  rw [order, walked]
  exact ⟨settled.toSorted, fun p there => finished p (contains_iff_mem_paths.mp there) there⟩

/-- What a module includes comes before it. -/
theorem idxOf_lt_of_link (linked : g.link = .ok ()) {a b : String} (edge : g.Includes a b) :
    g.order.idxOf b < g.order.idxOf a := by
  obtain ⟨sorted, complete⟩ := sorted_of_link linked
  obtain ⟨m, found, mem⟩ := edge
  have start : a ∈ g.order := complete a (by simp [contains, found])
  have there := closed_of_missing? (link_ok_iff.mp linked).1 ⟨m, found, mem⟩
  exact (sorted.earlier a b ⟨m, found, mem⟩ there start).2

/-- Along includes the order only falls, so nothing leads back to itself. -/
theorem acyclic_of_link (linked : g.link = .ok ()) (a : String) : ¬ TransGen g.Includes a a := by
  intro loop
  have falls : ∀ b, TransGen g.Includes a b → g.order.idxOf b < g.order.idxOf a := by
    intro b path
    induction path with
    | single edge => exact idxOf_lt_of_link linked edge
    | tail _ edge ih => exact (idxOf_lt_of_link linked edge).trans ih
  exact Nat.lt_irrefl _ (falls a loop)

/-- A link error is what it says it is. -/
theorem link_error (distinct : g.paths.Nodup) {cause : LinkError} (failed : g.link = .error cause) :
    (∃ source target, cause = .missing source target ∧ g.Includes source target ∧
        g.contains target = false) ∨
      ∃ paths, cause = .cycle paths ∧ Cycle g.Includes paths := by
  unfold link at failed
  cases missing : g.missing? with
  | some edge =>
    rw [missing] at failed
    cases failed
    exact .inl ⟨edge.1, edge.2, rfl, missing?_eq_some distinct missing⟩
  | none =>
    have finishes := finishes_walk g
    cases walked : g.walk with
    | ok done => simp [missing, walked] at failed
    | error stopped =>
      rw [missing, walked] at failed
      rw [walked] at finishes
      cases failed
      exact .inr ⟨stopped.cycle, rfl, finishes⟩

/-- Modules without loops that include known ones are linked. -/
theorem link_ok_of_closed_acyclic (distinct : g.paths.Nodup)
    (closed : ∀ a b, g.Includes a b → g.contains b = true)
    (acyclic : ∀ a, ¬ TransGen g.Includes a a) : g.link = .ok () := by
  cases result : g.link with
  | ok => rfl
  | error cause =>
    rcases link_error distinct result with ⟨source, target, -, edge, absent⟩ | ⟨paths, -, cycle⟩
    · rw [closed source target edge] at absent
      cases absent
    · obtain ⟨a, loop⟩ := cycle.transGen
      exact absurd loop (acyclic a)

/-- Linking decides whether the modules are closed under includes and free of cycles.  A missing
include is one that some module has and that leads nowhere, and a cycle that is reported is one. -/
theorem link_ofModules (ms : List Module) :
    ((ofModules ms).link = .ok () ↔
        (∀ a b, Depends ms a b → b ∈ ms.map Module.path) ∧ ∀ a, ¬ TransGen (Depends ms) a a) ∧
      (∀ source target, (ofModules ms).link = .error (.missing source target) →
        Depends ms source target ∧ target ∉ ms.map Module.path) ∧
      ∀ paths, (ofModules ms).link = .error (.cycle paths) → Cycle (Depends ms) paths := by
  have distinct := nodup_paths_ofModules ms
  rw [← includes_ofModules]
  refine ⟨⟨fun linked => ⟨fun a b edge => ?_, acyclic_of_link linked⟩, fun ⟨closed, acyclic⟩ => ?_⟩,
    fun source target failed => ?_, fun paths failed => ?_⟩
  · exact contains_ofModules.mp (closed_of_missing? (link_ok_iff.mp linked).1 edge)
  · exact link_ok_of_closed_acyclic distinct
      (fun a b edge => contains_ofModules.mpr (closed a b edge)) acyclic
  · rcases link_error distinct failed with ⟨_, _, eq, edge, absent⟩ | ⟨_, eq, -⟩
    · cases eq
      refine ⟨edge, fun mem => ?_⟩
      rw [contains_ofModules.mpr mem] at absent
      cases absent
    · cases eq
  · rcases link_error distinct failed with ⟨_, _, eq, -⟩ | ⟨_, eq, cycle⟩
    · cases eq
    · cases eq
      exact cycle

/-- The order of a linked graph lists every path that was added once, and after all that its module
includes. -/
theorem order_ofModules (ms : List Module) (linked : (ofModules ms).link = .ok ()) :
    (ofModules ms).order.Nodup ∧
      (∀ p, p ∈ (ofModules ms).order ↔ p ∈ ms.map Module.path) ∧
      ∀ a b, Depends ms a b → (ofModules ms).order.idxOf b < (ofModules ms).order.idxOf a := by
  obtain ⟨sorted, complete⟩ := sorted_of_link linked
  refine ⟨sorted.distinct, fun p => ⟨fun mem => ?_, fun mem => ?_⟩, fun a b edge => ?_⟩
  · exact contains_ofModules.mp (sorted.known p mem)
  · exact complete p (contains_ofModules.mpr mem)
  · rw [← includes_ofModules] at edge
    exact idxOf_lt_of_link linked edge

/-- Two ways lead from the first module to the last, which is added twice. -/
def diamond : List Module :=
  [⟨"a", {}, ["b", "c", "b"], [], []⟩, ⟨"d", {}, ["a"], [], []⟩, ⟨"b", {}, ["d"], [], []⟩,
    ⟨"c", {}, ["d"], [], []⟩, ⟨"d", {}, [], [], []⟩]

theorem order_diamond :
    (ofModules diamond).link = .ok () ∧ (ofModules diamond).order = ["d", "b", "c", "a"] ∧
      Depends diamond "a" "c" ∧
      (ofModules diamond).order.idxOf "c" < (ofModules diamond).order.idxOf "a" := by
  have linked : (ofModules diamond).link = .ok () := by decide +kernel
  have edge : Depends diamond "a" "c" := ⟨_, rfl, by decide⟩
  exact ⟨linked, by decide +kernel, edge, (order_ofModules diamond linked).2.2 "a" "c" edge⟩

end BitSchema.ModuleGraph
