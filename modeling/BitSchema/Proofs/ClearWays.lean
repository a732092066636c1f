import BitSchema.Plugin.Output
import BitSchema.Proofs.Outcome
import BitSchema.Proofs.TreeGrowth

/-!
# Clear ways

A way through a tree is clear if there are directories or nothing on it, and a file or nothing at
its end.  The directories that are missing on a clear way can be made and the file can be written
(`succeeds_one`), and other ways stay clear unless one is part of the other.  So files that do not
lie on the way to each other are all written.
-/

namespace BitSchema

open List BitSchema.Path

namespace FileTree

variable {s t u : FileTree} {start dir : Place} {names : List String} {name : String}
  {follow rooted : Bool} {links : Nat}

/-- There are directories or nothing on the way to a file, and a file or nothing at its end. -/
structure Clear (t : FileTree) (start : Place) (names : List String) : Prop where
  entries : ∀ name ∈ names, IsEntryName name
  above : ∀ q, q <+: names → q ≠ names → ∀ node, t.node? (start ++ q) = some node →
    node = .directory
  file : ∀ node, t.node? (start ++ names) = some node → node.isRegular = true

/-- All directories on a way have been made, and nothing else has changed. -/
structure Paved (s t : FileTree) (start : Place) (names : List String) : Prop where
  here : t.here = s.here
  directory : ∀ q, q <+: names → t.node? (start ++ q) = some .directory
  others : ∀ place, (∀ q, q <+: names → place ≠ start ++ q) → t.node? place = s.node? place

/-- A way can be paved in two parts. -/
theorem Paved.trans {more : List String} (first : Paved s t start names)
    (second : Paved t u start (names ++ more)) : Paved s u start (names ++ more) where
  here := second.here.trans first.here
  directory := second.directory
  others place apart := by
    rw [second.others place apart]
    exact first.others place fun q below => apart q (below.trans (prefix_append names more))

/-- What comes next on a way is as free as it was. -/
theorem Paved.fresh (paved : Paved s t start names)
    (free : ∀ q, q <+: names ++ [name] → ∀ node, s.node? (start ++ q) = some node →
      node = .directory) :
    ∀ node, t.node? (start ++ (names ++ [name])) = some node → node = .directory := by
  rw [paved.others _ fun q below same => ?_]
  · exact free _ prefix_rfl
  · have longer := below.length_le
    rw [← append_cancel_left same] at longer
    simp at longer

/-! ## Ways of names -/

section

variable (directories : ∀ q, q <+: names → t.node? (dir ++ q) = some .directory)

include directories

/-- Names of directories lead on as they are written. -/
theorem walk_names (entries : ∀ name ∈ names, IsEntryName name) (rest : List String) :
    t.walk follow links dir (names ++ rest) = t.walk follow links (dir ++ names) rest := by
  induction names generalizing dir with
  | nil => rw [nil_append, append_nil]
  | cons name names ih =>
    obtain ⟨here, later⟩ := forall_mem_cons.mp entries
    have inside : t.isDirectoryAt dir = true :=
      isDirectoryAt_iff.mpr (by simpa using directories [] nil_prefix)
    have onward := @ih (dir ++ [name]) (fun q below => by
      simpa using directories (name :: q) (by simpa using below)) later
    rw [append_assoc, singleton_append] at onward
    rw [cons_append, walk, inside, ← onward]
    simp [here.ne_empty, here.ne_dot, here.ne_dots, Nat.not_lt.mpr here.short,
      directories [name] (by simp)]

/-- The last name may be of nothing. -/
theorem walk_last (entries : ∀ name ∈ names, IsEntryName name) (isName : IsEntryName name)
    (solid : ∀ target, t.node? (dir ++ names ++ [name]) ≠ some (.link target)) :
    t.walk follow links dir (names ++ [name]) = .ok (dir ++ names ++ [name]) := by
  have inside : t.isDirectoryAt (dir ++ names) = true :=
    isDirectoryAt_iff.mpr (directories names prefix_rfl)
  rw [walk_names directories entries, walk, inside]
  simp only [Bool.not_true, Bool.false_eq_true, if_false, isName.ne_empty, isName.ne_dot,
    isName.ne_dots, or_self, Nat.not_lt.mpr isName.short]
  cases there : t.node? (dir ++ names ++ [name]) with
  | none => rfl
  | some node =>
    cases node with
    | link target => exact absurd there (solid target)
    | directory | file => rw [walk]

end

/-- The path of tidy elements leads along them, with or without a slash at its end. -/
theorem place?_ofElements (tidy : Tidy rooted names)
    (null : hasNull (ofElements rooted names) = false)
    (inside : names = [] → t.isDirectoryAt (if rooted then [] else t.here) = true) :
    t.place? follow (ofElements rooted names) =
        t.walk follow linkLimit (if rooted then [] else t.here) names ∧
      t.place? follow (ofElements rooted names ++ "/") =
        t.walk follow linkLimit (if rooted then [] else t.here) (names ++ [""]) := by
  have given := tidy.ofElements_ne_empty
  have nullSlash : hasNull (ofElements rooted names ++ "/") = false := by
    simp only [hasNull, contains_eq_mem, decide_eq_false_iff_not] at null ⊢
    simpa using null
  have slashed := elements_append (ofElements rooted names) ""
  rw [String.append_empty] at slashed
  -- The empty name before the first slash and a lone dot stay where they are.
  have along : ∀ rest, t.walk follow linkLimit (if rooted then [] else t.here)
      (elements (ofElements rooted names) ++ rest) =
        t.walk follow linkLimit (if rooted then [] else t.here) (names ++ rest) := by
    intro rest
    by_cases none : names = []
    · subst none
      cases rooted with
      | true =>
        have split : elements (ofElements true []) = ["", ""] := by decide
        simp [split, walk, isDirectoryAt, node?, FileNode.isDirectory]
      | false =>
        have split : elements (ofElements false []) = ["."] := by decide
        rw [split, singleton_append, walk, inside rfl]
        simp
    · rw [elements_ofElements (fun e mem => (tidy.of_mem mem).2) none]
      cases rooted with
      | true => simp [walk, isDirectoryAt, node?, FileNode.isDirectory]
      | false => rfl
  have plain := along []
  rw [append_nil, append_nil] at plain
  constructor
  · rw [place?, if_neg given, null, if_neg (by simp), startOf, tidy.isAbsolute_eq, plain]
  · rw [place?, if_neg (by simp), nullSlash, if_neg (by simp), startOf,
      isAbsolute_append given, tidy.isAbsolute_eq, slashed]
    exact along [""]

/-- The names of entries can stand in a path. -/
theorem tidy_of_entries (entries : ∀ name ∈ names, IsEntryName name) :
    Tidy rooted names ∧ hasNull (ofElements rooted names) = false :=
  ⟨.of_names fun name mem => (entries name mem).toIsName,
    hasNull_ofElements fun name mem => (entries name mem).null⟩

/-! ## Directories on a way -/

/-- At the end of a paved way one more directory can be made. -/
theorem makeDirectory_next (starts : (if rooted then [] else t.here) = start)
    (entries : ∀ e ∈ names ++ [name], IsEntryName e)
    (paved : ∀ q, q <+: names → t.node? (start ++ q) = some .directory)
    (free : ∀ node, t.node? (start ++ (names ++ [name])) = some node → node = .directory)
    {slash : String} (slashes : slash = "" ∨ slash = "/") :
    ∃ u, t.makeDirectory (ofElements rooted (names ++ [name]) ++ slash) = .ok u ∧
      Paved t u start (names ++ [name]) := by
  obtain ⟨before, last⟩ := forall_mem_append.mp entries
  have isName := last name mem_cons_self
  have reached : ∀ follow, t.walk follow linkLimit start (names ++ [name]) =
      .ok (start ++ (names ++ [name])) := fun follow => by
    rw [← append_assoc]
    refine walk_last paved before isName fun target there => ?_
    rw [append_assoc] at there
    cases free _ there
  obtain ⟨tidy, null⟩ := @tidy_of_entries _ rooted entries
  have plain : ∀ follow, t.place? follow (ofElements rooted (names ++ [name])) =
      .ok (start ++ (names ++ [name])) := fun follow => by
    rw [(place?_ofElements tidy null (by simp)).1, starts, reached]
  have slashed := (@place?_ofElements t _ true _ tidy null (by simp)).2
  rw [starts] at slashed
  have drop := dropSlashes_append
    (@endsInSlash_ofElements rooted names name isName.toIsName) slashes
  cases there : t.node? (start ++ (names ++ [name])) with
  | some node =>
    obtain rfl := free node there
    have directories : ∀ q, q <+: names ++ [name] → t.node? (start ++ q) = some .directory := by
      intro q below
      rcases prefix_concat_iff.mp below with rfl | above
      · exact there
      · exact paved q above
    refine ⟨t, ?_, rfl, directories, fun _ _ => rfl⟩
    have found : t.place? true (ofElements rooted (names ++ [name]) ++ slash) =
        .ok (start ++ (names ++ [name])) := by
      rcases slashes with rfl | rfl
      · rw [String.append_empty, plain]
      · rw [slashed, walk_names directories entries, walk, isDirectoryAt_iff.mpr there]
        simp [walk]
    rw [makeDirectory, look, found]
    simp only [there]
  | none =>
    have missing : t.look true (ofElements rooted (names ++ [name]) ++ slash) =
        .error .notExist := by
      rcases slashes with rfl | rfl
      · rw [String.append_empty, look, plain]
        simp only [there]
      · have inside := isDirectoryAt_iff.mpr (paved names prefix_rfl)
        rw [look, slashed, append_assoc, walk_names paved before, singleton_append, walk, inside]
        simp [isName.ne_empty, isName.ne_dot, isName.ne_dots, Nat.not_lt.mpr isName.short, there]
    refine ⟨t.put (start ++ (names ++ [name])) .directory, ?_, rfl, fun q below => ?_,
      fun place apart => ?_⟩
    · rw [makeDirectory, missing, drop, plain]
      simp only [there]
    · rw [node?_put (by simp)]
      rcases prefix_concat_iff.mp below with rfl | above
      · rw [if_pos rfl]
      · rw [paved q above, ite_self]
    · rw [node?_put (by simp), if_neg (apart _ prefix_rfl)]

/-- A step that fails leaves the tree as it was. -/
theorem outcome_ofStep (step : FileTree → Except FileError FileTree) :
    outcome (Action.ofStep step) s = match step s with
      | .ok t => (.ok (), t)
      | .error e => (.error e, s) := by
  have unfolded : outcome (Action.ofStep step) s = outcome (match step s with
      | .ok t => (set t : Action Unit)
      | .error e => throw e) s := rfl
  rw [unfolded]
  cases step s <;> rfl

theorem succeeds_ofStep {step : FileTree → Except FileError FileTree} :
    Succeeds (Action.ofStep step) s () t ↔ step s = .ok t := by
  rw [Succeeds, outcome_ofStep]
  cases step s <;> simp

/-- Directories are made one after the other. -/
theorem succeeds_makeEach_append {paths more : List String} :
    Succeeds (makeEach (paths ++ more)) s () u ↔
      ∃ t, Succeeds (makeEach paths) s () t ∧ Succeeds (makeEach more) t () u := by
  induction paths generalizing s with
  | nil => simp [makeEach]
  | cons path paths ih =>
    simp only [cons_append, makeEach, succeeds_bind, exists_unit_iff, ih]
    constructor
    · rintro ⟨next, first, t, middle, last⟩
      exact ⟨t, ⟨next, first, middle⟩, last⟩
    · rintro ⟨t, ⟨next, first, middle⟩, last⟩
      exact ⟨next, first, t, middle, last⟩

/-- The paths of the places on a way, each with its own end. -/
def pathsTo (rooted : Bool) (names : List String) (ends : Nat → String) : List String :=
  (List.range names.length).map fun i => ofElements rooted (names.take (i + 1)) ++ ends i

theorem pathsTo_concat (rooted : Bool) (names : List String) (name : String) (ends : Nat → String) :
    pathsTo rooted (names ++ [name]) ends = pathsTo rooted names ends ++
      [ofElements rooted (names ++ [name]) ++ ends names.length] := by
  rw [pathsTo, pathsTo, length_append, length_singleton, range_succ, map_append, map_singleton]
  congr 1
  · refine map_congr_left fun i mem => ?_
    rw [take_append_of_le_length (mem_range.mp mem)]
  · rw [take_of_length_le (by simp)]

/-- The directories made for a path are those on the way to it, all but the last with a slash. -/
theorem parents_eq {path : String} (some : cleanElements path ≠ []) :
    parents path = pathsTo (isAbsolute path) (cleanElements path)
      fun i => if i + 1 < (cleanElements path).length then "/" else "" := by
  obtain ⟨front, last, split⟩ := (eq_nil_or_concat (cleanElements path)).resolve_left some
  rw [concat_eq_append] at split
  rw [parents, split, pathsTo_concat]
  simp only [pathsTo, length_append, length_singleton, Nat.add_sub_cancel, Nat.lt_irrefl, if_false,
    String.append_empty]
  congr 1
  refine map_congr_left fun i mem => ?_
  have below := mem_range.mp mem
  have some : front.take (i + 1) ≠ [] := by
    rw [Ne, take_eq_nil_iff]
    rintro (none | rfl)
    · cases none
    · exact Nat.not_lt_zero i below
  rw [take_append_of_le_length below]
  cases isAbsolute path <;> simp [ofElements, some, below]

section

variable (starts : (if rooted then [] else s.here) = start)
  (inside : s.node? start = some .directory) (entries : ∀ e ∈ names, IsEntryName e)
  (free : ∀ q, q <+: names → ∀ node, s.node? (start ++ q) = some node → node = .directory)

include starts inside entries free

/-- By induction on the names: each directory is made in the one made before it. -/
theorem makeEach_pathsTo {ends : Nat → String} (slashes : ∀ i, ends i = "" ∨ ends i = "/") :
    ∃ u, Succeeds (makeEach (pathsTo rooted names ends)) s () u ∧ Paved s u start names := by
  induction names using List.reverseRecOn with
  | nil =>
    refine ⟨s, succeeds_pure.mpr ⟨rfl, rfl⟩, rfl, fun q below => ?_, fun _ _ => rfl⟩
    rwa [prefix_nil.mp below, append_nil]
  | append_singleton names name ih =>
    obtain ⟨t, first, paved⟩ := ih (fun e mem => entries e (mem_append_left _ mem))
      fun q below => free q (below.trans (prefix_append _ _))
    obtain ⟨u, made, next⟩ := makeDirectory_next (paved.here ▸ starts) entries paved.directory
      (paved.fresh free) (slashes names.length)
    refine ⟨u, ?_, paved.trans next⟩
    rw [pathsTo_concat, succeeds_makeEach_append]
    exact ⟨t, first, by simp [makeEach, succeeds_ofStep, made]⟩

/-- All directories on a way are made, if there is nothing else on it. -/
theorem makeDirectories_free :
    ∃ u, Succeeds (makeDirectories (ofElements rooted names)) s () u ∧
      Paved s u start names := by
  have tidy := (@tidy_of_entries _ rooted entries).1
  have same := And.intro (@Tidy.isAbsolute_eq _ _ tidy) tidy.cleanElements_eq
  by_cases none : names = []
  · subst none
    have alone : parents (ofElements rooted []) = [ofElements rooted []] := by
      cases rooted <;> decide
    have made : s.makeDirectory (ofElements rooted []) = .ok s := by
      rw [makeDirectory, look, (place?_ofElements tidy (by cases rooted <;> decide) fun _ =>
        isDirectoryAt_iff.mpr (starts ▸ inside)).1, starts, walk]
      simp only [inside]
    refine ⟨s, ?_, rfl, fun q below => ?_, fun _ _ => rfl⟩
    · rw [makeDirectories, alone]
      simp [makeEach, succeeds_ofStep, made]
    · rwa [prefix_nil.mp below, append_nil]
  · rw [makeDirectories, parents_eq (by rwa [same.2]), same.1, same.2]
    exact makeEach_pathsTo starts inside entries free fun i => by split <;> simp

end

/-- A file has been written, and directories have been made on the way to it. -/
structure Filed (s t : FileTree) (start : Place) (names : List String) : Prop where
  here : t.here = s.here
  above : ∀ q, q <+: names → q ≠ names → t.node? (start ++ q) = some .directory
  file : ∃ content executable, t.node? (start ++ names) = some (.file content executable)
  others : ∀ place, (∀ q, q <+: names → place ≠ start ++ q) → t.node? place = s.node? place

/-- Nothing is changed off the way. -/
theorem Filed.apart (filed : Filed s t start names) {q : List String} (apart : ¬ q <+: names) :
    t.node? (start ++ q) = s.node? (start ++ q) :=
  filed.others _ fun p way same => apart (by rwa [append_cancel_left same])

/-- A way stays clear, if neither way is the start of the other. -/
theorem Filed.clear {other : List String} (filed : Filed s t start names)
    (clear : s.Clear start other) (before : other <+: names → other = names)
    (behind : names <+: other → names = other) : t.Clear start other := by
  refine ⟨clear.entries, fun q below short node there => ?_, fun node there => ?_⟩
  · by_cases shared : q <+: names
    · by_cases same : q = names
      · exact absurd (same.trans (behind (same ▸ below))) short
      · rw [filed.above q shared same] at there
        exact (Option.some.inj there).symm
    · rw [filed.apart shared] at there
      exact clear.above q below short node there
  · by_cases shared : other <+: names
    · obtain ⟨content, executable, file⟩ := filed.file
      rw [before shared, file] at there
      rw [← Option.some.inj there]
      rfl
    · rw [filed.apart shared] at there
      exact clear.file node there

end FileTree

theorem Writing.one_tree (path content : String) : one OutputStore.tree path content =
    FileTree.makeDirectories (dir path) >>= fun _ =>
      FileTree.Action.ofStep (·.writeFile path content.toUTF8) := by
  rw [one, OutputStore.tree]

namespace FileTree

variable {s : FileTree} {start : Place} {names : List String} {rooted : Bool}

/-- A file is written at the end of a clear way. -/
theorem succeeds_one {content : String} (starts : (if rooted then [] else s.here) = start)
    (inside : s.node? start = some .directory) (clear : s.Clear start names) (some : names ≠ []) :
    ∃ u, Succeeds (Writing.one OutputStore.tree (ofElements rooted names) content) s () u ∧
      Filed s u start names := by
  obtain ⟨front, last, rfl⟩ := eq_nil_or_concat names |>.resolve_left some
  rw [concat_eq_append] at clear ⊢
  obtain ⟨before, isLast⟩ := forall_mem_append.mp clear.entries
  have isName := isLast last mem_cons_self
  have short : ∀ q, q <+: front → q ≠ front ++ [last] := by
    rintro q below rfl
    simpa using below.length_le
  obtain ⟨t, made, paved⟩ := makeDirectories_free starts inside before fun q below =>
    clear.above q (below.trans (prefix_append _ _)) (short q below)
  obtain ⟨tidyAll, null⟩ := @tidy_of_entries _ rooted clear.entries
  have tidy := tidyAll.of_prefix (prefix_append front [last])
  have around : dir (ofElements rooted (front ++ [last])) = ofElements rooted front :=
    dir_ofElements tidy isName.slash
  have regular : ∀ node, t.node? (start ++ (front ++ [last])) = .some node →
      node.isRegular = true := by
    rw [paved.others _ fun q below same => short q below (append_cancel_left same).symm]
    exact clear.file
  have found : t.writePlace? (ofElements rooted (front ++ [last])) =
      .ok (start ++ (front ++ [last])) := by
    rw [writePlace?, endsInSlash_ofElements isName.toIsName, if_neg (by simp),
      (place?_ofElements tidyAll null (by simp)).1, paved.here, starts, ← append_assoc]
    refine walk_last paved.directory before isName fun target there => ?_
    rw [append_assoc] at there
    cases regular _ there
  obtain ⟨executable, wrote⟩ : ∃ executable,
      t.writeFile (ofElements rooted (front ++ [last])) content.toUTF8 =
        .ok (t.put (start ++ (front ++ [last])) (.file content.toUTF8 executable)) := by
    rw [writeFile, found]
    cases there : t.node? (start ++ (front ++ [last])) with
    | none => exact ⟨false, by simp only [there]⟩
    | some node =>
      cases node with
      | file old executable => exact ⟨executable, by simp only [there]⟩
      | directory | link target => cases regular _ there
  refine ⟨t.put (start ++ (front ++ [last])) (.file content.toUTF8 executable), ?_, paved.here,
    fun q below proper => ?_, ⟨content.toUTF8, executable, ?_⟩, fun place apart => ?_⟩
  · rw [Writing.one_tree, around, succeeds_bind]
    exact ⟨(), t, made, succeeds_ofStep.mpr wrote⟩
  · have above := (prefix_concat_iff.mp below).resolve_left proper
    rw [node?_put (by simp), if_neg (mt append_cancel_left (short q above)),
      paved.directory q above]
  · rw [node?_put (by simp), if_pos rfl]
  · rw [node?_put (by simp), if_neg (apart _ prefix_rfl)]
    exact paved.others place fun q below => apart q (below.trans (prefix_append _ _))

end FileTree

end BitSchema
