import BitSchema.Proofs.ClearWays

/-!
# Output files

Writing the files of a response changes only what lies inside the output directory, going by the
elements of paths, and makes the directories around it (`Writing.Step`).  The paths of a response
are checked first, so their elements are names, and paths that differ mean different files.

Links can lead elsewhere.  Where there are none below the output directory, each file is in its
place afterwards and nothing else is changed (`Response.write_confined`).
-/

namespace BitSchema

open List BitSchema.Path

namespace Path

section

variable {path dir q : String}

/-- The directories made for a path lie on the way to it. -/
theorem of_mem_parents (mem : q ∈ FileTree.parents path) :
    isAbsolute q = isAbsolute path ∧ cleanElements q <+: cleanElements path := by
  have tidy := tidy_cleanElements path
  rcases mem_append.mp mem with inner | last
  · obtain ⟨i, below, rfl⟩ := mem_map.mp inner
    rw [mem_range] at below
    have start := take_prefix (i + 1) (cleanElements path)
    have some : (cleanElements path).take (i + 1) ≠ [] := by
      intro none
      simp only [take_eq_nil_iff] at none
      grind
    have same : (if isAbsolute path then "/" else "") ++
        "/".intercalate ((cleanElements path).take (i + 1)) =
          ofElements (isAbsolute path) ((cleanElements path).take (i + 1)) := by
      cases isAbsolute path <;> simp [ofElements, some]
    have tidyStart := tidy.of_prefix start
    rw [same, isAbsolute_append tidyStart.ofElements_ne_empty,
      cleanElements_slash tidyStart.ofElements_ne_empty, tidyStart.isAbsolute_eq,
      tidyStart.cleanElements_eq]
    exact ⟨rfl, start⟩
  · rw [mem_singleton.mp last, tidy.isAbsolute_eq, tidy.cleanElements_eq]
    exact ⟨rfl, prefix_rfl⟩

/-- A path strictly inside a directory, going by its elements. -/
def Inside (dir path : String) : Prop :=
  isAbsolute path = isAbsolute dir ∧ ∃ names, names ≠ [] ∧ (∀ name ∈ names, IsName name) ∧
    cleanElements path = cleanElements dir ++ names

/-- A directory or one around it, going by the elements. -/
def Around (dir path : String) : Prop :=
  isAbsolute path = isAbsolute dir ∧ cleanElements path <+: cleanElements dir

/-- What lies on the way to a path inside a directory is around the directory or inside it. -/
theorem Inside.of_above (inside : Inside dir path) (same : isAbsolute q = isAbsolute path)
    (above : cleanElements q <+: cleanElements path) : Around dir q ∨ Inside dir q := by
  obtain ⟨absolute, names, -, areNames, split⟩ := inside
  rw [split] at above
  rcases prefix_or_prefix_of_prefix above (prefix_append _ _) with start | ⟨more, onward⟩
  · exact .inl ⟨same.trans absolute, start⟩
  · rw [← onward, prefix_append_right_inj] at above
    by_cases none : more = []
    · exact .inl ⟨same.trans absolute, by rw [← onward, none, append_nil]⟩
    · exact .inr ⟨same.trans absolute, more, none, fun name mem => areNames name (above.subset mem),
        onward.symm⟩

end

end Path

/-! ## One file -/

namespace FileTree

variable {s t t' : FileTree} {path : String} {content : ByteArray}

/-- A directory that is made was there or is new, and nothing else is changed. -/
theorem makeDirectory_ok (ok : t.makeDirectory path = .ok t') :
    t' = t ∨ ∃ place, t.node? place = none ∧ t' = t.put place .directory := by
  unfold makeDirectory at ok
  split at ok
  · exact .inl (Except.ok.inj ok).symm
  · cases ok
  · split at ok
    · cases ok
    next place _ =>
      split at ok
      · cases ok
      next nothing => exact .inr ⟨place, nothing, (Except.ok.inj ok).symm⟩

/-- A file is written over nothing or over a file. -/
theorem writeFile_ok (ok : t.writeFile path content = .ok t') :
    ∃ place executable, t.writePlace? path = .ok place ∧
      (∀ old, t.node? place = some old → old.isRegular = true) ∧
      t' = t.put place (.file content executable) := by
  unfold writeFile at ok
  split at ok
  · cases ok
  next place found =>
    refine ⟨place, ?_⟩
    split at ok
    next executable there =>
      exact ⟨executable, found, by simp [there, FileNode.isRegular], (Except.ok.inj ok).symm⟩
    · cases ok
    next nothing => exact ⟨false, found, by simp [nothing], (Except.ok.inj ok).symm⟩

variable {links : Nat} {dir place : Place} {names : List String}

theorem inside_of_walk {follow : Bool} (some : names ≠ [])
    (ok : t.walk follow links dir names = .ok place) : t.isDirectoryAt dir = true := by
  obtain ⟨name, rest, rfl⟩ := exists_cons_of_ne_nil some
  by_contra outside
  rw [walk, if_pos (by simpa using outside)] at ok
  cases ok

/-- A path of names below another leads on from where the other leads. -/
theorem place?_split {rooted : Bool} {base : List String}
    (tidy : Tidy rooted (base ++ names)) (some : names ≠ [])
    (found : t.place? true (ofElements rooted (base ++ names)) = .ok place) :
    ∃ root links, t.place? true (ofElements rooted base) = .ok root ∧
      t.isDirectoryAt root = true ∧ t.walk true links root names = .ok place := by
  have null : hasNull (ofElements rooted (base ++ names)) = false := by
    by_contra null
    rw [place?, if_neg tidy.ofElements_ne_empty, if_pos (by simpa using null)] at found
    cases found
  rw [(place?_ofElements tidy null (by simp [some])).1] at found
  obtain ⟨reached, onward, before⟩ :=
    walk_split t linkLimit (if rooted then [] else t.here) base
  obtain ⟨mid, among, rest⟩ := (onward true names place some).mp found
  have start := before mid among
  have inside := inside_of_walk some rest
  have nullBase : hasNull (ofElements rooted base) = false := by
    by_cases none : base = []
    · subst none
      cases rooted <;> decide
    · rw [ofElements_append none some] at null
      simp only [hasNull, contains_eq_mem, decide_eq_false_iff_not] at null ⊢
      exact fun mem => null (by simp [mem])
  refine ⟨mid.1, mid.2, ?_, inside, rest⟩
  rw [(place?_ofElements (tidy.of_prefix (prefix_append base names)) nullBase ?_).1, start]
  rintro rfl
  rw [walk] at start
  rw [Except.ok.inj start, inside]

/-- Without links, names lead to the place that they spell. -/
theorem eq_append_of_walk (areNames : ∀ name ∈ names, IsName name)
    (solid : ∀ before, before <+: names → before ≠ [] → ∀ target, t.node? (dir ++ before) ≠ some
      (.link target)) (ok : t.walk true links dir names = .ok place) : place = dir ++ names := by
  induction names generalizing dir with
  | nil =>
    rw [walk] at ok
    rw [append_nil, Except.ok.inj ok]
  | cons name names ih =>
    obtain ⟨here, later⟩ := forall_mem_cons.mp areNames
    have inside := inside_of_walk (cons_ne_nil name names) ok
    have split : dir ++ name :: names = dir ++ [name] ++ names := by simp
    have solidHere := solid [name] (by simp) (by simp)
    have solidBelow : ∀ before, before <+: names → before ≠ [] → ∀ target,
        t.node? (dir ++ [name] ++ before) ≠ some (.link target) := fun before start _ => by
      simpa using solid (name :: before) (by simpa using start) (by simp)
    rw [walk, if_neg (by simp [inside]), if_neg (by simp [here.ne_empty, here.ne_dot]),
      if_neg here.ne_dots] at ok
    rw [split]
    split at ok
    · cases ok
    · dsimp only at ok
      split at ok
      · split at ok
        next last => simp_all
        · cases ok
      next target there => exact absurd there (solidHere target)
      · exact ih later solidBelow ok

end FileTree

namespace Writing

open FileTree

/-- A change that makes a directory around another or inside it, or writes a file inside it. -/
inductive Step (dir : String) (t t' : FileTree) : Prop where
  | directory (path : String) : Around dir path ∨ Inside dir path →
    t.makeDirectory path = .ok t' → Step dir t t'
  | file (path : String) (content : ByteArray) : Inside dir path →
    t.writeFile path content = .ok t' → Step dir t t'

/-- What has been written leaves behind: each file is where its path leads, though of files that
lead to one place only one can be there, and nothing else that was there is changed. -/
structure Stored (dir : String) (s t : FileTree) (files : List (String × String)) : Prop where
  grows : Grows s t
  found : ∀ f ∈ files, ∃ place content executable,
    t.place? true (join [dir, f.1]) = .ok place ∧
    t.node? place = some (.file content executable) ∧
    ((∀ g ∈ files, g ≠ f → t.place? true (join [dir, g.1]) ≠ .ok place) → content = f.2.toUTF8)
  others : ∀ q node, s.node? q = some node →
    (∀ f ∈ files, t.place? true (join [dir, f.1]) ≠ .ok q) → t.node? q = some node

section

variable {s t u : FileTree} {dir path : String} {paths : List String} {f : String × String}
  {files : List (String × String)}

/-- A file and then others have been written. -/
theorem Stored.cons (first : Stored dir s t [f]) (rest : Stored dir t u files) (fresh : f ∉ files) :
    Stored dir s u (f :: files) := by
  obtain ⟨place, content, executable, found, there, own⟩ := first.found f mem_cons_self
  obtain rfl := own (by simp)
  have kept := rest.grows.place? found
  refine ⟨first.grows.trans rest.grows, forall_mem_cons.mpr ⟨?_, fun g mem => ?_⟩,
    fun q node before apart => ?_⟩
  · rcases rest.grows.kept place _ there with same | ⟨-, content, executable, changed⟩
    · exact ⟨place, _, executable, kept, same, fun _ => rfl⟩
    · refine ⟨place, content, executable, kept, changed, fun apart => ?_⟩
      have same := rest.others place _ there fun g mem => apart g (mem_cons_of_mem f mem)
        (ne_of_mem_of_not_mem mem fresh)
      rw [changed] at same
      cases same
      rfl
  · obtain ⟨place, content, executable, found, there, own⟩ := rest.found g mem
    exact ⟨place, content, executable, found, there, fun apart =>
      own fun h mem => apart h (mem_cons_of_mem f mem)⟩
  · obtain ⟨here, later⟩ := forall_mem_cons.mp apart
    refine rest.others q node (first.others q node before ?_) later
    rw [forall_mem_singleton]
    exact fun leads => here (rest.grows.place? leads)

/-- By induction on the paths: up to a failure, directories are made where there is nothing. -/
theorem makeEach_run (allowed : ∀ path ∈ paths, Around dir path ∨ Inside dir path)
    (s : FileTree) :
    let t := (outcome (makeEach paths) s).2
    Relation.ReflTransGen (Step dir) s t ∧ Stored dir s t [] := by
  have none : ∀ s, Stored dir s s [] := fun s => ⟨.refl s, by simp, fun _ _ there _ => there⟩
  induction paths generalizing s with
  | nil => exact ⟨.refl, none s⟩
  | cons path paths ih =>
    obtain ⟨here, later⟩ := forall_mem_cons.mp allowed
    rw [makeEach, outcome_bind, outcome_ofStep]
    cases made : s.makeDirectory path with
    | error cause => exact ⟨.refl, none s⟩
    | ok next =>
      obtain ⟨steps, rest⟩ := ih later next
      refine ⟨.head (.directory path here made) steps, ?_⟩
      rcases makeDirectory_ok made with rfl | ⟨place, nothing, rfl⟩
      · exact rest
      · obtain ⟨below, grows⟩ := @grows_put s place .directory (by simp) (by simp [nothing])
        refine ⟨grows.trans rest.grows, by simp, fun q node there _ => ?_⟩
        refine rest.others q node ?_ (by simp)
        rw [node?_put below, if_neg, there]
        rintro rfl
        simp [nothing] at there

/-- What is known of the path that a file is written to. -/
structure Target (dir path : String) : Prop where
  inside : Inside dir path
  endsInSlash : endsInSlash path = false
  absolute : isAbsolute (Path.dir path) = isAbsolute path
  above : cleanElements (Path.dir path) <+: cleanElements path

/-- The path of a checked key lies inside the output directory. -/
theorem target_join {key : String} (some : dir ≠ "")
    (names : ∀ name ∈ elements key, IsName name) : Target dir (join [dir, key]) := by
  have tidyDir := tidy_cleanElements dir
  have tidy := tidyDir.append names
  have split := join_names some names
  obtain ⟨front, last, concat⟩ := eq_nil_or_concat (elements key) |>.resolve_left
    (by simp [elements, splitOn_ne_nil])
  rw [concat_eq_append] at concat
  have isName := names last (by simp [concat])
  have tidyFront : Tidy _ (cleanElements dir ++ front) :=
    tidyDir.append fun name mem => names name (by simp [concat, mem])
  have whole : join [dir, key] = ofElements (isAbsolute dir)
      (cleanElements dir ++ front ++ [last]) := by
    rw [split, concat, append_assoc]
  have around := dir_ofElements tidyFront isName.slash
  refine ⟨⟨?_, _, ?_, names, ?_⟩, ?_, ?_, ?_⟩
  · rw [split, tidy.isAbsolute_eq]
  · simp [concat]
  · rw [split, tidy.cleanElements_eq]
  · rw [whole, endsInSlash_ofElements isName]
  · rw [whole, around, tidyFront.isAbsolute_eq, ← whole, split, tidy.isAbsolute_eq]
  · rw [whole, around, tidyFront.cleanElements_eq, ← whole, split, tidy.cleanElements_eq, concat,
      ← append_assoc]
    exact prefix_append _ _

/-- Writing one file makes the directories for it and then the file, as far as it comes. -/
theorem one_run (target : Target dir (join [dir, f.1])) (s : FileTree) :
    let out := outcome (one OutputStore.tree (join [dir, f.1]) f.2) s
    Relation.ReflTransGen (Step dir) s out.2 ∧
      Stored dir s out.2 (if out.1.isOk then [f] else []) := by
  have allowed : ∀ q ∈ parents (Path.dir (join [dir, f.1])),
      Around dir q ∨ Inside dir q := by
    intro q mem
    obtain ⟨same, above⟩ := of_mem_parents mem
    exact target.inside.of_above (same.trans target.absolute) (above.trans target.above)
  obtain ⟨steps, kept⟩ := makeEach_run allowed s
  rw [one_tree, makeDirectories, outcome_bind]
  generalize outcome (makeEach (parents (Path.dir (join [dir, f.1])))) s = made at *
  rcases made with ⟨cause | done, t⟩
  · exact ⟨steps, kept⟩
  · dsimp only at steps kept ⊢
    rw [outcome_ofStep]
    cases wrote : t.writeFile (join [dir, f.1]) f.2.toUTF8 with
    | error cause => exact ⟨steps, kept⟩
    | ok u =>
      obtain ⟨place, executable, found, files, rfl⟩ := writeFile_ok wrote
      rw [writePlace?, if_neg (by simp [target.endsInSlash])] at found
      obtain ⟨below, more⟩ := @grows_put t place (.file f.2.toUTF8 executable) (by simp)
        (fun old there => ⟨files old there, rfl⟩)
      have found := more.place? found
      refine ⟨steps.tail (.file _ _ target.inside wrote), kept.grows.trans more, ?_, ?_⟩
      · refine forall_mem_singleton.mpr ⟨place, _, executable, found, ?_, fun _ => rfl⟩
        rw [node?_put below, if_pos rfl]
      · intro q node there apart
        rw [node?_put below, if_neg, kept.others q node there (by simp)]
        rintro rfl
        exact apart f mem_cons_self found

/-- Where no links lead away, a file is where its key says, below where the directory is. -/
theorem Stored.below (stored : Stored dir s t files) (given : dir ≠ "") (mem : f ∈ files)
    (names : ∀ name ∈ elements f.1, IsName name) :
    ∃ root, t.place? true (clean dir) = .ok root ∧ t.isDirectoryAt root = true ∧
      ((∀ names, names <+: elements f.1 → names ≠ [] →
          ∀ target, s.node? (root ++ names) ≠ some (.link target)) →
        t.place? true (join [dir, f.1]) = .ok (root ++ elements f.1)) := by
  obtain ⟨place, -, -, found, -⟩ := stored.found f mem
  rw [join_names given names] at found ⊢
  obtain ⟨root, links, clean, inside, walk⟩ := place?_split ((tidy_cleanElements dir).append names)
    (by simp [elements, splitOn_ne_nil]) found
  refine ⟨root, clean, inside, fun solid => ?_⟩
  rw [found, eq_append_of_walk names (fun before start some target there =>
    solid before start some target (stored.grows.link _ _ there)) walk]

/-- No file is on the way to another. -/
theorem Stored.not_prefix {g : String × String} (stored : Stored dir s t files) (given : dir ≠ "")
    (mem : f ∈ files) (mem' : g ∈ files)
    (names : ∀ name ∈ elements g.1, IsName name) {more : List String} (some : more ≠ []) :
    elements g.1 ≠ elements f.1 ++ more := by
  intro way
  obtain ⟨place, content, executable, found, there, -⟩ := stored.found f mem
  obtain ⟨_, _, _, further, -⟩ := stored.found g mem'
  have tidy := (tidy_cleanElements dir).append names
  rw [join_names given (fun name among => names name (by simp [way, among]))] at found
  rw [join_names given names] at further
  rw [way, ← append_assoc] at further tidy
  obtain ⟨root, links, here, inside, -⟩ := place?_split tidy some further
  obtain rfl : place = root := Except.ok.inj (found.symm.trans here)
  rw [isDirectoryAt_iff, there] at inside
  cases inside

/-- The files are written one after the other, up to the first that fails. -/
theorem run_all {σ : Type} (store : OutputStore σ) (dir : String) (f : String × String)
    (files : List (String × String)) (s : σ) :
    (all store dir (f :: files)).run s =
      let one := outcome (one store (join [dir, f.1]) f.2) s
      let rest := (all store dir files).run one.2
      match one.1 with
      | .error cause => ({ error? := some (.file cause) }, one.2)
      | .ok _ => ({ rest.1 with written := join [dir, f.1] :: rest.1.written }, rest.2) := by
  have same : StateT.run (one store (join [dir, f.1]) f.2).run s =
      outcome (one store (join [dir, f.1]) f.2) s := rfl
  rw [all, StateT.run_bind, same]
  rcases outcome (one store (join [dir, f.1]) f.2) s with ⟨cause | done, t⟩ <;> rfl

/-- By induction on the files: those before the first that fails are written. -/
theorem all_run (given : dir ≠ "") (distinct : files.Nodup)
    (names : ∀ f ∈ files, ∀ name ∈ elements f.1, IsName name) (s : FileTree) :
    let out := (all OutputStore.tree dir files).run s
    Relation.ReflTransGen (Step dir) s out.2 ∧ ∃ done rest, files = done ++ rest ∧
      out.1.written = done.map (fun f => join [dir, f.1]) ∧
      (out.1.error? = none ↔ rest = []) ∧ Stored dir s out.2 done := by
  induction files generalizing s with
  | nil =>
    exact ⟨.refl, [], [], rfl, rfl, ⟨fun _ => rfl, fun _ => rfl⟩, .refl s, by simp,
      fun _ _ there _ => there⟩
  | cons f files ih =>
    obtain ⟨here, later⟩ := forall_mem_cons.mp names
    obtain ⟨fresh, distinct⟩ := nodup_cons.mp distinct
    obtain ⟨steps, stored⟩ := one_run (target_join given here) s
    rw [run_all]
    generalize outcome (one OutputStore.tree (join [dir, f.1]) f.2) s = wrote at *
    rcases wrote with ⟨cause | _, t⟩
    · exact ⟨steps, [], f :: files, rfl, rfl, by simp, stored⟩
    · obtain ⟨moreSteps, done, rest, rfl, written, ended, storedRest⟩ := ih distinct later t
      refine ⟨steps.trans moreSteps, f :: done, rest, rfl, ?_, ended, ?_⟩
      · rw [map_cons, ← written]
      · exact stored.cons storedRest fun mem => fresh (mem_append_left rest mem)

/-- By induction on the files: the ways to the later ones stay clear. -/
theorem all_clear (given : dir ≠ "") (inside : s.node? (s.startOf dir) = some .directory)
    (clear : ∀ f ∈ files, s.Clear (s.startOf dir) (cleanElements dir ++ elements f.1))
    (apart : ∀ f ∈ files, ∀ g ∈ files, elements f.1 <+: elements g.1 →
      elements f.1 = elements g.1) :
    ((all OutputStore.tree dir files).run s).1.error? = none := by
  induction files generalizing s with
  | nil => rfl
  | cons f files ih =>
    obtain ⟨here, later⟩ := forall_mem_cons.mp clear
    have names : ∀ name ∈ elements f.1, IsName name := fun name mem =>
      (here.entries name (mem_append_right _ mem)).toIsName
    obtain ⟨t, wrote, filed⟩ := @succeeds_one s (s.startOf dir) _ (isAbsolute dir) f.2 rfl inside
      here (by simp [elements, splitOn_ne_nil])
    rw [← join_names given names] at wrote
    have start : t.startOf dir = s.startOf dir := by rw [startOf, startOf, filed.here]
    have still : t.node? (t.startOf dir) = some .directory := by
      have root := filed.above [] nil_prefix (by simp [elements, splitOn_ne_nil])
      rwa [append_nil, ← start] at root
    rw [run_all, show outcome _ s = _ from wrote]
    refine ih still (fun g mem => ?_) fun g mem h mem' =>
      apart g (mem_cons_of_mem f mem) h (mem_cons_of_mem f mem')
    have both := And.intro (apart f mem_cons_self g (mem_cons_of_mem f mem))
      (apart g (mem_cons_of_mem f mem) f mem_cons_self)
    rw [start]
    refine filed.clear (later g mem) ?_ ?_ <;> rw [prefix_append_right_inj, append_cancel_left_eq]
    · exact both.2
    · exact both.1

end

end Writing

/-! ## Whole responses -/

/-- The elements of a path that passes the check are names. -/
theorem isName_of_checkOutputPath {path name : String} (ok : checkOutputPath path = .ok ())
    (mem : name ∈ elements path) : IsName name := by
  have sound : outputPathFault? path = none := by
    unfold checkOutputPath at ok
    split at ok
    · cases ok
    · assumption
  unfold outputPathFault? at sound
  split at sound
  · cases sound
  · split at sound
    · cases sound
    · have part := findSome?_eq_none_iff.mp sound name mem
      simp only [outputPartFault?, ite_eq_right_iff, reduceCtorEq, imp_false, not_or] at part
      exact ⟨part.1, part.2.1, part.2.2, slash_not_mem_of_mem_elements mem⟩

theorem Path.intercalate_elements (path : String) : "/".intercalate (elements path) = path := by
  apply String.toList_injective
  rw [String.toList_intercalate, elements, map_map]
  simp [Function.comp_def, intercalate_splitOn]

namespace Response

open FileTree Writing

variable {r : Response}

theorem mem_sorted {f : String × String} : f ∈ r.sorted ↔ f ∈ r.files := mem_mergeSort

/-- All paths of a response have to pass the check. -/
theorem check_eq_ok_iff : r.check = .ok () ↔ ∀ f ∈ r.files, checkOutputPath f.1 = .ok () := by
  have all : ∀ paths : List String, paths.forM checkOutputPath = .ok () ↔
      ∀ path ∈ paths, checkOutputPath path = .ok () := by
    intro paths
    induction paths with
    | nil => simp [pure, Except.pure]
    | cons path paths ih =>
      rw [forM_eq_forM, forM_cons, bind_ok_iff]
      simp [← ih]
  rw [check, all, paths]
  simp [mem_sorted]

variable {dir : String} {t : FileTree}

/-- One path that does not pass keeps everything from being written. -/
theorem write_of_rejected (given : dir ≠ "") (files : r.files ≠ [])
    (rejected : ∃ f ∈ r.files, checkOutputPath f.1 ≠ .ok ()) :
    let out := (r.write OutputStore.tree dir).run t
    out.1.error? ≠ none ∧ out.2 = t := by
  obtain ⟨f, mem, rejected⟩ := rejected
  rw [write, if_neg given, if_neg (by simpa using files)]
  cases checked : r.check with
  | ok => exact absurd (check_eq_ok_iff.mp checked f mem) rejected
  | error cause => exact ⟨Option.some_ne_none cause, rfl⟩

/-- What is written is the first of the files in their order, and all of them if there is no
error. -/
theorem write_of_accepted (given : dir ≠ "") (files : r.files ≠ [])
    (distinct : (r.files.map Prod.fst).Nodup)
    (accepted : ∀ f ∈ r.files, checkOutputPath f.1 = .ok ()) (t : FileTree) :
    let out := (r.write OutputStore.tree dir).run t
    Relation.ReflTransGen (Writing.Step dir) t out.2 ∧ ∃ done rest, r.sorted = done ++ rest ∧
      out.1.written = done.map (fun f => join [dir, f.1]) ∧
      (out.1.error? = none ↔ rest = []) ∧ Writing.Stored dir t out.2 done := by
  have once : r.sorted.Nodup := (mergeSort_perm ..).nodup_iff.mpr distinct.of_map
  rw [write, if_neg given, if_neg (by simpa using files), check_eq_ok_iff.mpr accepted]
  exact Writing.all_run given once (fun f mem name =>
    isName_of_checkOutputPath (accepted f (mem_sorted.mp mem))) t

/-- Files are written up to the first that fails, and stay.  There is an error if one file is on the
way to another, and only then if nothing else is in the way.  A directory that was not there is left
alone only if no file is written. -/
theorem write_interrupted (t : FileTree) (given : dir ≠ "") (files : r.files ≠ [])
    (distinct : (r.files.map Prod.fst).Nodup)
    (fresh : ∀ root, t.place? true (clean dir) = .ok root → t.isDirectoryAt root = false) :
    let out := (r.write OutputStore.tree dir).run t
    ((∃ f ∈ r.files, checkOutputPath f.1 ≠ .ok ()) → out.1.error? ≠ none ∧ out.2 = t) ∧
    ((∀ f ∈ r.files, checkOutputPath f.1 = .ok ()) → ∃ done rest, r.sorted = done ++ rest ∧
      out.1.written = done.map (fun f => join [dir, f.1]) ∧
      (out.1.error? = none ↔ rest = []) ∧ (done ≠ [] → out.2 ≠ t) ∧
      (∀ f ∈ done, out.2.isRegular (join [dir, f.1]) = true) ∧
      ((∃ f ∈ r.files, ∃ g ∈ r.files, f ≠ g ∧ elements f.1 <+: elements g.1) → rest ≠ []) ∧
      (t.isDirectoryAt (t.startOf dir) = true →
        (∀ f ∈ r.files, t.Clear (t.startOf dir) (cleanElements dir ++ elements f.1)) →
        (∀ f ∈ r.files, ∀ g ∈ r.files, elements f.1 <+: elements g.1 → f = g) →
        rest = [])) := by
  intro out
  refine ⟨write_of_rejected given files, fun accepted => ?_⟩
  obtain ⟨-, done, rest, split, written, ended, stored⟩ :=
    write_of_accepted given files distinct accepted t
  have among : ∀ f ∈ done, f ∈ r.files :=
    fun f mem => mem_sorted.mp (split ▸ mem_append_left rest mem)
  have names : ∀ f ∈ r.files, ∀ name ∈ elements f.1, IsName name :=
    fun f mem name => isName_of_checkOutputPath (accepted f mem)
  refine ⟨done, rest, split, written, ended, fun some same => ?_, fun f mem => ?_, ?_,
    fun inside clear apart => ended.mp ?_⟩
  · obtain ⟨f, mem⟩ := exists_mem_of_ne_nil _ some
    obtain ⟨root, found, inside, -⟩ := stored.below given mem (names f (among f mem))
    rw [same] at found inside
    simp [fresh root found] at inside
  · obtain ⟨place, content, executable, found, there, -⟩ := stored.found f mem
    simp [out, FileTree.isRegular, stat, look, found, there, FileNode.isRegular]
  · rintro ⟨f, mem, g, mem', other, more, way⟩ rfl
    rw [append_nil] at split
    rw [← mem_sorted, split] at mem mem'
    refine stored.not_prefix given mem mem' (names g (among g mem')) ?_ way.symm
    rintro rfl
    rw [append_nil] at way
    refine other (inj_on_of_nodup_map distinct (among f mem) (among g mem') ?_)
    rw [← intercalate_elements f.1, way, intercalate_elements]
  · rw [write, if_neg given, if_neg (by simpa using files), check_eq_ok_iff.mpr accepted]
    refine all_clear given (isDirectoryAt_iff.mp inside) (fun f mem => clear f (mem_sorted.mp mem))
      fun f mem g mem' way => ?_
    rw [apart f (mem_sorted.mp mem) g (mem_sorted.mp mem') way]

theorem write_interrupted_below :
    let out := (Response.write OutputStore.tree "gen" ⟨[("a", "1"), ("a/b", "2")]⟩).run {}
    out.1.error? ≠ none := by
  have texts : clean "gen" = "gen" ∧ elements "a" <+: elements "a/b" ∧
      ∀ key ∈ ["a", "a/b"], checkOutputPath key = .ok () := by decide
  have place : place? {} true "gen" = .ok ["gen"] := by cbv
  obtain ⟨-, accepted⟩ := @write_interrupted ⟨[("a", "1"), ("a/b", "2")]⟩ "gen" {} (by decide)
    (by simp) (by decide) fun root found => by
      rw [texts.1, place] at found
      cases found
      rfl
  obtain ⟨done, rest, -, -, ended, -, -, failed, -⟩ := accepted (by simpa using texts.2.2)
  rw [Ne, ended]
  exact failed ⟨("a", "1"), by simp, ("a/b", "2"), by simp, by simp, texts.2.1⟩

/-- The first file stays although the second, which would lie below it, fails. -/
theorem write_leaves_first :
    let out := (Response.write OutputStore.tree "gen" ⟨[("a", "1"), ("a/b", "2")]⟩).run {}
    (∀ key ∈ ["a", "a/b"], checkOutputPath key = .ok ()) ∧ out.1.error? ≠ none ∧
      out.1.written = ["gen/a"] ∧ out.2.node? ["gen", "a"] = some (.file "1".toUTF8 false) := by
  have run : (Response.write OutputStore.tree "gen" ⟨[("a", "1"), ("a/b", "2")]⟩).run {} =
      ({ written := ["gen/a"], error? := some (.file (.on "mkdir" "gen/a" .notDirectory)) },
        ⟨[(["gen", "a"], .file "1".toUTF8 false), (["gen"], .directory)], []⟩) := by cbv
  rw [run]
  exact ⟨by decide, by simp, rfl, rfl⟩

end Response

end BitSchema
