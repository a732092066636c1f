import BitSchema.Proofs.CanonicalPaths

/-!
# Growing trees

Making directories and writing files only adds to a tree, the contents of files apart: directories
and links stay, and no links come.  So every path goes on meaning the place that it meant before
(`Grows.place?`).

A way through a tree can be cut anywhere: the rest of it starts at the place that the first part
leads to (`walk_split`).
-/

namespace BitSchema.FileTree

open List

variable {s t u : FileTree} {place dir : Place} {node : FileNode} {follow : Bool}
  {links : Nat} {names : List String}

/-- What stands somewhere stays, though a file may get new contents; no links are added. -/
structure Grows (s t : FileTree) : Prop where
  here : t.here = s.here
  kept : ∀ place node, s.node? place = some node →
    t.node? place = some node ∨ node.isRegular = true ∧ ∃ c x, t.node? place = some (.file c x)
  link : ∀ place target, t.node? place = some (.link target) → s.node? place = some (.link target)

theorem Grows.refl (t : FileTree) : Grows t t := ⟨rfl, fun _ _ there => .inl there, fun _ _ => id⟩

theorem Grows.trans (first : Grows s t) (second : Grows t u) : Grows s u where
  here := second.here.trans first.here
  kept place node there := by
    rcases first.kept place node there with same | ⟨regular, c, x, file⟩
    · exact second.kept place node same
    · rcases second.kept place _ file with same | ⟨-, changed⟩
      · exact .inr ⟨regular, c, x, same⟩
      · exact .inr ⟨regular, changed⟩
  link place target there := first.link place target (second.link place target there)

theorem Grows.directory (grows : Grows s t) (there : s.node? place = some .directory) :
    t.node? place = some .directory :=
  (grows.kept place _ there).elim id (by simp [FileNode.isRegular])

theorem isDirectoryAt_iff : t.isDirectoryAt place = true ↔ t.node? place = some .directory := by
  rw [isDirectoryAt]
  cases t.node? place with
  | none => simp
  | some node => cases node <;> simp [FileNode.isDirectory]

theorem node?_put (below : place ≠ []) (q : Place) :
    (t.put place node).node? q = if q = place then some node else t.node? q := by
  unfold node? put
  by_cases same : q = place
  · subst same
    simp [below]
  · rw [if_neg same, find?_cons_of_neg (by simpa using Ne.symm same), find?_filter]
    congr 3
    funext entry
    by_cases here : entry.1 = q <;> simp [here, same]

theorem grows_put (solid : ∀ target, node ≠ .link target)
    (regular : ∀ old, t.node? place = some old → old.isRegular = true ∧ node.isRegular = true) :
    place ≠ [] ∧ Grows t (t.put place node) := by
  have below : place ≠ [] := by
    rintro rfl
    simpa [FileNode.isRegular] using regular .directory rfl
  refine ⟨below, rfl, fun q old there => ?_, fun q target there => ?_⟩
  · rw [node?_put below]
    split
    next same =>
      subst same
      obtain ⟨wasFile, isFile⟩ := regular old there
      cases node with
      | file c x => exact .inr ⟨wasFile, c, x, rfl⟩
      | directory | link target => cases isFile
    next => exact .inl there
  · rw [node?_put below] at there
    split at there
    next => exact absurd (Option.some.inj there) (solid target)
    next => exact there

/-! ## Ways through a tree -/

theorem Grows.inside (grows : Grows s t) (inside : ¬(!s.isDirectoryAt dir) = true) :
    ¬(!t.isDirectoryAt dir) = true := by
  rw [Bool.not_eq_true', Bool.not_eq_false, isDirectoryAt_iff] at inside ⊢
  exact grows.directory inside

/-- Only the last name may be of nothing, and what comes there is no link. -/
theorem Grows.walk (grows : Grows s t) (reached : s.walk follow links dir names = .ok place) :
    t.walk follow links dir names = .ok place := by
  fun_induction FileTree.walk s follow links dir names with
  | case1 => rwa [FileTree.walk]
  | case2 | case5 | case7 | case9 => cases reached
  | case3 _ _ _ _ inside dots ih =>
    rw [FileTree.walk, if_neg (grows.inside inside), if_pos dots]
    exact ih reached
  | case4 _ _ _ inside dots ih =>
    rw [FileTree.walk, if_neg (grows.inside inside), if_neg dots, if_pos rfl]
    exact ih reached
  | case6 _ _ _ _ inside dots up long next nothing last =>
    rw [FileTree.walk, if_neg (grows.inside inside), if_neg dots, if_neg up, if_neg long,
      List.isEmpty_iff.mp last]
    cases there : t.node? next with
    | none => simpa [next, there] using reached
    | some node =>
      cases node with
      | link target =>
        rw [grows.link next target there] at nothing
        cases nothing
      | directory | file => simpa [next, there, FileTree.walk] using reached
  | case8 _ _ _ _ inside dots up long next target there last =>
    rw [FileTree.walk, if_neg (grows.inside inside), if_neg dots, if_neg up, if_neg long]
    have same := (grows.kept next _ there).resolve_right (by simp [FileNode.isRegular])
    simpa [next, same, last] using reached
  | case10 _ _ _ inside dots up long next target there last _ start ih =>
    rw [FileTree.walk, if_neg (grows.inside inside), if_neg dots, if_neg up, if_neg long]
    have same := (grows.kept next _ there).resolve_right (by simp [FileNode.isRegular])
    simpa [next, same, last, start] using ih reached
  | case11 _ _ _ _ inside dots up long next node solid there ih =>
    rw [FileTree.walk, if_neg (grows.inside inside), if_neg dots, if_neg up, if_neg long]
    rcases grows.kept next _ there with same | ⟨-, _, _, file⟩
    · simpa [next, same] using ih reached
    · simpa [next, file] using ih reached

theorem Grows.place? {path : String} (grows : Grows s t)
    (reached : s.place? follow path = .ok place) :
    t.place? follow path = .ok place := by
  unfold FileTree.place? at reached ⊢
  split at reached
  next => cases reached
  next some =>
    split at reached
    next => cases reached
    next null =>
      rw [if_neg some, if_neg null, startOf, grows.here]
      exact grows.walk reached

theorem place?_of_text {path : String} (names : List String) (text : path ≠ "" ∧
    hasNull path = false ∧ Path.isAbsolute path = false ∧ Path.elements path = names) :
    t.place? follow path = t.walk follow linkLimit t.here names := by
  obtain ⟨given, null, relative, rfl⟩ := text
  simp [place?, startOf, given, null, relative]

/-- Names that go on start where the names before them lead, with the links that are left. -/
theorem walk_split (t : FileTree) (links : Nat) (dir : Place) (names : List String) :
    ∃ reached : Option (Place × Nat),
      (∀ follow rest place, rest ≠ [] → (t.walk follow links dir (names ++ rest) = .ok place ↔
        ∃ mid ∈ reached, t.walk follow mid.2 mid.1 rest = .ok place)) ∧
      ∀ mid ∈ reached, t.walk true links dir names = .ok mid.1 := by
  fun_induction FileTree.walk t true links dir names with
  | case1 links dir => exact ⟨some (dir, links), by simp, by simp⟩
  | case2 | case5 =>
    refine ⟨none, fun follow more place some => ?_, by simp⟩
    rw [cons_append, FileTree.walk]
    simp_all
  | case3 | case4 =>
    rename_i ih
    obtain ⟨reached, onward, spec⟩ := ih
    refine ⟨reached, fun follow more place some => ?_, spec⟩
    rw [← onward follow more place some, cons_append, FileTree.walk]
    simp_all
  | case6 _ _ _ _ inside dots up long _ there | case7 _ _ _ _ inside dots up long _ there
  | case9 _ _ _ inside dots up long _ _ there =>
    refine ⟨none, fun follow more place some => ?_, by simp⟩
    rw [cons_append, FileTree.walk, if_neg inside, if_neg dots, if_neg up, if_neg long]
    simp +zetaDelta only at there
    simp [there, some]
  | case8 _ _ _ _ _ _ _ _ _ _ _ last => simp at last
  | case10 _ _ _ inside dots up long _ _ there _ _ _ ih
  | case11 _ _ _ _ inside dots up long _ _ _ there ih =>
    obtain ⟨reached, onward, spec⟩ := ih
    refine ⟨reached, fun follow more place some => ?_, spec⟩
    rw [← onward follow more place some, cons_append, FileTree.walk, if_neg inside,
      if_neg dots, if_neg up, if_neg long]
    simp +zetaDelta only at there ⊢
    simp [there, some]

end BitSchema.FileTree
