import BitSchema.Import.Roots
import BitSchema.Proofs.CanonicalPaths
import BitSchema.Proofs.OctetPaths
import BitSchema.Proofs.Outcome

/-!
# Include paths of files

`rel` names a file below the first root that contains it, and `resolve` takes a name below the first
root that has something there.  The two meet exactly if no root before the one that contains the
file has anything at the name (`resolve_rel_iff`); else the earlier root decides, and the answer is
another file or none.
-/

namespace BitSchema.ImportRoots

open List BitSchema.Path FileTree

variable {tree : FileTree}

/-! ## Roots -/

/-- A root is the path of a canonical directory. -/
def IsRoot (tree : FileTree) (root : String) : Prop :=
  ∃ place, tree.Canonical place ∧ tree.node? place = some .directory ∧ root = pathOf place

variable {root inc target : String} {roots : ImportRoots} {earlier later : List String}

theorem isRoot_of_rootOf {dir : String} (ok : rootOf tree dir = .ok root) : IsRoot tree root := by
  unfold rootOf at ok
  cases found : tree.canonical dir with
  | error cause => simp [found] at ok
  | ok path =>
    obtain ⟨place, canonical, rfl⟩ := exists_of_canonical found
    obtain ⟨node, there, -⟩ := canonical.solid
    rw [found] at ok
    simp only [canonical.stat there] at ok
    cases node with
    | directory =>
      cases ok
      exact ⟨place, canonical, there, rfl⟩
    | file content executable | link target => cases ok

theorem ofDirectories_spec {dirs : List String} (made : ofDirectories tree dirs = .ok roots) :
    roots.tree = tree ∧ ∀ root ∈ roots.dirs, IsRoot tree root := by
  unfold ofDirectories at made
  cases each : dirs.mapM (rootOf tree) with
  | error cause =>
    rw [each] at made
    cases made
  | ok found =>
    rw [each] at made
    cases made
    refine ⟨rfl, fun root mem => ?_⟩
    obtain ⟨dir, -, ok⟩ := exists_of_forall₂ (mapM_ok each) mem
    exact isRoot_of_rootOf ok

/-! ## Lookup below one root -/

/-- Nothing stands at an include path below a root. -/
def Lacks (tree : FileTree) (root inc : String) : Prop :=
  ∃ cause, tree.stat (join [root, inc]) = .error cause ∧ cause.reason = .notExist

theorem toString_ofString (s : String) : (Octets.ofString s).toString = s := by
  rw [Octets.toString, Octets.chars_ofString, String.ofList_toList]

theorem isEmpty_ofString {s : String} (some : s ≠ "") : (Octets.ofString s).isEmpty = false := by
  rw [isEmpty_eq_false_iff]
  intro empty
  have chars := Octets.chars_ofString s
  rw [empty] at chars
  exact some (String.toList_eq_nil_iff.mp chars.symm)

theorem below_ofString (root inc : String) :
    below root (Octets.ofString inc) = Octets.ofString (join [root, inc]) :=
  joinOctets_ofString root inc

theorem resolveBelow_eq_none_iff {path : Octets} :
    resolveBelow tree path root = .ok none ↔
      ∃ cause, tree.statOctets (below root path) = .error cause ∧ cause.reason = .notExist := by
  rw [resolveBelow]
  cases tree.statOctets (below root path) with
  | error cause => simp
  | ok node =>
    refine iff_of_false ?_ (by simp)
    dsimp only
    split
    · simp
    · split
      · simp
      · split <;> simp

theorem lacks_iff :
    Lacks tree root inc ↔ resolveBelow tree (Octets.ofString inc) root = .ok none := by
  rw [resolveBelow_eq_none_iff, below_ofString, tree.statOctets_ofString, Lacks]

theorem resolveBelow_eq_some_iff {path : Octets} :
    resolveBelow tree path root = .ok (some target) ↔
      (∃ node, tree.statOctets (below root path) = .ok node ∧ node.isRegular = true) ∧
        tree.canonical (below root path).toString = .ok target ∧
        within root target = true := by
  rw [resolveBelow]
  cases tree.statOctets (below root path) with
  | error cause =>
    refine iff_of_false (fun ok => ?_) (by simp)
    dsimp only at ok
    split at ok <;> cases ok
  | ok node =>
    cases regular : node.isRegular with
    | false => simp [regular]
    | true =>
      cases tree.canonical (below root path).toString with
      | error cause => simp [regular]
      | ok found =>
        simp only [Bool.not_true, Bool.false_eq_true, if_false, Except.ok.injEq, exists_eq_left',
          regular, true_and]
        by_cases inside : within root found = true
        · simp only [inside, if_true, Except.ok.injEq, Option.some.injEq]
          exact ⟨fun same => ⟨same, same ▸ inside⟩, fun same => same.1⟩
        · simp only [inside]
          refine iff_of_false (fun ok => by cases ok) ?_
          rintro ⟨rfl, within⟩
          exact inside within

/-- The include path of a file leads back to the file, below the root that it is taken from. -/
theorem resolveBelow_self {dir : Place} {down : List String} {node : FileNode}
    (canonical : tree.Canonical (dir ++ down)) (some : down ≠ [])
    (there : tree.node? (dir ++ down) = .some node) (regular : node.isRegular = true) :
    resolveBelow tree (Octets.ofString ("/".intercalate down)) (pathOf dir) =
      .ok (.some (pathOf (dir ++ down))) := by
  have dirNames := fun name mem => canonical.isName name (mem_append_left down mem)
  have downNames := fun name mem => canonical.isName name (mem_append_right dir mem)
  have inside : within (pathOf dir) (pathOf (dir ++ down)) = true :=
    (within_pathOf dirNames canonical.isName).mpr (prefix_append dir down)
  rw [resolveBelow_eq_some_iff, below_ofString, join_pathOf dirNames downNames some,
    tree.statOctets_ofString, toString_ofString, canonical.stat there]
  exact ⟨⟨node, rfl, regular⟩, canonical.canonical, inside⟩

/-! ## The first root that has something -/

/-- The roots before one that has the file decide, unless they have nothing. -/
theorem resolveIn_append (outside : ∀ dir ∈ earlier, within dir target = false)
    (here : resolveBelow tree (Octets.ofString inc) root = .ok (some target)) :
    (resolveIn tree (Octets.ofString inc) (earlier ++ root :: later) = .ok target ↔
      ∀ dir ∈ earlier, Lacks tree dir inc) ∧
    ∀ other, resolveIn tree (Octets.ofString inc) (earlier ++ root :: later) = .ok other →
      other ≠ target → ∃ dir ∈ earlier,
        tree.canonical (join [dir, inc]) = .ok other ∧ within dir other = true := by
  induction earlier with
  | nil =>
    rw [nil_append, resolveIn, here]
    exact ⟨by simp, fun other ok different => absurd (Except.ok.inj ok).symm different⟩
  | cons dir earlier ih =>
    obtain ⟨outsideHere, outsideLater⟩ := forall_mem_cons.mp outside
    obtain ⟨same, others⟩ := ih outsideLater
    rw [cons_append, resolveIn, forall_mem_cons, lacks_iff]
    cases searched : resolveBelow tree (Octets.ofString inc) dir with
    | error cause => simp
    | ok result =>
      cases result with
      | none =>
        refine ⟨by simpa using same, fun other ok different => ?_⟩
        obtain ⟨found, mem, spec⟩ := others other ok different
        exact ⟨found, mem_cons_of_mem dir mem, spec⟩
      | some found =>
        obtain ⟨-, canonical, inside⟩ := resolveBelow_eq_some_iff.mp searched
        rw [below_ofString, toString_ofString] at canonical
        refine ⟨iff_of_false (fun ok => ?_) (by simp), fun other ok _ => ?_⟩
        · rw [Except.ok.inj ok, outsideHere] at inside
          cases inside
        · rw [← Except.ok.inj ok]
          exact ⟨dir, mem_cons_self, canonical, inside⟩

/-! ## From files to include paths and back -/

theorem takeWhile_append_cons (p : String → Bool) (outside : ∀ dir ∈ earlier, p dir = false)
    (inside : p root = true) : (earlier ++ root :: later).takeWhile (!p ·) = earlier := by
  rw [takeWhile_append_of_pos (by simpa using outside), takeWhile_cons_of_neg (by simpa)]
  exact append_nil earlier

theorem resolve_eq (isRelative : isAbsolute inc = false) (some : inc ≠ "")
    (schema : ext inc = schemaExtension) :
    roots.resolve (Octets.ofString inc) =
      resolveIn roots.tree (Octets.ofString inc) roots.dirs := by
  have isAbsolute : isAbsolute (Octets.ofString inc).octetwise = false :=
    (isAbsolute_spell inc).trans isRelative
  have ext : ext (Octets.ofString inc).octetwise = schemaExtension :=
    ext_spell_eq_iff.mpr schema
  rw [resolve, checkIncludePath, isEmpty_ofString some, isAbsolute, ext]
  simp
  rfl

/-- A schema file inside a root has an include path.  It leads back to the file if and only if the
roots before the first that contains the file have nothing there; otherwise it leads to a file below
one of those or to none. -/
theorem resolve_rel_iff {dirs : List String} {roots : ImportRoots} {file target : String}
    (made : ofDirectories tree dirs = .ok roots) (found : tree.canonical file = .ok target)
    (regular : tree.isRegular target = true) (schema : ext target = schemaExtension)
    (inside : ∃ root ∈ roots.dirs, within root target = true) :
    ∃ inc, roots.rel file = .ok inc ∧
      (roots.resolve (Octets.ofString inc) = .ok target ↔
        ∀ root ∈ roots.dirs.takeWhile (!within · target), Lacks tree root inc) ∧
      ∀ other, roots.resolve (Octets.ofString inc) = .ok other → other ≠ target →
        ∃ root ∈ roots.dirs.takeWhile (!within · target),
          tree.canonical (join [root, inc]) = .ok other ∧
            within root other = true := by
  obtain ⟨rfl, areRoots⟩ := ofDirectories_spec made
  obtain ⟨place, canonical, rfl⟩ := exists_of_canonical found
  obtain ⟨root, first⟩ := Option.isSome_iff_exists.mp (find?_isSome.mpr inside)
  obtain ⟨contains, earlier, later, split, outside⟩ := find?_eq_some_iff_append.mp first
  obtain ⟨dir, dirCanonical, directory, rfl⟩ := areRoots root (mem_of_find?_eq_some first)
  obtain ⟨down, rfl⟩ := (within_pathOf dirCanonical.isName canonical.isName).mp contains
  obtain ⟨node, there, -⟩ := canonical.solid
  have isFile : node.isRegular = true := by
    rw [isRegular, canonical.stat there] at regular
    exact regular
  have below : down ≠ [] := by
    rintro rfl
    rw [append_nil, directory] at there
    cases there
    cases isFile
  have downNames := fun name mem => canonical.isName name (mem_append_right dir mem)
  have relative : rel? (pathOf dir) (pathOf (dir ++ down)) = some ("/".intercalate down) :=
    rel?_below canonical.isName below
  refine ⟨"/".intercalate down, ?_, ?_⟩
  · rw [rel, found]
    simp only [first, relative, Option.getD_some]
  · have isRelative := isAbsolute_intercalate downNames below
    rw [ext_pathOf canonical.isName below] at schema
    rw [resolve_eq isRelative (intercalate_ne_empty downNames below) schema, split,
      takeWhile_append_cons (within · _) (by simpa using outside) contains]
    exact resolveIn_append (by simpa using outside) (resolveBelow_self canonical below there isFile)

/-! ## Two homes -/

/-- Two directories with a file of the same name, one of them with another file, and a link. -/
def homes : FileTree where
  nodes := [(["p"], .directory), (["p", "x.baproto"], .file ByteArray.empty false),
    (["q"], .directory), (["q", "x.baproto"], .file ByteArray.empty false),
    (["q", "y.baproto"], .file ByteArray.empty false), (["l"], .link "q/.")]

theorem ofDirectories_homes : ofDirectories homes ["/p", "/l"] = .ok ⟨homes, ["/p", "/q"]⟩ := by
  cbv

theorem isEntryName_homes : ∀ name ∈ ["p", "q", "x.baproto", "y.baproto"], IsEntryName name := by
  have checked : ∀ name ∈ ["p", "q", "x.baproto", "y.baproto"], ¬ (name = "" ∨ name = ".") ∧
      name ≠ ".." ∧ ¬ hasNull name = true ∧
      ¬ nameLimit < name.utf8ByteSize ∧ '/' ∉ name.toList := by decide
  intro name mem
  obtain ⟨dots, dotDot, null, long, slash⟩ := checked name mem
  exact isEntryName dots dotDot null long slash

theorem canonical_homes {home name : String} (homeName : home ∈ ["p", "q"])
    (fileName : name ∈ ["x.baproto", "y.baproto"])
    (file : homes.node? [home, name] = some (.file ByteArray.empty false)) :
    homes.Canonical ([home] ++ [name]) := by
  have directory : homes.node? [home] = some .directory := by
    rcases mem_pair.mp homeName with rfl | rfl <;> rfl
  have above : homes.Canonical [home] := Canonical.root.snoc rfl
    (isEntryName_homes home (mem_append_left _ homeName)) directory (by simp)
  exact above.snoc directory (isEntryName_homes name (mem_append_right ["p", "q"] fileName))
    file (by simp)

theorem isRegular_homes (name : String) {path : String}
    (fileName : name ∈ ["x.baproto", "y.baproto"])
    (file : homes.node? ["q", name] = some (.file ByteArray.empty false))
    (same : pathOf (["q"] ++ [name]) = path) : homes.isRegular path = true := by
  rw [isRegular, ← same, (canonical_homes (by simp) fileName file).stat file]
  rfl

/-- The include path of the second `x.baproto` means the first. -/
theorem resolve_rel_other :
    ∃ roots, ofDirectories homes ["/p", "/l"] = .ok roots ∧
      homes.canonical "/q/x.baproto" = .ok "/q/x.baproto" ∧
      homes.isRegular "/q/x.baproto" = true ∧ roots.rel "/q/x.baproto" = .ok "x.baproto" ∧
      roots.resolve (Octets.ofString "x.baproto") = .ok "/p/x.baproto" := by
  have path : pathOf (["q"] ++ ["x.baproto"]) = "/q/x.baproto" := by decide
  have canonical : homes.canonical "/q/x.baproto" = .ok "/q/x.baproto" :=
    path ▸ (canonical_homes (by simp) (by simp) rfl).canonical
  have file : homes.node? (["p"] ++ ["x.baproto"]) = some (.file ByteArray.empty false) := rfl
  have below := resolveBelow_self (canonical_homes (by simp) (by simp) rfl) (by simp) file rfl
  have inc : "/".intercalate ["x.baproto"] = "x.baproto" := by decide
  have root : pathOf ["p"] = "/p" := by decide
  have first : pathOf (["p"] ++ ["x.baproto"]) = "/p/x.baproto" := by decide
  rw [inc, root, first] at below
  refine ⟨_, ofDirectories_homes, canonical, isRegular_homes "x.baproto" (by simp) rfl path, ?_, ?_⟩
  · rw [rel, canonical]
    decide
  · rw [resolve_eq (by decide) (by decide) (by decide), resolveIn, below]

theorem canonical_linked : homes.canonical "/l/y.baproto" = .ok "/q/y.baproto" := by
  have split : elements (homes.absolute "/l/y.baproto") = ["", "l", "y.baproto"] := by
    decide
  have onward : elements "q/." = ["q", "."] := by decide
  have short : ¬ 255 < "l".utf8ByteSize ∧ ¬ 255 < "q".utf8ByteSize ∧
      ¬ 255 < "y.baproto".utf8ByteSize := by decide
  have reached : homes.canonicalPlace canonicalLinkLimit [] ["", "l", "y.baproto"] =
      .ok ["q", "y.baproto"] := by
    simp [canonicalPlace, hasNull, nameLimit, node?, homes,
      canonicalLinkLimit, onward, short, isAbsolute]
  rw [canonical, split, reached]
  decide

theorem lacks_homes : Lacks homes "/p" "y.baproto" := by
  have joined : join ["/p", "y.baproto"] = "/p/y.baproto" := by decide
  have split : elements "/p/y.baproto" = ["", "p", "y.baproto"] := by decide
  have short : ¬ 255 < "p".utf8ByteSize ∧ ¬ 255 < "y.baproto".utf8ByteSize := by decide
  have reached : homes.place? true "/p/y.baproto" = .ok ["p", "y.baproto"] := by
    simp [place?, hasNull, startOf, isAbsolute, split, walk, isDirectoryAt, node?, homes, nameLimit,
      short, FileNode.isDirectory]
  refine ⟨.on "stat" "/p/y.baproto" .notExist, ?_, rfl⟩
  rw [joined, stat, look, reached]
  rfl

/-- `y.baproto` is named through a link, and nothing of its name is in the root before its own. -/
theorem resolve_rel_iff_linked :
    ∃ roots inc, ofDirectories homes ["/p", "/l"] = .ok roots ∧
      homes.canonical "/l/y.baproto" = .ok "/q/y.baproto" ∧
      homes.isRegular "/q/y.baproto" = true ∧ roots.rel "/l/y.baproto" = .ok inc ∧
      roots.resolve (Octets.ofString inc) = .ok "/q/y.baproto" := by
  have regular : homes.isRegular "/q/y.baproto" = true :=
    isRegular_homes "y.baproto" (by simp) rfl (by decide)
  obtain ⟨inc, named, leads, -⟩ := resolve_rel_iff ofDirectories_homes canonical_linked regular
    (by decide) ⟨"/q", by decide⟩
  refine ⟨_, inc, ofDirectories_homes, canonical_linked, regular, named, leads.mpr ?_⟩
  have name : inc = "y.baproto" := by
    rw [rel, canonical_linked] at named
    exact Except.ok.inj (named.symm.trans (by decide))
  have before : ["/p", "/q"].takeWhile (!within · "/q/y.baproto") = ["/p"] := by decide
  rw [before, name]
  simpa using lacks_homes

end BitSchema.ImportRoots
