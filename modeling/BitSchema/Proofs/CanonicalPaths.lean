import BitSchema.File.Tree
import BitSchema.Proofs.CleanPaths

/-!
# Canonical paths

The canonical path of something leads to it through directories alone.  `FileTree.Canonical` says
this of the place, and `FileTree.exists_of_canonical` that `canonical` finds no others.

Names that stand for themselves (`Path.IsName`) make paths that behave like lists of names: a path
of them comes apart into them, cleaning changes nothing, joining is appending, and one path is
within another exactly if it continues it.
-/

namespace BitSchema

open List

namespace Path

section

variable {names dir place down : List String}

/-! ## Paths of places -/

open FileTree (pathOf)

theorem pathOf_eq (place : Place) : pathOf place = "" ++ "/" ++ "/".intercalate place := by
  rw [String.empty_append]
  rfl

theorem isAbsolute_pathOf (place : Place) : isAbsolute (pathOf place) = true := isAbsolute_slash _

section

variable (areNames : ∀ name ∈ place, IsName name)

include areNames

theorem elements_pathOf : elements (pathOf place) = "" :: if place = [] then [""] else place := by
  rw [pathOf_eq, elements_append]
  split
  next empty => rw [empty]; rfl
  next some => rw [elements_intercalate areNames some]; rfl

/-- The path of a place is the place written out. -/
theorem cleanElements_pathOf : cleanElements (pathOf place) = place :=
  (Tidy.of_names areNames).cleanElements_eq

theorem clean_pathOf : clean (pathOf place) = pathOf place := by
  rw [clean, cleanElements_pathOf areNames, isAbsolute_pathOf, pathOf]

end

theorem intercalate_ne_empty (areNames : ∀ name ∈ names, IsName name) (some : names ≠ []) :
    "/".intercalate names ≠ "" := by
  intro empty
  have split := elements_intercalate areNames some
  rw [empty] at split
  subst split
  exact (areNames "" (mem_singleton_self _)).ne_empty rfl

/-- Names below a place are joined to its path. -/
theorem join_pathOf (dirNames : ∀ name ∈ dir, IsName name)
    (downNames : ∀ name ∈ down, IsName name) (some : down ≠ []) :
    join [pathOf dir, "/".intercalate down] = pathOf (dir ++ down) := by
  have split := elements_intercalate downNames some
  rw [join_names (by simp [pathOf_eq]) (split.symm ▸ downNames), isAbsolute_pathOf,
    cleanElements_pathOf dirNames, split, pathOf]

/-- The extension is that of the part below. -/
theorem ext_pathOf (areNames : ∀ name ∈ dir ++ down, IsName name) (some : down ≠ []) :
    ext (pathOf (dir ++ down)) = ext ("/".intercalate down) := by
  have last : lastElement (pathOf (dir ++ down)) = lastElement ("/".intercalate down) := by
    rw [lastElement, lastElement, elements_pathOf areNames, if_neg (by simp [some]),
      elements_intercalate (fun name mem => areNames name (mem_append_right dir mem)) some]
    rw [← cons_append, getLast?_append_of_ne_nil _ some]
  rw [ext, ext, last]

/-! ## Relative paths -/

theorem dropCommon_append (dir down : List String) : dropCommon dir (dir ++ down) = ([], down) := by
  induction dir with
  | nil => simp [dropCommon]
  | cons name dir ih => simp [dropCommon, ih]

/-- What is dropped is common to both. -/
theorem exists_of_dropCommon (dir place : List String) :
    ∃ common, dir = common ++ (dropCommon dir place).1 ∧
      place = common ++ (dropCommon dir place).2 := by
  fun_induction dropCommon dir place with
  | case1 dir name place ih =>
    obtain ⟨common, first, second⟩ := ih
    exact ⟨name :: common, congrArg _ first, congrArg _ second⟩
  | case2 | case3 => exact ⟨[], rfl, rfl⟩

/-- A relative path goes up to the common directory and down again. -/
theorem rel?_pathOf (dirNames : ∀ name ∈ dir, IsName name)
    (placeNames : ∀ name ∈ place, IsName name) :
    rel? (pathOf dir) (pathOf place) = some (ofElements false
      ((dropCommon dir place).1.map (fun _ => "..") ++ (dropCommon dir place).2)) := by
  have up : (dropCommon dir place).1.head? ≠ some ".." := by
    intro first
    obtain ⟨common, split, -⟩ := exists_of_dropCommon dir place
    have mem : ".." ∈ dir := by
      rw [split]
      exact mem_append_right _ (mem_of_mem_head? first)
    exact (dirNames ".." mem).ne_dots rfl
  rw [rel?, isAbsolute_pathOf, isAbsolute_pathOf, cleanElements_pathOf dirNames,
    cleanElements_pathOf placeNames]
  simp [up]

/-- The path relative to a directory around a place is the rest of its names. -/
theorem rel?_below (areNames : ∀ name ∈ dir ++ down, IsName name) (some : down ≠ []) :
    rel? (pathOf dir) (pathOf (dir ++ down)) = .some ("/".intercalate down) := by
  rw [rel?_pathOf (fun name mem => areNames name (mem_append_left down mem)) areNames,
    dropCommon_append]
  simp [ofElements, some]

/-- A path of names does not start with anything else. -/
theorem head_of_intercalate (areNames : ∀ name ∈ names, IsName name) (some : names ≠ [])
    (element rest : String) (same : "/".intercalate names = element ++ "/" ++ rest)
    (slash : '/' ∉ element.toList) : IsName element := by
  have split := elements_intercalate areNames some
  rw [same, elements_append, elements, splitOn_eq_singleton slash] at split
  apply areNames
  rw [← split]
  simp

theorem isAbsolute_intercalate (areNames : ∀ name ∈ names, IsName name) (some : names ≠ []) :
    isAbsolute ("/".intercalate names) = false := by
  rw [Bool.eq_false_iff]
  intro absolute
  obtain ⟨chars, same⟩ := head?_eq_some_iff.mp (beq_iff_eq.mp absolute)
  refine (head_of_intercalate areNames some "" (String.ofList chars) ?_ (by decide)).ne_empty rfl
  rw [← String.toList_inj, same]
  simp

/-- A path lies within another if its place starts with the other. -/
theorem within_pathOf (dirNames : ∀ name ∈ dir, IsName name)
    (placeNames : ∀ name ∈ place, IsName name) :
    within (pathOf dir) (pathOf place) = true ↔ dir <+: place := by
  constructor
  · intro inside
    obtain ⟨common, first, second⟩ := exists_of_dropCommon dir place
    rw [within, rel?_pathOf dirNames placeNames] at inside
    cases up : (dropCommon dir place).1 with
    | nil =>
      rw [up, append_nil] at first
      subst first
      exact ⟨_, second.symm⟩
    | cons name names =>
      -- The way up shows at the start of the path.
      rw [up, map_cons, cons_append, ofElements] at inside
      generalize names.map (fun _ => "..") ++ (dropCommon dir place).2 = rest at inside
      cases rest with
      | nil => simp [String.intercalate_singleton] at inside
      | cons next rest => simp [String.intercalate_cons_cons] at inside
  · rintro ⟨down, rfl⟩
    cases down with
    | nil =>
      rw [append_nil, within, rel?_pathOf dirNames dirNames]
      have none := dropCommon_append dir []
      rw [append_nil] at none
      rw [none]
      decide
    | cons first rest =>
      have names := fun name mem => placeNames name (mem_append_right dir mem)
      rw [within, rel?_below placeNames (by simp)]
      have dots : "/".intercalate (first :: rest) ≠ ".." := by
        intro same
        have split := elements_intercalate names (by simp)
        rw [same] at split
        exact (names ".." (by rw [← split]; decide)).ne_dots rfl
      have up : ¬ "../".toList <+: ("/".intercalate (first :: rest)).toList := by
        rintro ⟨chars, same⟩
        refine (head_of_intercalate names (by simp) ".." (String.ofList chars) ?_
          (by decide)).ne_dots rfl
        rw [← String.toList_inj, ← same]
        simp
      have relative := isAbsolute_intercalate names (by simp)
      simp only [relative, Bool.and_eq_true, bne_iff_ne, Bool.not_eq_true', Bool.eq_false_iff]
      exact ⟨⟨dots, fun found => up ( isPrefixOf_iff_prefix.mp found)⟩, by simp⟩

end

end Path

/-! ## Canonical places -/

namespace FileTree

/-- A name that a directory may hold. -/
structure IsEntryName (name : String) : Prop extends Path.IsName name where
  null : hasNull name = false
  short : name.utf8ByteSize ≤ nameLimit

/-- A name that a walk takes is that of an entry. -/
theorem isEntryName {name : String} (dots : ¬ (name = "" ∨ name = ".")) (dotDot : name ≠ "..")
    (null : ¬ hasNull name = true) (long : ¬ nameLimit < name.utf8ByteSize)
    (slash : '/' ∉ name.toList) : IsEntryName name where
  ne_empty empty := dots (.inl empty)
  ne_dot dot := dots (.inr dot)
  ne_dots := dotDot
  slash := slash
  null := by simpa using null
  short := Nat.not_lt.mp long

/-- A place that is reached through directories alone, and where something other than a link
stands. -/
structure Canonical (t : FileTree) (place : Place) : Prop where
  names : ∀ name ∈ place, IsEntryName name
  above : ∀ dir name rest, place = dir ++ name :: rest → t.node? dir = some .directory
  solid : ∃ node, t.node? place = some node ∧ ∀ target, node ≠ .link target

section

variable {t : FileTree} {dir place : Place} {names : List String} {name : String} {links : Nat}

theorem Canonical.isName (canonical : t.Canonical place) : ∀ name ∈ place, Path.IsName name :=
  fun name mem => (canonical.names name mem).toIsName

theorem Canonical.root : t.Canonical [] where
  names := by simp
  above := by simp
  solid := ⟨.directory, rfl, by simp⟩

/-- What is on the way to a canonical place is canonical. -/
theorem Canonical.of_append {rest : List String} (canonical : t.Canonical (dir ++ name :: rest)) :
    t.Canonical dir where
  names name mem := canonical.names name (mem_append_left _ mem)
  above d n r split := canonical.above d n (r ++ name :: rest) (by rw [split]; simp)
  solid := ⟨.directory, canonical.above dir name rest rfl, by simp⟩

section

variable (canonical : t.Canonical dir) (inside : t.node? dir = some .directory)

include canonical inside

/-- An entry of a canonical directory that is no link is canonical. -/
theorem Canonical.snoc
    (isName : IsEntryName name) {node : FileNode} (there : t.node? (dir ++ [name]) = some node)
    (solid : ∀ target, node ≠ .link target) : t.Canonical (dir ++ [name]) where
  names other mem := by
    rcases mem_append.mp mem with before | last
    · exact canonical.names other before
    · rwa [mem_singleton.mp last]
  above d n r split := by
    rcases eq_nil_or_concat r with rfl | ⟨r, last, rfl⟩
    · rwa [← (append_inj' split rfl).1]
    · have longer : dir ++ [name] = (d ++ n :: r) ++ [last] := by simpa using split
      exact canonical.above d n r (append_inj' longer rfl).1
  solid := ⟨node, there, solid⟩

/-- The directory around a canonical directory. -/
theorem Canonical.dropLast : t.Canonical dir.dropLast ∧ t.node? dir.dropLast = some .directory := by
  rcases eq_nil_or_concat dir with rfl | ⟨above, last, rfl⟩
  · exact ⟨canonical, inside⟩
  · rw [concat_eq_append] at canonical
    rw [concat_eq_append, dropLast_concat]
    exact ⟨canonical.of_append, canonical.above above last [] rfl⟩

/-- Links may lead anywhere, but always on from a canonical directory. -/
theorem Canonical.of_canonicalPlace (slashes : ∀ name ∈ names, '/' ∉ name.toList)
    (found : t.canonicalPlace links dir names = .ok place) : t.Canonical place := by
  fun_induction canonicalPlace t links dir names with
  | case1 => exact Except.ok.inj found ▸ canonical
  | case2 _ _ _ _ _ ih => exact ih canonical inside (forall_mem_cons.mp slashes).2 found
  | case3 _ _ _ _ ih =>
    obtain ⟨above, insideAbove⟩ := canonical.dropLast inside
    exact ih above insideAbove (forall_mem_cons.mp slashes).2 found
  | case8 dir name rest _ _ _ _ _ target _ links start ih =>
    have started : t.Canonical start ∧ t.node? start = some .directory := by
      unfold start
      split
      · exact ⟨.root, rfl⟩
      · exact ⟨canonical, inside⟩
    refine ih started.1 started.2 (fun other mem => ?_) found
    rcases mem_append.mp mem with fromLink | later
    · exact Path.slash_not_mem_of_mem_elements fromLink
    · exact slashes other (mem_cons_of_mem name later)
  | case9 links dir name rest dots dotDot next null long there ih =>
    obtain ⟨slash, later⟩ := forall_mem_cons.mp slashes
    have isName := isEntryName dots dotDot null long slash
    exact ih (canonical.snoc inside isName there (by simp)) there later found
  | case10 links dir name rest dots dotDot next null long content executable there =>
    obtain ⟨slash, -⟩ := forall_mem_cons.mp slashes
    have isName := isEntryName dots dotDot null long slash
    exact Except.ok.inj found ▸ canonical.snoc inside isName there (by simp)
  | case4 | case5 | case6 | case7 | case11 => cases found

end

/-- `canonical` gives canonical places only. -/
theorem exists_of_canonical {path target : String} (found : t.canonical path = .ok target) :
    ∃ place, t.Canonical place ∧ target = pathOf place := by
  unfold canonical at found
  cases reached : t.canonicalPlace canonicalLinkLimit [] (Path.elements (t.absolute path)) with
  | error cause =>
    rw [reached] at found
    cases found
  | ok place =>
    rw [reached] at found
    refine ⟨place, Canonical.root.of_canonicalPlace rfl ?_ reached, (Except.ok.inj found).symm⟩
    exact fun name mem => Path.slash_not_mem_of_mem_elements mem

/-! ## The way to a canonical place -/

/-- On the way to a canonical place there are directories. -/
theorem Canonical.next {rest : List String} (canonical : t.Canonical (dir ++ name :: rest)) :
    t.isDirectoryAt dir = true ∧ IsEntryName name ∧
      (t.node? (dir ++ [name]) = some .directory ∨ rest = [] ∧
        ∃ content executable, t.node? (dir ++ [name]) = some (.file content executable)) := by
  refine ⟨?_, canonical.names name (by simp), ?_⟩
  · rw [isDirectoryAt, canonical.above dir name rest rfl]
    rfl
  · cases rest with
    | nil =>
      obtain ⟨node, there, solid⟩ := canonical.solid
      cases node with
      | file content executable => exact .inr ⟨rfl, content, executable, there⟩
      | directory => exact .inl there
      | link target => exact absurd rfl (solid target)
    | cons next rest => exact .inl (canonical.above _ next rest (by simp))

/-- Walking to a canonical place changes nothing about it. -/
theorem Canonical.walk {follow : Bool} (canonical : t.Canonical (dir ++ names)) :
    t.walk follow links dir names = .ok (dir ++ names) := by
  induction names generalizing dir with
  | nil => rw [FileTree.walk, append_nil]
  | cons name rest ih =>
    obtain ⟨inside, isName, there⟩ := canonical.next
    have onward := @ih (dir ++ [name]) (by simpa using canonical)
    rw [append_assoc, singleton_append] at onward
    rw [FileTree.walk, inside]
    simp only [Bool.not_true, Bool.false_eq_true, if_false, isName.ne_empty, isName.ne_dot,
      isName.ne_dots, or_self, Nat.not_lt.mpr isName.short]
    rcases there with directory | ⟨-, content, executable, file⟩
    · rw [directory]
      exact onward
    · rw [file]
      exact onward

/-- A canonical place is its own canonical place. -/
theorem Canonical.canonicalPlace (canonical : t.Canonical (dir ++ names)) :
    t.canonicalPlace links dir names = .ok (dir ++ names) := by
  induction names generalizing dir with
  | nil => rw [FileTree.canonicalPlace, append_nil]
  | cons name rest ih =>
    obtain ⟨-, isName, there⟩ := canonical.next
    have onward := @ih (dir ++ [name]) (by simpa using canonical)
    rw [append_assoc, singleton_append] at onward
    rw [FileTree.canonicalPlace]
    simp only [isName.ne_empty, isName.ne_dot, isName.ne_dots, isName.null, or_self, if_false,
      Bool.false_eq_true, Nat.not_lt.mpr isName.short]
    rcases there with directory | ⟨rfl, content, executable, file⟩
    · rw [directory]
      exact onward
    · rw [file]
      rfl

/-- A path of names without nulls has none. -/
theorem hasNull_ofElements {rooted : Bool} (null : ∀ name ∈ names, hasNull name = false) :
    hasNull (Path.ofElements rooted names) = false := by
  simp only [hasNull, contains_eq_mem, decide_eq_false_iff_not] at null ⊢
  have joined : '\x00' ∉ ("/".intercalate names).toList := fun mem => by
    obtain ⟨name, among, inside⟩ := Path.mem_intercalate (by decide) mem
    exact null name among inside
  unfold Path.ofElements
  split
  next => simpa using joined
  next => split <;> simp_all

/-- What the path of a canonical place means. -/
theorem Canonical.stat {node : FileNode} (canonical : t.Canonical place)
    (there : t.node? place = some node) : t.stat (pathOf place) = .ok node := by
  have null : hasNull (pathOf place) = false :=
    hasNull_ofElements fun name mem => (canonical.names name mem).null
  have found : t.place? true (pathOf place) = .ok place := by
    rw [place?, if_neg (by simp [Path.pathOf_eq]), null, if_neg (by simp), startOf,
      if_pos (Path.isAbsolute_pathOf place), Path.elements_pathOf canonical.isName]
    split
    next root =>
      subst root
      simp [FileTree.walk, isDirectoryAt, node?, FileNode.isDirectory]
    next =>
      rw [FileTree.walk]
      exact canonical.walk
  rw [FileTree.stat, look, found]
  simp only [there]

/-- The path of a canonical place is canonical. -/
theorem Canonical.canonical (canonical : t.Canonical place) :
    t.canonical (pathOf place) = .ok (pathOf place) := by
  have reached : t.canonicalPlace canonicalLinkLimit []
      (Path.elements (t.absolute (pathOf place))) = .ok place := by
    rw [absolute, Path.isAbsolute_pathOf, if_pos rfl, Path.clean_pathOf canonical.isName,
      Path.elements_pathOf canonical.isName]
    split
    next root =>
      subst root
      simp [FileTree.canonicalPlace]
    next =>
      rw [FileTree.canonicalPlace]
      exact canonical.canonicalPlace
  rw [FileTree.canonical, reached]
  rfl

end

end FileTree

end BitSchema
