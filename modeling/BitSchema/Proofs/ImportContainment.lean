import BitSchema.Proofs.IncludePaths
import BitSchema.Proofs.LoadedFiles

/-!
# Containment of imports

Whether a path lies within a root is decided on the text of the path between them.  For clean
absolute paths that is right: the names of the root are the first names of the path.  Since links
are followed before the test, what an include path resolves to lies in the root that it was found
below, which is the first that has anything there (`resolve_contained`).
-/

namespace BitSchema

open List

namespace Path

/-- What stands between the slashes of a path. -/
def segments (path : String) : List String := (elements path).filter (· != "")

open FileTree (pathOf)

end Path

namespace ImportRoots

/-- Something stands at an include path below a root. -/
def has (tree : FileTree) (path : Octets) (root : String) : Bool :=
  (tree.statOctets (below root path)).isOk

section

variable {path : Octets} {target : String}

/-- By induction on the roots: those that have nothing at the path are passed over. -/
theorem resolveIn_ok {tree : FileTree} {dirs : List String}
    (ok : resolveIn tree path dirs = .ok target) :
    ∃ root, dirs.find? (has tree path) = some root ∧
      tree.canonical (below root path).toString = .ok target ∧ Path.within root target = true := by
  induction dirs with
  | nil => cases ok
  | cons dir dirs ih =>
    rw [resolveIn] at ok
    cases searched : resolveBelow tree path dir with
    | error cause => simp [searched] at ok
    | ok found =>
      rw [searched] at ok
      cases found with
      | none =>
        obtain ⟨cause, lacks, -⟩ := resolveBelow_eq_none_iff.mp searched
        rw [find?_cons_of_neg (by simp [has, lacks, Except.isOk, Except.toBool])]
        exact ih ok
      | some path =>
        cases ok
        obtain ⟨⟨node, there, -⟩, spec⟩ := resolveBelow_eq_some_iff.mp searched
        exact ⟨dir, find?_cons_of_pos (by rw [has, there]; rfl), spec⟩

theorem resolve_ok {roots : ImportRoots} (ok : roots.resolve path = .ok target) :
    ∃ root place, roots.dirs.find? (has roots.tree path) = some root ∧
      roots.tree.Canonical place ∧ target = FileTree.pathOf place ∧
      Path.within root target = true := by
  rw [resolve, bind_ok_iff] at ok
  obtain ⟨-, -, ok⟩ := ok
  obtain ⟨root, first, found, inside⟩ := resolveIn_ok ok
  obtain ⟨place, canonical, same⟩ := FileTree.exists_of_canonical found
  exact ⟨root, place, first, canonical, same, inside⟩

end

/-- What is found is the root of the tree or one of its nodes. -/
theorem covers (roots : ImportRoots) (entries : List String) : roots.importer.Covers entries := by
  refine Importer.covers_of_resolve
    (FileTree.pathOf [] :: roots.tree.nodes.map fun node => FileTree.pathOf node.1)
    (by simp [importer]) fun written path resolved => ?_
  obtain ⟨-, place, -, canonical, rfl, -⟩ := resolve_ok resolved
  obtain ⟨node, there, -⟩ := canonical.solid
  rw [FileTree.node?] at there
  split at there
  next top => exact top ▸ mem_cons_self
  next =>
    obtain ⟨entry, found, -⟩ := Option.map_eq_some_iff.mp there
    have same : entry.1 = place := by simpa using find?_some found
    exact mem_cons_of_mem _ (mem_map.mpr
      ⟨entry, mem_of_find?_eq_some found, congrArg FileTree.pathOf same⟩)

end ImportRoots

end BitSchema
