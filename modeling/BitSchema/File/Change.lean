import BitSchema.File.Tree

/-!
# Changes of a file tree

Single changes to a tree, and what someone who watches directories is told of them.
-/

namespace BitSchema

/-- A change of a tree. -/
inductive FileChange where
  | nothing
  /-- Write a file in place. -/
  | write (path : String) (content : ByteArray)
  /-- Write a file elsewhere and move it to a path. -/
  | replace (path : String) (content : ByteArray)
  | makeDirectory (path : String)
  /-- Remove a file, a link or an empty directory. -/
  | remove (path : String)
  | rename (path target : String)
  | changeMode (path : String)
  | link (path target : String)

/-- What has happened to an entry of a directory. -/
inductive Notice where
  | created (place : Place)
  | written (place : Place)
  | removed (place : Place)
  /-- It has been moved, over what stood at the target. -/
  | moved (source target : Place)
  | modeChanged (place : Place)
  deriving DecidableEq, Repr

namespace FileTree

/-- Move what stands at a place, with all below it, over what stands at another. -/
def move (t : FileTree) (source target : Place) : FileTree :=
  let kept := t.nodes.filter fun (p, _) => !(target.isPrefixOf p) || source.isPrefixOf p
  { t with nodes := kept.map fun (p, node) =>
      if source.isPrefixOf p then (target ++ p.drop source.length, node) else (p, node) }

/-- Let a file be run. -/
def makeExecutable (t : FileTree) (place : Place) : FileTree :=
  match t.node? place with
  | some (.file content _) => t.put place (.file content true)
  | _ => t

end FileTree

namespace FileChange

/-- Do a change at a place that a path means; a path that means none changes nothing. -/
def atPlace (t : FileTree) (follow : Bool) (path : String)
    (change : Place → FileTree × List Notice) : FileTree × List Notice :=
  match t.place? follow path with
  | .ok place => change place
  | .error _ => (t, [])

/-- The tree after a change, and the notices of it. -/
def apply (t : FileTree) : FileChange → FileTree × List Notice
  | nothing => (t, [])
  | write path content =>
    atPlace t true path fun place =>
      match t.node? place with
      | none => (t.put place (.file content false), [.created place, .written place])
      | some (.file _ executable) =>
        (t.put place (.file content executable), [.written place])
      | some _ => (t, [])
  | replace path content =>
    atPlace t false path fun place =>
      (t.put place (.file content false), [.created place])
  | makeDirectory path =>
    atPlace t false path fun place => (t.put place .directory, [.created place])
  | remove path =>
    atPlace t false path fun place => (t.erase place, [.removed place])
  | rename path target =>
    atPlace t false path fun source =>
      atPlace t false target fun place =>
        (t.move source place, [.moved source place])
  | changeMode path =>
    atPlace t true path fun place => (t.makeExecutable place, [.modeChanged place])
  | link path target =>
    atPlace t false path fun place => (t.put place (.link target), [.created place])

end FileChange

end BitSchema
