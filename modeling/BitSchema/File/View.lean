import BitSchema.File.Tree

/-!
# Views of files

What a project asks of the files around it, whatever keeps them.
-/

namespace BitSchema

/-- Files that can be looked at. -/
structure FileView where
  readFile : String → Except FileError ByteArray
  /-- There is something at a path. -/
  holds : String → Except FileError Bool
  /-- The files at a path and below it, in the order of the names on the way to them.  Hidden
  directories below the path are not searched. -/
  filesBelow : String → Except FileError (List String)

/-- The view of a tree.  Links are not followed on the search for files, and count as files. -/
def FileTree.view (t : FileTree) : FileView where
  readFile := t.readFile
  holds path :=
    match t.stat path with
    | .ok _ => .ok true
    | .error cause => if cause.reason = .notExist then .ok false else .error cause
  filesBelow path := do
    return ((← t.entries FileTree.isHidden path).filter (!·.node.isDirectory)).map (·.path)

end BitSchema
