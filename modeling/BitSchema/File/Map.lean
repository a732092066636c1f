import BitSchema.File.View

/-!
# Files by name

Files that are kept in memory under their names, without a tree.

Names are cleaned; the working directory and the one above it are the root.  A file that is written
is entered into the directory that its name gives, which is made if it is missing, and so on up to
the root.  So a file can be a directory too, and keeps its contents.  A directory tells the last
elements of the names entered into it, and what is found under such a name need not be what was
entered: a relative and an absolute name may share a directory.
-/

namespace BitSchema

/-- A file or a directory, or both. -/
structure NamedFile where
  content : ByteArray := .empty
  isDirectory : Bool := false
  /-- The whole names of what was entered. -/
  entries : List String := []

structure FileMap where
  files : List (String × NamedFile) := [("/", { isDirectory := true })]

namespace FileMap

/-- The name that a file is kept under. -/
def keyOf (name : String) : String :=
  let name := Path.clean name
  if name = "." ∨ name = ".." then "/" else name

def get? (m : FileMap) (name : String) : Option NamedFile := m.files.lookup (keyOf name)

def put (m : FileMap) (key : String) (file : NamedFile) : FileMap :=
  ⟨(key, file) :: m.files.filter (·.1 != key)⟩

/-- Enter a name into its directory.  There are no more directories to make than the name has
elements. -/
def enter : Nat → String → FileMap → FileMap
  | 0, _, m => m
  | fuel + 1, key, m =>
    let parent := keyOf (Path.dir key)
    let m := if (m.get? parent).isSome then m else enter fuel parent (m.put parent {})
    let dir := (m.get? parent).getD {}
    let entries := if dir.entries.contains key then dir.entries else key :: dir.entries
    m.put parent { dir with isDirectory := true, entries }

/-- Write a file. -/
def write (m : FileMap) (name : String) (content : ByteArray) : FileMap :=
  let key := keyOf name
  match m.get? key with
  | some file => m.put key { file with content }
  | none => enter ((Path.elements key).length + 1) key (m.put key { content })

def isDirectory (m : FileMap) (name : String) : Bool := (m.get? name).any (·.isDirectory)

/-- The last elements of the names in a directory, in order. -/
def NamedFile.names (file : NamedFile) : List String :=
  (file.entries.map Path.lastElement).mergeSort fun a b => decide (a ≤ b)

/-- The files at a path and below it.  No path is longer than there are directories. -/
def filesAt (m : FileMap) : Nat → String → List String
  | 0, _ => []
  | fuel + 1, path =>
    match m.get? path with
    | none => []
    | some file =>
      if !file.isDirectory then [path]
      else (NamedFile.names file).flatMap fun name =>
        let next := Path.join [path, name]
        if FileTree.isHidden name && m.isDirectory next then [] else filesAt m fuel next

def view (m : FileMap) : FileView where
  readFile name :=
    match m.get? name with
    | some file => .ok file.content
    | none => .error (.on "open" (keyOf name) .noSuchName)
  holds name := .ok (m.get? name).isSome
  filesBelow path :=
    if (m.get? path).isSome then .ok (m.filesAt (m.files.length + 1) path)
    else .error (.on "open" (keyOf path) .noSuchName)

end FileMap

end BitSchema
