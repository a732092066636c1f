import BitSchema.File.Tree
import BitSchema.Import.Importer

/-!
# Import roots

An importer over a file tree.  Include paths are looked up below a list of directories, the first
that has the file wins, and what is found has to lie inside the directory it was found in, links
followed.

`rel` goes the other way, from a file to the include path that means it: below the first root that
contains the file.
-/

namespace BitSchema

/-- Why a directory cannot be an import root. -/
inductive RootError where
  | unreachable (dir : String) (cause : FileError)
  | notDirectory (dir : String)
  deriving DecidableEq, Repr

def RootError.message : RootError → String
  | unreachable dir cause => "import root " ++ Quoted.quoteString dir ++ ": " ++ cause.message
  | notDirectory dir => "import root " ++ Quoted.quoteString dir ++ " is not a directory"

/-- The directories that includes are looked up in, as canonical paths. -/
structure ImportRoots where
  tree : FileTree
  dirs : List String

namespace ImportRoots

/-- A directory as a root. -/
def rootOf (tree : FileTree) (dir : String) : Except RootError String :=
  match tree.canonical dir with
  | .error cause => .error (.unreachable dir cause)
  | .ok root =>
    match tree.stat root with
    | .error cause => .error (.unreachable dir cause)
    | .ok node => if node.isDirectory then .ok root else .error (.notDirectory dir)

def ofDirectories (tree : FileTree) (dirs : List String) : Except RootError ImportRoots :=
  (dirs.mapM (rootOf tree)).map fun roots => { tree, dirs := roots }

/-- Where an include path leads from a root. -/
def below (root : String) (path : Octets) : Octets := Path.joinOctets [Octets.ofString root, path]

/-- The file that an include path means below one root; `none` if there is nothing. -/
def resolveBelow (tree : FileTree) (path : Octets) (root : String) :
    Except ImportError (Option String) :=
  match tree.statOctets (below root path) with
  | .error cause => if cause.reason = .notExist then .ok none else .error (.file cause)
  | .ok node =>
    if !node.isRegular then .error (.notRegular path)
    else match tree.canonical (below root path).toString with
      | .error cause => .error (.file cause)
      | .ok target =>
        if Path.within root target then .ok (some target)
        else .error (.resolvesOutside path target)

/-- The file that an include path means below the first root that has it. -/
def resolveIn (tree : FileTree) (path : Octets) : List String → Except ImportError String
  | [] => .error (.notFound path)
  | root :: rest =>
    match resolveBelow tree path root with
    | .error cause => .error cause
    | .ok (some target) => .ok target
    | .ok none => resolveIn tree path rest

/-- The file that an include path means. -/
def resolve (r : ImportRoots) (path : Octets) : Except ImportError String := do
  checkIncludePath path
  resolveIn r.tree path r.dirs

def read (r : ImportRoots) (path : String) : Except ReadError ByteArray :=
  match r.tree.readFile path with
  | .ok content => .ok content
  | .error cause => .error (.file cause)

/-- The include path that means a file: its path from the first root that contains it. -/
def rel (r : ImportRoots) (file : String) : Except ImportError String :=
  match r.tree.canonical file with
  | .error cause => .error (.file cause)
  | .ok target =>
    match r.dirs.find? (Path.within · target) with
    | none => .error (.outsideRoots file)
    | some root => .ok ((Path.rel? root target).getD "")

def importer (r : ImportRoots) : Importer where
  fileCount := r.tree.nodes.length + 1
  resolve := r.resolve
  read := r.read

end ImportRoots

end BitSchema
