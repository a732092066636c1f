import BitSchema.Import.Importer

/-!
# Schemas in memory

An importer over files that are given as a list of paths and contents.  An include path is cleaned,
and then has to be text and to stay inside the tree that the paths span.  `resolveLocal` does this
for any file system that tells what it has at a path.
-/

namespace BitSchema

/-- What a file system has at a slash path. -/
inductive FileStatus where
  | regular
  /-- A directory, or anything else that is no regular file. -/
  | other
  | missing
  | failed (cause : FileError)
  deriving DecidableEq, Repr

/-- The file that an include path means in a file system. -/
def resolveLocal (status : String → FileStatus) (path : Octets) : Except ImportError String := do
  checkIncludePath path
  match (Path.cleanOctets path).toString? with
  | none => throw (.escapesRoot path)
  | some clean =>
    if !Path.isLocal clean then throw (.escapesRoot path)
    match status clean with
    | .regular => return clean
    | .other => throw (.notRegular path)
    | .missing => throw (.notFound path)
    | .failed cause => throw (.file cause)

/-- Files by their slash paths; those in `unreadable` are there but cannot be read. -/
structure MemoryFiles where
  files : List (String × ByteArray)
  unreadable : List String := []

namespace MemoryFiles

def content? (m : MemoryFiles) (path : String) : Option ByteArray :=
  (m.files.find? (·.1 == path)).map Prod.snd

/-- Some file lies below a path. -/
def isDirectory (m : MemoryFiles) (path : String) : Bool :=
  path = "." || m.files.any fun f => (path ++ "/").toList.isPrefixOf f.1.toList

def status (m : MemoryFiles) (path : String) : FileStatus :=
  if (m.content? path).isSome then .regular
  else if m.isDirectory path then .other else .missing

def resolve (m : MemoryFiles) : Octets → Except ImportError String := resolveLocal m.status

def read (m : MemoryFiles) (path : String) : Except ReadError ByteArray :=
  if m.unreadable.contains path then .error .denied
  else match m.content? path with
    | some content => .ok content
    | none => .error (.file (.on "open" path .notExist))

def importer (m : MemoryFiles) : Importer where
  fileCount := m.files.length
  resolve := m.resolve
  read := m.read

end MemoryFiles

end BitSchema
