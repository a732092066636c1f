import BitSchema.File.Tree
import BitSchema.Plugin.Response

/-!
# Output files

Writes the files of a response below a directory.  All paths are checked before anything is written;
files are written in the order of their paths, and those written before a failure stay.
-/

namespace BitSchema

/-- Where output can be written. -/
structure OutputStore (σ : Type) where
  makeDirectories : String → ExceptT FileError (StateM σ) Unit
  writeFile : String → ByteArray → ExceptT FileError (StateM σ) Unit

namespace OutputStore

/-- A file tree. -/
def tree : OutputStore FileTree where
  makeDirectories := FileTree.makeDirectories
  writeFile path content := FileTree.Action.ofStep (·.writeFile path content)

/-- Files by their paths; there is nothing to fail. -/
def flat : OutputStore (List (String × ByteArray)) where
  makeDirectories _ := pure ()
  writeFile path content := modify fun files => files.filter (·.1 != path) ++ [(path, content)]

end OutputStore

/-- What has been written, and the error that ended it. -/
structure Writing where
  written : List String := []
  error? : Option PluginError := none

namespace Writing

variable {σ : Type}

/-- Write one file. -/
def one (store : OutputStore σ) (target content : String) : ExceptT FileError (StateM σ) Unit := do
  store.makeDirectories (Path.dir target)
  store.writeFile target content.toUTF8

/-- Write files until one fails. -/
def all (store : OutputStore σ) (dir : String) : List (String × String) → StateM σ Writing
  | [] => pure {}
  | (path, content) :: rest => do
    let target := Path.join [dir, path]
    match ← (one store target content).run with
    | .error cause => pure { error? := some (.file cause) }
    | .ok () =>
      let w ← all store dir rest
      pure { w with written := target :: w.written }

end Writing

/-- Write the files of a response below a directory. -/
def Response.write {σ : Type} (store : OutputStore σ) (dir : String) (r : Response) :
    StateM σ Writing :=
  if dir = "" then pure { error? := some .noOutputDirectory }
  else if r.files.isEmpty then pure { error? := some .noOutputFiles }
  else match r.check with
    | .error cause => pure { error? := some cause }
    | .ok () => Writing.all store dir r.sorted

end BitSchema
