import BitSchema.File.Error
import BitSchema.File.Path
import BitSchema.Text.Quoted

/-!
# Importers

Where schema files come from: an importer finds the file that an include path means, and reads it.
-/

namespace BitSchema

/-- The ending of schema files. -/
def schemaExtension : String := ".baproto"

/-- Why an include path leads to no file. -/
inductive ImportError where
  | emptyPath
  | absolutePath (path : Octets)
  | wrongExtension (path : Octets)
  | notRegular (path : Octets)
  | notFound (path : Octets)
  | escapesRoot (path : Octets)
  | resolvesOutside (path : Octets) (target : String)
  | outsideRoots (path : String)
  | file (error : FileError)
  deriving DecidableEq, Repr

namespace ImportError

def message : ImportError → String
  | emptyPath => "invalid import path: empty path"
  | absolutePath path => "invalid import path: " ++ Quoted.quote path ++ " is absolute"
  | wrongExtension path =>
    "invalid import path: " ++ Quoted.quote path ++ " does not end in " ++ schemaExtension
  | notRegular path => "invalid import path: " ++ Quoted.quote path ++ " is not a regular file"
  | notFound path => "schema not found in any import root: " ++ Quoted.quote path
  | escapesRoot path => "import escapes its import root: " ++ Quoted.quote path
  | resolvesOutside path target =>
    "import escapes its import root: " ++ Quoted.quote path ++ " resolves to " ++ target
  | outsideRoots path =>
    s!"import escapes its import root: {path} is not inside any import root"
  | file error => error.message

end ImportError

/-- Why a file that was found cannot be read. -/
inductive ReadError where
  | noImporter
  | denied
  | file (error : FileError)
  deriving DecidableEq, Repr

def ReadError.message : ReadError → String
  | noImporter => "no importer configured"
  | denied => "denied"
  | file error => error.message

/-- What can be said of an include path without looking for its file. -/
def checkIncludePath (path : Octets) : Except ImportError Unit :=
  if path.isEmpty then .error .emptyPath
  else if Path.isAbsolute path.octetwise then .error (.absolutePath path)
  else if Path.ext path.octetwise != schemaExtension then .error (.wrongExtension path)
  else .ok ()

/-- Finds and reads schema files.  Include paths resolve to at most `fileCount` different files. -/
structure Importer where
  fileCount : Nat
  resolve : Octets → Except ImportError String
  read : String → Except ReadError ByteArray

end BitSchema
