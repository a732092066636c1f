/-!
# File errors

What a file system says when an operation on a path fails.
-/

namespace BitSchema

inductive FileReason where
  | notExist
  | noSuchName
  | notDirectory
  | isDirectory
  | exists
  | tooManyLinks
  | linkLimit
  | invalid
  | nameTooLong
  deriving DecidableEq, Repr

def FileReason.message : FileReason → String
  | notExist => "no such file or directory"
  | noSuchName => "file does not exist"
  | notDirectory => "not a directory"
  | isDirectory => "is a directory"
  | .exists => "file exists"
  | tooManyLinks => "too many levels of symbolic links"
  | linkLimit => "EvalSymlinks: too many links"
  | invalid => "invalid argument"
  | nameTooLong => "file name too long"

/-- A failed operation; without a subject only the reason is told. -/
structure FileError where
  subject : Option (String × String)
  reason : FileReason
  deriving DecidableEq, Repr

namespace FileError

/-- An operation failed on a path. -/
def on (operation path : String) (reason : FileReason) : FileError :=
  ⟨some (operation, path), reason⟩

def message (e : FileError) : String :=
  match e.subject with
  | some (operation, path) => s!"{operation} {path}: " ++ e.reason.message
  | none => e.reason.message

end FileError

end BitSchema
