import BitSchema.File.Error
import BitSchema.File.Glob
import BitSchema.Log.Level
import BitSchema.Toml.Fault

/-!
# Configuration errors

What can be wrong with a project file.
-/

namespace BitSchema

/-- Why there is no configuration. -/
inductive ConfigError where
  | file (cause : FileError)
  | toml (fault : Toml.Fault)
  | unknownKey (key : Toml.Key)
  | level (cause : Log.LevelError)
  | emptyRoot (index : Nat)
  | badPattern (list : String) (index : Nat) (pattern : String) (fault : Glob.Fault)
  | emptyPlugin (index : Nat)
  | emptyOut (index : Nat)
  deriving DecidableEq, Repr

namespace ConfigError

/-- What is wrong; of a pattern only that it is. -/
def brief : ConfigError → String
  | file cause => cause.message
  | toml fault => fault.message
  | unknownKey key => "unknown key " ++ Quoted.quoteString (Toml.keyText key)
  | level cause => "log.level: " ++ cause.message
  | emptyRoot index => s!"import_roots[{index}] must not be empty"
  | badPattern list index pattern _ =>
    s!"{list}[{index}]: invalid pattern " ++ Quoted.quoteString pattern
  | emptyPlugin index => s!"generate[{index}].plugin must not be empty"
  | emptyOut index => s!"generate[{index}].out must not be empty"

/-- What is wrong, and why. -/
def detail (e : ConfigError) : String :=
  match e with
  | badPattern _ _ _ fault => e.brief ++ ": " ++ fault.message
  | _ => e.brief

/-- What is wrong with the project file at a path. -/
def message (path : String) (e : ConfigError) : String :=
  match e with
  | file cause => cause.message
  | _ => path ++ ": " ++ e.detail

end ConfigError

end BitSchema
