import BitSchema.File.Error
import BitSchema.Json.Fault

/-!
# Plugin errors

Why a plugin cannot be found or run, and what can be wrong with what it answers.
-/

namespace BitSchema

/-- What is wrong with the path of an output file. -/
inductive OutputFault where
  | empty
  | notRelative
  | badPart (part : String)
  deriving DecidableEq, Repr

def OutputFault.message : OutputFault → String
  | empty => "empty"
  | notRelative => "not relative"
  | badPart part => "bad path component " ++ Quoted.quoteString part

/-- Why a plugin has failed. -/
inductive PluginCause where
  /-- What it wrote on its error stream, or what its runtime says. -/
  | message (text : String)
  | exitStatus (code : Nat)
  | timeLimit
  | notStarted (path : String) (reason : String)
  | notInSearchPath (file : String)
  /-- A bare name that is found in a directory that is not absolute. -/
  | relativeProgram (file : String)
  deriving DecidableEq, Repr

def PluginCause.text : PluginCause → String
  | message text => text
  | exitStatus code => s!"exit status {code}"
  | timeLimit => "context deadline exceeded"
  | notStarted path reason => s!"fork/exec {path}: {reason}"
  | notInSearchPath file =>
    "exec: " ++ Quoted.quoteString file ++ ": executable file not found in $PATH"
  | relativeProgram file => "exec: " ++ Quoted.quoteString file ++
      ": cannot run executable found relative to current directory"

/-- Why an answer is not of the right form. -/
inductive AnswerFault where
  | text (fault : Json.Fault)
  | unknownField (name : String)
  | notRecord (kind : String)
  | notFiles (kind : String)
  | notContent (kind : String)
  deriving DecidableEq, Repr

def AnswerFault.message : AnswerFault → String
  | text fault => fault.message
  | unknownField name => "json: unknown field " ++ Quoted.quoteString name
  | notRecord kind => s!"json: cannot unmarshal {kind} into Go value of type codegen.Response"
  | notFiles kind =>
    s!"json: cannot unmarshal {kind} into Go struct field Response.files of type map[string]string"
  | notContent kind =>
    s!"json: cannot unmarshal {kind} into Go struct field Response.files of type string"

/-- Why there is no output of a plugin. -/
inductive PluginError where
  | noName
  | notOnSearchPath (file : String)
  | notRunnable (path : String)
  | unreadable (cause : FileError)
  | failed (plugin : String) (cause : PluginCause)
  | malformed (plugin : String) (fault : AnswerFault)
  | noFiles (plugin : String)
  | badPath (path : String) (fault : OutputFault)
  | noOutputFiles
  | noOutputDirectory
  | file (cause : FileError)
  /-- An error in what one plugin answered. -/
  | ofPlugin (plugin : String) (cause : PluginError)
  deriving DecidableEq, Repr

namespace PluginError

def message : PluginError → String
  | noName => "codegen plugin not found: empty plugin name"
  | notOnSearchPath sought => s!"codegen plugin not found: {sought} not found in plugin path"
  | notRunnable path => s!"codegen plugin not found: {path} is not an executable or .wasm file"
  | unreadable cause => "codegen plugin not found: " ++ cause.message
  | failed plugin cause => s!"codegen plugin failed: {plugin}: " ++ cause.text
  | malformed plugin fault => s!"invalid plugin output: plugin {plugin}: " ++ fault.message
  | noFiles plugin =>
    s!"invalid plugin output: plugin {plugin} did not generate any output files"
  | badPath path fault =>
    "invalid plugin output: output path " ++ Quoted.quoteString path ++ ": " ++ fault.message
  | noOutputFiles => "invalid plugin output: no output files"
  | noOutputDirectory => "no output directory specified"
  | file cause => cause.message
  | ofPlugin plugin cause => s!"plugin {plugin}: " ++ cause.message

end PluginError

end BitSchema
