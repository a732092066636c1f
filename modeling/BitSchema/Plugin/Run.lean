import BitSchema.Ir.Document
import BitSchema.Plugin.Location
import BitSchema.Plugin.Response
import BitSchema.Text.Blank

/-!
# Running plugins

A plugin reads the schema as JSON and answers with a response.  It has failed if it ends with
another status than zero; what it wrote on its error stream is then the message.  What a plugin
makes of its input is its own affair: it is looked up in a runtime, of which nothing is assumed.
-/

namespace BitSchema

/-- What a program that ran has written, and the status it ended with. -/
structure ProcessResult where
  stdout : Octets := []
  stderr : Octets := []
  status : Nat := 0

/-- What a module that ran has written, and what stopped it early, if anything did. -/
structure ModuleResult where
  stdout : Octets := []
  stderr : Octets := []
  fault? : Option String := none

namespace Plugin

/-- What runs plugins: from the content of a file and an input, what comes of it, or why it cannot
be started.  By itself a runtime starts nothing. -/
structure Runtime where
  program : Octets → Octets → Except String ProcessResult := fun _ _ =>
    .error "operation not permitted"
  module : Octets → Octets → Except String ModuleResult := fun _ _ =>
    .error "operation not permitted"

/-- Why a plugin has failed: what it said on its error stream, else the cause. -/
def failureCause (stderr : Octets) (cause : PluginCause) : PluginCause :=
  let said := trimBlanks stderr.mend
  if said = "" then cause else .message said

/-! ## Processes -/

/-- The answer of a process that ran. -/
def ofResult (plugin : String) (result : ProcessResult) : Except PluginError Response :=
  if result.status ≠ 0 then
    .error (.failed plugin (failureCause result.stderr (.exitStatus result.status)))
  else Response.decode plugin result.stdout

/-- A time limit in nanoseconds that has passed before a process can start. -/
def hasPassed (limit : Int) : Bool := limit < 1000

/-- The directories that programs are found in; an empty one is the working directory. -/
def programDirs (programPath : String) : List String :=
  if programPath = "" then []
  else (programPath.splitOn ":").map fun dir => if dir = "" then "." else dir

/-- The file that is run for a path: a bare name is looked up in the directories that programs are
found in.  None is run that is found relative to the working directory. -/
def programOf (tree : FileTree) (programPath path : String) : Except PluginCause String :=
  if path.toList.contains '/' then .ok path
  else
    let candidates := (programDirs programPath).map fun dir => Path.join [dir, path]
    match candidates.find? tree.isExecutable with
    | some found => if Path.isAbsolute found then .ok found else .error (.relativeProgram path)
    | none => .error (.notInSearchPath path)

/-- Run the program in a file. -/
def runProgram (runtime : Runtime) (tree : FileTree) (path : String) (stdin : Octets) :
    Except PluginCause ProcessResult :=
  match tree.readFile path with
  | .error cause => .error (.notStarted path cause.reason.message)
  | .ok content => (runtime.program content.toList stdin).mapError (.notStarted path)

def runProcess (runtime : Runtime) (tree : FileTree) (programPath path : String) (limit : Int)
    (request : Octets) : Except PluginError Response :=
  let plugin := nameOf path
  if hasPassed limit then .error (.failed plugin .timeLimit)
  else
    match programOf tree programPath path >>= fun p => runProgram runtime tree p request with
    | .error cause => .error (.failed plugin cause)
    | .ok result => ofResult plugin result

/-! ## WebAssembly modules -/

/-- The answer of a module. -/
def runModule (runtime : Runtime) (plugin : String) (module request : Octets) :
    Except PluginError Response :=
  match runtime.module module request with
  | .error cause => .error (.failed plugin (.message cause))
  | .ok result =>
    match result.fault? with
    | some fault => .error (.failed plugin (failureCause result.stderr (.message fault)))
    | none => Response.decode plugin result.stdout

/-- Run the module in a file, or the one that is given instead. -/
def runWasm (runtime : Runtime) (tree : FileTree) (path : String) (given : Option Octets)
    (request : Octets) : Except PluginError Response :=
  match given with
  | some module => runModule runtime (nameOf path) module request
  | none =>
    match tree.readFile path with
    | .error cause => .error (.unreadable cause)
    | .ok content => runModule runtime (nameOf path) content.toList request

/-! ## Requests -/

/-- What a plugin reads for a schema. -/
def request (schema : Ir.Schema) : Except Json.Fault Octets := Octets.ofString <$> schema.encode

def requestFaultMessage (fault : Json.Fault) : String := "encoding request: " ++ fault.message

/-- What a plugin makes of a request. -/
def generate (runtime : Runtime) (tree : FileTree) (programPath : String) (p : Plugin)
    (limit : Int) (request : Octets) : Except PluginError Response :=
  match p.kind with
  | .process => runProcess runtime tree programPath p.path limit request
  | .wasm => runWasm runtime tree p.path none request

end Plugin

end BitSchema
