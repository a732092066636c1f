import BitSchema.File.Path
import BitSchema.Json.Reading
import BitSchema.Plugin.Error

/-!
# Plugin responses

A plugin answers with a JSON object whose `files` are the contents of output files by their paths.
Paths are relative, have slashes between their parts, and stay inside the directory they are put in.
-/

namespace BitSchema

/-- What is wrong with a part of an output path. -/
def outputPartFault? (part : String) : Option OutputFault :=
  if part = "" ∨ part = "." ∨ part = ".." then some (.badPart part) else none

/-- What is wrong with an output path. -/
def outputPathFault? (path : String) : Option OutputFault :=
  if path = "" then some .empty
  else if Path.isAbsolute path || path.toList.contains '\\' then some .notRelative
  else (Path.elements path).findSome? outputPartFault?

def checkOutputPath (path : String) : Except PluginError Unit :=
  match outputPathFault? path with
  | some fault => .error (.badPath path fault)
  | none => .ok ()

/-- Output files: contents by path, each path once. -/
structure Response where
  files : List (String × String) := []
  deriving Inhabited

namespace Response

/-- Give a path contents, over those it has. -/
def insert (r : Response) (path content : String) : Response :=
  ⟨r.files.filter (·.1 != path) ++ [(path, content)]⟩

def ofList (files : List (String × String)) : Response :=
  files.foldl (fun r f => r.insert f.1 f.2) {}

/-- The files in the order of their paths. -/
def sorted (r : Response) : List (String × String) :=
  r.files.mergeSort fun a b => a.1 ≤ b.1

def paths (r : Response) : List String := r.sorted.map Prod.fst

/-- Check the paths in order. -/
def check (r : Response) : Except PluginError Unit := r.paths.forM checkOutputPath

/-- The files that objects give, each on top of those before it; a null takes all of them away. -/
def readFiles : Json.Reading Response := fun js =>
  js.foldlM (fun r j =>
    match j with
    | .null => some {}
    | .object members =>
      members.foldlM (fun r m => (Json.Reading.string [m.2]).map (r.insert m.1)) r
    | _ => none) {}

def read : Json.Reading Response := fun js => do
  let given ← Json.Reading.record ["files"] js
  readFiles (given "files")

/-- What is wrong with the contents of a file. -/
def contentFault? : Json → Option AnswerFault
  | .null => none
  | .string _ => none
  | j => some (.notContent j.kindText)

/-- What is wrong with a member of an answer. -/
def memberFault? (name : String) (value : Json) : Option AnswerFault :=
  if (fieldMeant? ["files"] name).isNone then some (.unknownField name)
  else match value with
    | .null => none
    | .object members => members.findSome? fun m => contentFault? m.2
    | j => some (.notFiles j.kindText)

/-- The first thing that is wrong with an answer. -/
def fault? : Json → Option AnswerFault
  | .null => none
  | .object members => members.findSome? fun m => memberFault? m.1 m.2
  | j => some (.notRecord j.kindText)

/-- The value that a plugin wrote. -/
def parseAnswer (output : Octets) : Except AnswerFault Json :=
  match Json.fault? output, Json.parse? output with
  | some fault, _ => .error (.text fault)
  | none, some (j, _) => .ok j
  | none, none => .error (.text .cutOff)

/-- The answer that a plugin wrote. -/
def decode (plugin : String) (output : Octets) : Except PluginError Response :=
  match parseAnswer output with
  | .error fault => .error (.malformed plugin fault)
  | .ok j =>
    match fault? j, read [j] with
    | some fault, _ => .error (.malformed plugin fault)
    | none, none => .error (.malformed plugin (.notRecord j.kindText))
    | none, some r =>
      if r.files.isEmpty then .error (.noFiles plugin)
      else match r.check with
        | .error cause => .error (.ofPlugin plugin cause)
        | .ok () => .ok r

/-- The answer as a plugin writes it. -/
def toJson (r : Response) : Json :=
  .object [("files", .object (r.sorted.map fun (path, content) => (path, .string content)))]

end Response

end BitSchema
