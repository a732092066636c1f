import BitSchema.CommandLine.Completion
import BitSchema.CommandLine.Generation
import BitSchema.Ir.Listing

/-!
# The program

Runs the command that the arguments of the program ask for.
-/

namespace BitSchema.CommandLine

/-- Where a run of the program has come to. -/
inductive Status where
  | exited (exit : Exit)
  /-- It waits for schemas to change. -/
  | watching (w : Watching)

/-! ## Commands -/

/-- Report what is wrong with schemas. -/
def checkSchemas (p : Parsed) : Job Unit := do
  let s ← Session.start p
  let (c, _) ← s.compile p.args
  s.log [⟨.info, "schemas ok", [("files", toString c.modules.length)]⟩]

/-- How a compiled schema is written. -/
inductive Format where
  | json
  | text
  deriving DecidableEq, Repr

namespace Format

def name : Format → String
  | json => "json"
  | text => "text"

def ofName? (name : String) : Option Format := [json, text].find? (·.name == name)

def write : Format → Ir.Schema → Except Json.Fault String
  | json, schema => schema.encode
  | text, schema => .ok schema.listing

end Format

def formatOf (p : Parsed) : Job Format :=
  let name := (p.value? "format").getD Format.json.name
  match Format.ofName? name with
  | some format => pure format
  | none => stop .usage <| "Unsupported output format " ++ Quoted.quoteString name ++
      " (choose 'json' or 'text')"

/-- Write compiled schemas out, or to a file. -/
def compileSchemas (p : Parsed) : Job Unit := do
  let format ← formatOf p
  let s ← Session.start p
  let (_, schema) ← s.compile p.args
  let output ← orStop Json.Fault.message (format.write schema)
  let path := p.text "output"
  if path = "" then print (Octets.ofString output)
  else
    setTree (← orStop FileError.message ((← tree).writeFile path output.toUTF8))
    s.log [⟨.info, "wrote IR", [("path", path), ("format", format.name)]⟩]

/-- Generate code, and then watch if that is asked for. -/
def generateCode (p : Parsed) : Job (Option Watching) := do
  let g ← Generation.start p
  if p.isOn "watch" then
    attempt g.run
    return some (← Watching.start g)
  else
    g.run
    return none

/-! ## Help -/

/-- A text can stand between back quotes. -/
def fitsBackQuotes (s : String) : Bool :=
  s.toList.all fun c =>
    c != '\x60' && c.toNat != 0xFEFF && c.toNat != 0x7F && (c == '\t' || 0x20 ≤ c.toNat)

def quoteTopic (s : String) : String :=
  if fitsBackQuotes s then "\x60" ++ s ++ "\x60" else Quoted.quoteString s

/-- Help on what arguments name. -/
def helpOn (args : List String) : String :=
  match select args with
  | .root _ => rootHelp
  | .command c _ => c.helpText
  | .completion .. | .unknown _ =>
    "Unknown help topic " ++ listText (args.map quoteTopic) ++ "\n" ++ rootUsageWith globalFlags

def printText (text : String) : StateM World Unit := print (Octets.ofString text)

/-! ## Running -/

def exitOf {α : Type} (job : Job α) : StateM World Status := do
  match ← job.run with
  | .ok _ => return .exited .ok
  | .error exit => return .exited exit

/-- What flags ask of a command. -/
def Command.run (c : Command) (p : Parsed) : StateM World Status :=
  match c with
  | .check => exitOf (checkSchemas p)
  | .compile => exitOf (compileSchemas p)
  | .generate => do
    match ← (generateCode p).run with
    | .ok (some w) => return .watching w
    | .ok none => return .exited .ok
    | .error exit => return .exited exit
  | .help => do
    printText (helpOn p.args)
    return .exited .ok

def misuse (message : String) : StateM World Status := do
  complain ("Error: " ++ message)
  return .exited .usage

/-- Parse flags, and go on unless they ask for help. -/
def withFlags (flags : List Flag) (help : String) (args : List String)
    (next : Parsed → StateM World Status) : StateM World Status :=
  match parseFlags flags args with
  | .error cause => misuse cause.message
  | .ok p =>
    if p.isOn "help" then do
      printText help
      return .exited .ok
    else next p

/-- The variable that turns descriptions off where they are not asked for. -/
def descriptionsVariable : String := "BAPROTO_COMPLETION_DESCRIPTIONS"

/-- Print what a shell can offer. -/
def printCompletion (described : Bool) (words : List String) : StateM World Status := do
  let wanted := (switch? ((← get).value descriptionsVariable)).getD true
  let c := complete words
  printText (c.answer (described && wanted))
  printError c.remarks
  return .exited .ok

/-- Run the program on its arguments. -/
def run (args : List String) : StateM World Status :=
  match select args with
  | .unknown word => misuse (unknownCommandMessage word)
  | .command c args => withFlags c.flags c.helpText args c.run
  | .completion described words =>
    if words.isEmpty then misuse "requires at least 1 arg(s), only received 0"
    else printCompletion described words
  | .root args => withFlags rootFlags rootHelp args fun _ => do
    printError (Octets.ofString rootUsage)
    return .exited .usage

/-- Run the program while the tree changes.  It ends a watch normally once there are no more
changes. -/
def runWith (args : List String) (changes : List FileChange) : StateM World Exit := do
  match ← run args with
  | .exited exit => return exit
  | .watching w =>
    let _ ← changes.foldlM Watching.change w
    return .ok

end BitSchema.CommandLine
