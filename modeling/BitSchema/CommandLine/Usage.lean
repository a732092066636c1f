import BitSchema.CommandLine.Flag
import BitSchema.Text.Blank

/-!
# Commands and their usage

The commands of the program, their flags, and the help about them.
-/

namespace BitSchema.CommandLine

/-- A command of the program. -/
inductive Command where
  | check
  | compile
  | generate
  | help
  deriving DecidableEq, Repr

namespace Command

/-- The commands in the order they are listed. -/
def all : List Command := [check, compile, generate, help]

def name : Command → String
  | check => "check"
  | compile => "compile"
  | generate => "generate"
  | help => "help"

def ofName? (name : String) : Option Command := all.find? (·.name == name)

/-- The command with the arguments it takes. -/
def form : Command → String
  | check => "check [-I DIR]... [FILE...]"
  | compile => "compile [-I DIR]... [--format=json|text] [-o FILE] [FILE...]"
  | generate => "generate [--plugin NAME --out DIR] [--watch] [FILE...]"
  | help => "help [command]"

def summary : Command → String
  | check => "Report diagnostics without writing output"
  | compile => "Compile schemas and write their IR"
  | generate => "Run code generation plugins"
  | help => "Help about any command"

/-- The text that help on a command starts with. -/
def introduction : Command → String
  | help => "Help provides help for any command in the application.\n" ++
      "Simply type baproto help [path to command] for full details."
  | c => c.summary

/-- The flags of a command itself, in the order of their names. -/
def ownFlags : Command → List Flag
  | compile => [
    { name := "format", letter := some 'f', about := "output format: json or text",
      preset := "json" },
    { name := "output", letter := some 'o',
      about := "write the IR to this file instead of stdout" }]
  | generate => [
    { name := "out", about := "output directory for --plugin" },
    { name := "plugin",
      about := "plugin name or path (default: every [[generate]] entry in the config)" },
    { name := "plugin-path",
      about := "plugin search path (default: $BAPROTO_PLUGIN_PATH then $PATH)" },
    { name := "timeout", kind := .duration,
      about := "time limit for each plugin run with --plugin", preset := "30s" },
    { name := "watch", letter := some 'w', kind := .switch,
      about := "regenerate when schema files change" }]
  | _ => []

end Command

def programName : String := "baproto"

/-- The name of the command that shells call to complete a command line. -/
def completionName : String := "__complete"

/-- The same command without descriptions of what it offers. -/
def bareCompletionName : String := "__completeNoDesc"

/-- The flags that all commands take. -/
def globalFlags : List Flag := [
  { name := "config",
    about := "path to baproto.toml (default: search upward from the working directory)" },
  { name := "import-root", letter := some 'I', kind := .texts,
    about := "directory to search for included schemas (repeatable)" },
  { name := "verbose", letter := some 'v', kind := .switch, about := "enable debug logging" }]

def helpFlag (subject : String) : Flag :=
  { name := "help", letter := some 'h', kind := .switch, about := "help for " ++ subject }

/-- Flags in the order of their names. -/
def sortFlags (flags : List Flag) : List Flag := flags.mergeSort fun a b => a.name ≤ b.name

/-- All flags that a command takes. -/
def Command.flags (c : Command) : List Flag := c.ownFlags ++ [helpFlag c.name] ++ globalFlags

/-- The flags that the program takes without a command. -/
def rootFlags : List Flag := helpFlag programName :: globalFlags

/-! ## Help texts -/

/-- What kind of value a flag takes. -/
def FlagKind.label : FlagKind → String
  | switch => ""
  | text => " string"
  | texts => " stringArray"
  | duration => " duration"

/-- The left column of a flag. -/
def Flag.heading (f : Flag) : String :=
  (match f.letter with
    | some c => "  -" ++ c.toString ++ ", --" ++ f.name
    | none => "      --" ++ f.name) ++ f.kind.label

def Flag.remark (f : Flag) : String :=
  f.about ++
    if f.preset = "" then ""
    else if f.kind = .text then " (default " ++ Quoted.quoteString f.preset ++ ")"
    else " (default " ++ f.preset ++ ")"

def blanks (n : Nat) : String := String.ofList (List.replicate n ' ')

/-- A table of flags, the right column three blanks after the widest left one. -/
def flagTable (flags : List Flag) : String :=
  let flags := sortFlags flags
  let width := (flags.map (·.heading.length)).foldl max 0
  "\n".intercalate (flags.map fun f =>
    f.heading ++ blanks (width - f.heading.length + 3) ++ f.remark)

/-- A line for each command. -/
def commandTable : String :=
  String.join (Command.all.map fun c =>
    "\n  " ++ c.name ++ blanks (11 - c.name.length) ++ " " ++ c.summary)

/-- How the program is used; with the flag for help among its flags or not. -/
def rootUsageWith (flags : List Flag) : String :=
  "Usage:\n  baproto [options] COMMAND [flags]\n  baproto [command]" ++
    "\n\nAvailable Commands:" ++ commandTable ++
    "\n\nFlags:\n" ++ flagTable flags ++
    "\n\nUse \"baproto [command] --help\" for more information about a command.\n"

def rootUsage : String := rootUsageWith rootFlags

def Command.usage (c : Command) : String :=
  "Usage:\n  baproto " ++ c.form ++ " [flags]" ++
    "\n\nFlags:\n" ++ flagTable (c.ownFlags ++ [helpFlag c.name]) ++
    "\n\nGlobal Flags:\n" ++ flagTable globalFlags ++ "\n"

def rootHelp : String := "Compile bit-packed schema files\n\n" ++ rootUsage

def Command.helpText (c : Command) : String := c.introduction ++ "\n\n" ++ c.usage

/-! ## Which command -/

/-- The argument is a flag that takes the next argument as its value.  Flags that are not known
count as such. -/
def takesNext (flags : List Flag) (arg : String) : Bool :=
  match arg.toList with
  | '-' :: '-' :: name =>
    !name.contains '=' &&
      !((flagNamed? flags (String.ofList name)).any (·.kind == .switch))
  | ['-', c] =>
    c != '=' && c.toNat < 0x80 && !((flagLettered? flags c).any (·.kind == .switch))
  | _ => false

def isFlag (arg : String) : Bool := arg.toList.head? == some '-'

/-- The arguments that are neither flags nor values of flags. -/
def plainArgs (flags : List Flag) : List String → List String
  | [] => []
  | [arg] => if isFlag arg || arg = "" then [] else [arg]
  | arg :: next :: rest =>
    if arg = "--" then []
    else if takesNext flags arg then (if rest.isEmpty then [] else plainArgs flags rest)
    else if isFlag arg || arg = "" then plainArgs flags (next :: rest)
    else arg :: plainArgs flags (next :: rest)

/-- The arguments without the first that is a given word and no value of a flag. -/
def without (flags : List Flag) (word : String) : List String → List String
  | [] => []
  | [arg] => if arg = word && !isFlag arg then [] else [arg]
  | arg :: next :: rest =>
    if arg = "--" then arg :: next :: rest
    else if takesNext flags arg then arg :: next :: without flags word rest
    else if arg = word && !isFlag arg then next :: rest
    else arg :: without flags word (next :: rest)

/-- What the arguments of the program ask for. -/
inductive Selection where
  | root (args : List String)
  | command (c : Command) (args : List String)
  /-- Complete a command line, with descriptions or without. -/
  | completion (described : Bool) (args : List String)
  | unknown (word : String)
  deriving DecidableEq, Repr

/-- The command that arguments name. -/
def select (args : List String) : Selection :=
  match plainArgs globalFlags args with
  | [] => .root args
  | word :: _ =>
    match Command.ofName? word with
    | some c => .command c (without globalFlags word args)
    | none =>
      if word = completionName ∨ word = bareCompletionName then
        .completion (word = completionName) (without globalFlags word args)
      else .unknown word

/-! ## Suggestions -/

/-- A row of the table of distances, from the row above it. -/
def distanceRow (c : UInt8) : Nat → Octets → List Nat → List Nat
  | left, d :: ds, diagonal :: above :: rest =>
    let here := if c = d then diagonal else 1 + min diagonal (min left above)
    here :: distanceRow c here ds (above :: rest)
  | _, _, _ => []

/-- The number of single octets to change, add or leave out that turns one word into another. -/
def editDistance (a b : Octets) : Nat :=
  let start := List.range (b.length + 1)
  let last := a.zipIdx.foldl (fun row (c, i) => (i + 1) :: distanceRow c (i + 1) b row) start
  last.getLast?.getD 0

/-- The capitals outside ASCII whose small letter is encoded in another number of octets.  A letter
outside ASCII is as far from a command's name as any other, so the rest need no small letter. -/
def resizedSmallLetters : List (Nat × Nat) :=
  [(0x130, 0x69), (0x23A, 0x2C65), (0x23E, 0x2C66), (0x1E9E, 0xDF), (0x2126, 0x3C9), (0x212A, 0x6B),
  (0x212B, 0xE5), (0x2C62, 0x26B), (0x2C64, 0x27D), (0x2C6D, 0x251), (0x2C6E, 0x271),
  (0x2C6F, 0x250), (0x2C70, 0x252), (0x2C7E, 0x23F), (0x2C7F, 0x240), (0xA78D, 0x265),
  (0xA7AA, 0x266), (0xA7AB, 0x25C), (0xA7AC, 0x261), (0xA7AD, 0x26C), (0xA7AE, 0x26A),
  (0xA7B0, 0x29E), (0xA7B1, 0x287), (0xA7B2, 0x29D), (0xA7C5, 0x282), (0xA7CB, 0x264),
  (0xA7DC, 0x19B)]

/-- The small letter, as far as it tells words apart. -/
def lowerChar (c : Char) : Char :=
  match resizedSmallLetters.find? (·.1 == c.toNat) with
  | some (_, small) => Char.ofNat small
  | none => c.toLower

def lower (s : String) : Octets := Octets.ofString (String.ofList (s.toList.map lowerChar))

/-- The commands in the order they are suggested. -/
def suggestible : List Command := [.compile, .check, .generate]

/-- The commands that an unknown word may have meant. -/
def suggestions (word : String) : List Command :=
  suggestible.filter fun c =>
    editDistance (lower word) (lower c.name) ≤ 2 || (lower word).isPrefixOf (lower c.name)

def unknownCommandMessage (word : String) : String :=
  let found := suggestions word
  "unknown command " ++ Quoted.quoteString word ++ " for \"baproto\"" ++
    if found.isEmpty then ""
    else "\n\nDid you mean this?\n" ++ String.join (found.map fun c => "\t" ++ c.name ++ "\n")

end BitSchema.CommandLine
