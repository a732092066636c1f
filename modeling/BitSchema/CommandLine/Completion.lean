import BitSchema.CommandLine.Usage

/-!
# Completing a command line

What a shell can offer for a word that is not written to its end: the names of commands, or the
flags of the command that the words before it name.  With them goes a directive, which says whether
files may be offered too.
-/

namespace BitSchema.CommandLine

/-- What may be offered besides the choices. -/
inductive Directive where
  | files
  | noFiles
  deriving DecidableEq, Repr

namespace Directive

def code : Directive → Nat
  | files => 0
  | noFiles => 4

def name : Directive → String
  | files => "ShellCompDirectiveDefault"
  | noFiles => "ShellCompDirectiveNoFileComp"

end Directive

/-- One thing to offer, and what it is. -/
structure Choice where
  word : String
  about : String
  deriving DecidableEq, Repr

/-- Why there is nothing to offer. -/
inductive CompletionFault where
  | noCommand (args : List String)
  | badFlags (args : List String) (cause : FlagError)
  /-- The flag before the word, or in front of it, is none of the command. -/
  | noFlag (command : String) (flag : Octets)
  deriving DecidableEq, Repr

def CompletionFault.message : CompletionFault → Octets
  | noCommand args => Octets.ofString ("unable to find a command for arguments: " ++ listText args)
  | badFlags args cause =>
    Octets.ofString ("Error while parsing flags from args " ++ listText args ++ ": " ++
      cause.message)
  | noFlag command flag =>
    Octets.ofString s!"Subcommand '{command}' does not support flag '" ++ flag ++
      Octets.ofString "'"

structure Completion where
  choices : List Choice := []
  directive : Directive := .files
  fault? : Option CompletionFault := none
  deriving DecidableEq, Repr

/-- What the words before tell to complete. -/
inductive Completing where
  | root
  | command (c : Command)
  /-- The command that completes. -/
  | completion
  deriving DecidableEq, Repr

namespace Completing

def name : Completing → String
  | root => programName
  | command c => c.name
  | completion => completionName

/-- The flags that are the command's own, and after them those it shares with the others. -/
def ownFlags : Completing → List Flag
  | root => sortFlags rootFlags
  | command c => sortFlags (c.ownFlags ++ [helpFlag c.name])
  | completion => [helpFlag completionName]

def sharedFlags : Completing → List Flag
  | root => []
  | _ => globalFlags

def flags (t : Completing) : List Flag := t.sharedFlags ++ t.ownFlags

/-- The command that completes takes flags as plain arguments. -/
def readsFlags : Completing → Bool
  | completion => false
  | _ => true

end Completing

namespace Completion

def equalsSign : UInt8 := 0x3D

def hyphen : UInt8 := 0x2D

/-- An argument that is a flag: two hyphens and more, or one hyphen and a letter. -/
def isWholeFlag : Octets → Bool
  | a :: b :: rest => a == hyphen && (b != hyphen || !rest.isEmpty)
  | _ => false

/-- The name in a flag: after two hyphens all of it, else its last letter. -/
def nameIn (flag : Octets) : Octets :=
  match flag with
  | a :: b :: rest => if a == hyphen && b == hyphen then rest else flag.drop (flag.length - 1)
  | _ => flag.drop (flag.length - 1)

/-- The flag of a name; one octet is a letter. -/
def flagOf? (flags : List Flag) (name : Octets) : Option Flag :=
  match name with
  | [letter] => flagLettered? flags (Char.ofNat letter.toNat)
  | _ => flags.find? (Octets.ofString ·.name == name)

/-- The flag whose value is to be completed, what is left of the words before, and the word. -/
structure Pending where
  flag? : Option Flag := none
  args : List String
  word : String
  fault? : Option CompletionFault := none

/-- The word is the value of the flag with a name; `given` says that both are written in one. -/
def pendingValue (t : Completing) (args trimmed : List String) (whole word : String) (name : Octets)
    (given : Bool) : Pending :=
  match flagOf? t.flags name with
  | none => { args, word := whole, fault? := some (.noFlag t.name name) }
  | some f =>
    if !given && f.kind = .switch then { args, word }
    else { flag? := some f, args := trimmed, word }

/-- The word may be the value of the flag before it. -/
def pendingAfter (t : Completing) (args : List String) (whole word : String) (given : Bool) :
    Pending :=
  match args.getLast? with
  | none => { args, word }
  | some last =>
    let flag := Octets.ofString last
    if isWholeFlag flag && !flag.contains equalsSign then
      pendingValue t args args.dropLast whole word (nameIn flag) given
    else { args, word }

/-- What the word is to the flags: a flag itself, the value of one, or neither. -/
def pending (t : Completing) (args : List String) (word : String) : Pending :=
  let octets := Octets.ofString word
  if !t.readsFlags then { args, word }
  else if octets.head? = some hyphen then
    if octets.contains equalsSign then
      let name := nameIn (octets.takeWhile (· != equalsSign))
      let value := String.ofList ((word.toList.dropWhile (· != '=')).drop 1)
      if name.isEmpty then pendingAfter t args word value true
      else pendingValue t args args word value name true
    else { args, word }
  else pendingAfter t args word word false

def startsWith (word text : String) : Bool := word.toList.isPrefixOf text.toList

/-- The commands whose names start so. -/
def commands (word : String) : List Choice :=
  (Command.all.filter fun c => startsWith word c.name).map fun c => ⟨c.name, c.summary⟩

/-- The ways to write a flag that start so. -/
def flagChoices (word : String) (f : Flag) : List Choice :=
  let forms := ("--" ++ f.name) :: (f.letter.map fun c => "-" ++ c.toString).toList
  (forms.filter (startsWith word)).map (⟨·, f.about⟩)

/-- The flags that may still be given. -/
def flagNames (t : Completing) (given : List String) (word : String) : List Choice :=
  (t.flags.filter fun f => f.kind = .texts || !given.contains f.name).flatMap (flagChoices word)

/-- Topics of help after the words of a topic. -/
def topics (args : List String) (word : String) : List Choice :=
  match select args with
  | .root _ => commands word
  | _ => []

/-- What may stand where the word does, once it is clear that it is no flag. -/
def arguments (t : Completing) (args : List String) (word : String) : Completion :=
  match t with
  | .root => if args.isEmpty then { choices := commands word, directive := .noFiles } else {}
  | .command .help => { choices := topics args word, directive := .noFiles }
  | _ => {}

/-- Complete a word for a command.  Flags are not completed once they have ended. -/
def ofCommand (t : Completing) (args : List String) (word : String) : Completion :=
  let p := pending t args word
  let parse := fun args => if t.readsFlags then parseFlags t.flags args else .ok {}
  match parse p.args with
  | .error cause => { fault? := some (.badFlags p.args cause) }
  | .ok parsed =>
    let ended := match parse (p.args ++ ["--"]) with
      | .ok longer => parsed.args.length < longer.args.length
      | .error _ => false
    let given := parsed.given.map Prod.fst
    let plain := if t.readsFlags then parsed.args else p.args
    if p.fault?.isSome && !ended then { fault? := p.fault? }
    else if given.contains "help" then { directive := .noFiles }
    else if p.flag?.isNone && startsWith "-" p.word && !p.word.toList.contains '=' && !ended then
      { choices := flagNames t given p.word, directive := .noFiles }
    else if p.flag?.isSome then
      if ended && t = .command .help then arguments t plain p.word else {}
    else arguments t plain p.word

end Completion

/-- Complete the last of some words. -/
def complete (words : List String) : Completion :=
  let before := words.dropLast
  let word := words.getLast?.getD ""
  match select before with
  | .unknown _ => { fault? := some (.noCommand before) }
  | .root args => Completion.ofCommand .root args word
  | .command c args => Completion.ofCommand (.command c) args word
  | .completion _ args => Completion.ofCommand .completion args word

/-- The text before a character. -/
def textBefore (c : Char) (text : String) : String :=
  String.ofList (text.toList.takeWhile (· != c))

/-- The line of a choice, with its description or without. -/
def Choice.line (described : Bool) (c : Choice) : String :=
  trimBlanks (textBefore '\n'
    (if described then c.word ++ "\t" ++ c.about else textBefore '\t' c.word))

namespace Completion

/-- What is printed for the shell. -/
def answer (described : Bool) (c : Completion) : String :=
  String.join (c.choices.map (·.line described ++ "\n")) ++ s!":{c.directive.code}\n"

/-- What is printed for people. -/
def remarks (c : Completion) : Octets :=
  (match c.fault? with
    | some fault => Octets.ofString "[Debug] [Error] " ++ fault.message ++ Octets.ofString "\n"
    | none => []) ++
    Octets.ofString ("Completion ended with directive: " ++ c.directive.name ++ "\n")

end Completion

end BitSchema.CommandLine
