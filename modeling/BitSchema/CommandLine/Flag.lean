import BitSchema.Text.Quoted
import BitSchema.Time.Duration

/-!
# Flags

Options of a command.  A flag has a name and perhaps a letter, and takes a value, except that a
switch may go without one: `--name=value`, `--name value`, `-n value`, `-nvalue`, `-n=value`, `-abc`
for several letters.  Flags and arguments may come in any order, and `--` ends the flags.
-/

namespace BitSchema.CommandLine

/-- A list as messages show it. -/
def listText (items : List String) : String := "[" ++ " ".intercalate items ++ "]"

/-- What a flag takes. -/
inductive FlagKind where
  | switch
  | text
  /-- A text that may be given more than once. -/
  | texts
  | duration
  deriving DecidableEq, Repr

structure Flag where
  name : String
  letter : Option Char := none
  kind : FlagKind := .text
  about : String
  /-- The value it has if it is not given, as it is written. -/
  preset : String := ""
  deriving DecidableEq, Repr

/-- Why a value does not fit a flag. -/
inductive ValueFault where
  | notSwitch (value : String)
  | notDuration (value : String) (fault : Duration.Fault)
  deriving DecidableEq, Repr

def ValueFault.message : ValueFault → String
  | notSwitch value =>
    "strconv.ParseBool: parsing " ++ Quoted.quoteString value ++ ": invalid syntax"
  | notDuration value fault => fault.message value

/-- What is wrong with the flags of a command. -/
inductive FlagError where
  | badForm (arg : String)
  | unknownName (name : String)
  | unknownLetter (letter : Char) (letters : String)
  | nameNeedsValue (name : String)
  | letterNeedsValue (letter : Char) (letters : String)
  | badValue (flag : Flag) (value : String) (fault : ValueFault)
  deriving DecidableEq, Repr

/-- A flag by all its names. -/
def Flag.text (f : Flag) : String :=
  match f.letter with
  | some c => "-" ++ c.toString ++ ", --" ++ f.name
  | none => "--" ++ f.name

/-- A letter as it is shown: the first octet of its encoding. -/
def shownLetter (c : Char) : Char :=
  Char.ofNat (((Octets.ofString c.toString).head?.map UInt8.toNat).getD 0)

/-- A letter between apostrophes. -/
def quoteLetter (letter : Char) : String := Quoted.quoteLone (shownLetter letter)

def FlagError.message : FlagError → String
  | badForm arg => "bad flag syntax: " ++ arg
  | unknownName name => "unknown flag: --" ++ name
  | unknownLetter letter letters =>
    "unknown shorthand flag: " ++ quoteLetter letter ++ " in -" ++ letters
  | nameNeedsValue name => "flag needs an argument: --" ++ name
  | letterNeedsValue letter letters =>
    "flag needs an argument: " ++ quoteLetter letter ++ " in -" ++ letters
  | badValue flag value fault =>
    "invalid argument " ++ Quoted.quoteString value ++ " for " ++ Quoted.quoteString flag.text ++
      " flag: " ++ fault.message

/-- The state of a switch. -/
def switch? (value : String) : Option Bool :=
  if ["1", "t", "T", "TRUE", "true", "True"].contains value then some true
  else if ["0", "f", "F", "FALSE", "false", "False"].contains value then some false
  else none

/-- A value fits a flag. -/
def Flag.check (f : Flag) (value : String) : Except FlagError Unit :=
  match f.kind with
  | .switch =>
    if (switch? value).isSome then .ok () else .error (.badValue f value (.notSwitch value))
  | .duration =>
    match Duration.parse value with
    | .ok _ => .ok ()
    | .error fault => .error (.badValue f value (.notDuration value fault))
  | _ => .ok ()

/-! ## Reading arguments -/

/-- The flags that are given, in order, and the other arguments. -/
structure Parsed where
  given : List (String × String) := []
  args : List String := []
  deriving DecidableEq, Repr

namespace Parsed

def give (p : Parsed) (f : Flag) (value : String) : Except FlagError Parsed := do
  f.check value
  return { p with given := p.given ++ [(f.name, value)] }

/-- The values given for a flag. -/
def values (p : Parsed) (name : String) : List String :=
  (p.given.filter (·.1 == name)).map Prod.snd

/-- The last value given for a flag. -/
def value? (p : Parsed) (name : String) : Option String := (p.values name).getLast?

def text (p : Parsed) (name : String) : String := (p.value? name).getD ""

def isOn (p : Parsed) (name : String) : Bool := ((p.value? name).bind switch?).getD false

end Parsed

def flagNamed? (flags : List Flag) (name : String) : Option Flag := flags.find? (·.name == name)

def flagLettered? (flags : List Flag) (c : Char) : Option Flag := flags.find? (·.letter == some c)

/-- A flag with its name written out.  What is left of the other arguments comes back. -/
def readNamed (flags : List Flag) (arg : String) (body : List Char) (rest : List String)
    (p : Parsed) : Except FlagError (Parsed × List String) :=
  let name := String.ofList (body.takeWhile (· != '='))
  let value? := if body.contains '=' then some (String.ofList ((body.dropWhile (· != '=')).drop 1))
    else none
  if body.head? = some '-' ∨ body.head? = some '=' then .error (.badForm arg)
  else match flagNamed? flags name with
    | none => .error (.unknownName name)
    | some f =>
      match value? with
      | some value => return (← p.give f value, rest)
      | none =>
        if f.kind = .switch then return (← p.give f "true", rest)
        else match rest with
          | value :: rest => return (← p.give f value, rest)
          | [] => .error (.nameNeedsValue name)

/-- Letters that start so are meant for a test runner, and are passed over. -/
def testRunnerLetters : List Char := "test.".toList

/-- Flags by their letters.  A letter that takes a value takes all that follows it, or the next
argument. -/
def readLettered (flags : List Flag) (rest : List String) (p : Parsed) :
    List Char → Except FlagError (Parsed × List String)
  | [] => .ok (p, rest)
  | c :: cs =>
    if testRunnerLetters.isPrefixOf (c :: cs) then .ok (p, rest)
    else match flagLettered? flags c with
    | none => .error (.unknownLetter c (String.ofList (c :: cs)))
    | some f =>
      match cs with
      | '=' :: d :: more => do return (← p.give f (String.ofList (d :: more)), rest)
      | _ =>
        if f.kind = .switch then do readLettered flags rest (← p.give f "true") cs
        else if !cs.isEmpty then do return (← p.give f (String.ofList cs), rest)
        else match rest with
          | value :: rest => do return (← p.give f value, rest)
          | [] => .error (.letterNeedsValue c (String.ofList (c :: cs)))

/-- Read all arguments.  Every turn takes at least one. -/
def readArgs (flags : List Flag) : Nat → List String → Parsed → Except FlagError Parsed
  | 0, _, p => .ok p
  | _, [], p => .ok p
  | fuel + 1, arg :: rest, p =>
    match arg.toList with
    | ['-', '-'] => .ok { p with args := p.args ++ rest }
    | '-' :: '-' :: body => do
      let (p, rest) ← readNamed flags arg body rest p
      readArgs flags fuel rest p
    | '-' :: c :: cs => do
      let (p, rest) ← readLettered flags rest p (c :: cs)
      readArgs flags fuel rest p
    | _ => readArgs flags fuel rest { p with args := p.args ++ [arg] }

/-- The flags and the arguments of a command. -/
def parseFlags (flags : List Flag) (args : List String) : Except FlagError Parsed :=
  readArgs flags args.length args {}

end BitSchema.CommandLine
