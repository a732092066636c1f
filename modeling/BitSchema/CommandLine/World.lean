import BitSchema.Plugin.Run

/-!
# What a command works on

The files it finds, the variables of its environment, what runs plugins, and what it has printed.
A job changes these and may end early with an exit status; what it has done until then stays.
-/

namespace BitSchema.CommandLine

/-- How the program ends. -/
inductive Exit where
  | ok
  | failure
  /-- It was not asked the right way. -/
  | usage
  deriving DecidableEq, Repr

def Exit.code : Exit → Nat
  | ok => 0
  | failure => 1
  | usage => 2

structure World where
  tree : FileTree
  environment : List (String × String) := []
  runtime : Plugin.Runtime := {}
  stdout : Octets := []
  stderr : Octets := []

/-- A variable of the environment; one that is not set is empty. -/
def World.value (w : World) (name : String) : String :=
  ((w.environment.find? (·.1 == name)).map Prod.snd).getD ""

/-- Work that may end the program. -/
abbrev Job (α : Type) : Type := ExceptT Exit (StateM World) α

def print (text : Octets) : StateM World Unit :=
  modify fun w => { w with stdout := w.stdout ++ text }

def printError (text : Octets) : StateM World Unit :=
  modify fun w => { w with stderr := w.stderr ++ text }

/-- Print a line about what went wrong. -/
def complain (message : String) : StateM World Unit :=
  printError (Octets.ofString (message ++ "\n"))

/-- End the program with a message. -/
def stop {α : Type} (exit : Exit) (message : String) : Job α := do
  complain message
  throw exit

/-- A result, or the end of the program. -/
def orStop {ε α : Type} (message : ε → String) : Except ε α → Job α
  | .ok a => pure a
  | .error cause => stop .failure (message cause)

/-- Do a job and go on, however it ends. -/
def attempt {α : Type} (job : Job α) : StateM World Unit := do
  let _ ← job.run

def tree : Job FileTree := do return (← get).tree

def setTree (t : FileTree) : StateM World Unit := modify fun w => { w with tree := t }

end BitSchema.CommandLine
