import BitSchema.Toml.Fault

/-!
# Documents under construction

The tables of a document while it is read.

A table that a dotted key or a longer header goes through is there implicitly, and may be defined
once later on, even if something else stands at its key by then; it is kept, unless its key had an
array.  Everything else that is defined twice is a fault.  Faults are found in the line of the key
that was read last.
-/

namespace BitSchema.Toml

/-- What is known of a key besides its value. -/
structure KeyNote where
  isArray : Bool
  line : Nat
  deriving Repr

/-- Tables under construction. -/
structure Draft where
  members : Members := []
  /-- All keys so far, the last one first. -/
  keys : List Key := []
  /-- The tables that are there implicitly. -/
  implicit : List Key := []
  /-- What is known of keys; of one key the first is the latest. -/
  notes : List (Key × KeyNote) := []
  /-- The table that entries go to. -/
  context : Key := []
  /-- The key that a value is read for, without its context. -/
  current : String := ""
  /-- The line that the last key stands in. -/
  keyLine : Nat := 0

namespace Draft

/-- The key that is being read, as errors show it. -/
def lastKey (d : Draft) : String :=
  if d.current = "" then keyText d.context
  else if d.context.isEmpty then d.current
  else keyText d.context ++ "." ++ d.current

def fail {α : Type} (d : Draft) (cause : Cause) : Except Fault α :=
  .error ⟨some d.keyLine, d.lastKey, cause⟩

def note? (d : Draft) (key : Key) : Option KeyNote := d.notes.lookup key

def isArray (d : Draft) (key : Key) : Bool := (d.note? key).any (·.isArray)

/-- Note the line of a key in the table that entries go to; without a key, that of the table. -/
def note (d : Draft) (key : String) (isArray : Bool) (line : Nat) : Draft :=
  let whole := if key = "" then d.context else d.context ++ [key]
  { d with notes := (if whole.isEmpty then [""] else whole, ⟨isArray, line⟩) :: d.notes }

def addKey (d : Draft) (key : Key) : Draft := { d with keys := key :: d.keys }

def addImplicit (d : Draft) (key : Key) : Draft := { d with implicit := key :: d.implicit }

def dropImplicit (d : Draft) (key : Key) : Draft :=
  { d with implicit := d.implicit.filter (· != key) }

/-- Put a value at a key of the table that a path leads to. -/
def put (d : Draft) (path : Key) (key : String) (value : Value) : Draft :=
  { d with members := d.members.changeAt (·.set key value) path }

/-- The first beginning of a path that leads to no table. -/
def firstBlocked? (d : Draft) (path : Key) : Option Key :=
  ((List.range path.length).map fun i => path.take (i + 1)).find? fun way =>
    (d.members.tableAt? way).isNone

/-- Define a key in the table that entries go to. -/
def define (d : Draft) (key : String) (value : Value) : Except Fault Draft :=
  match d.firstBlocked? d.context with
  | some way => d.fail (.definedTwice way)
  | none =>
    let whole := d.context ++ [key]
    let isThere := ((d.members.tableAt? d.context).bind (·.get? key)).isSome
    if !isThere then .ok (d.put d.context key value)
    else if !d.implicit.contains whole then d.fail (.definedTwice whole)
    else if d.isArray whole then .ok ((d.dropImplicit whole).put d.context key value)
    else .ok (d.dropImplicit whole)

/-- Make the tables on the way to a key, where there are none. -/
def makeWay (d : Draft) (done : Key) : Key → Except Fault Draft
  | [] => .ok d
  | part :: rest =>
    let whole := done ++ [part]
    let isThere := ((d.members.tableAt? done).bind (·.get? part)).isSome
    let d := if isThere then d else (d.addImplicit whole).put done part (.table [])
    if (d.members.tableAt? whole).isSome then makeWay d whole rest
    else d.fail (.notTableOnWay whole)

/-- Define a table, and let entries go to it. -/
def openTable (d : Draft) (key : Key) : Except Fault Draft := do
  let d ← d.makeWay [] key.dropLast
  let d ← { d with context := key.dropLast }.define (key.getLast?.getD "") (.table [])
  return { d with context := key }

/-- Add a table to an array of tables, and let entries go to it. -/
def openElement (d : Draft) (key : Key) : Except Fault Draft := do
  let d ← d.makeWay [] key.dropLast
  let path := key.dropLast
  let last := key.getLast?.getD ""
  let d := { d with context := path }
  let d ← match (d.members.tableAt? path).bind (·.get? last) with
    | none => pure (d.put path last (.tables [[]]))
    | some (.tables elements) => pure (d.put path last (.tables (elements ++ [[]])))
    | some _ => d.fail (.notArrayOfTables key)
  return { d with context := key }

/-- Go to the table of a dotted key that its last part stands in, making tables on the way. -/
def openParts (d : Draft) : Key → Except Fault Draft
  | [] => .ok d
  | part :: rest => do
    let whole := d.context ++ [part]
    openParts (← (d.addImplicit whole).openTable whole) rest

end Draft

end BitSchema.Toml
