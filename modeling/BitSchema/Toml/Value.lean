/-!
# TOML values

What a document holds.  What a float or a time is does not matter here, so neither keeps its value.
-/

namespace BitSchema.Toml

/-- A dotted key. -/
abbrev Key : Type := List String

/-- A value of a document.  An array of tables under headers is told from one that is written as a
value. -/
inductive Value where
  | string (s : String)
  | integer (n : Int)
  | float
  | boolean (b : Bool)
  | time
  | array (elements : List Value)
  | table (members : List (String × Value))
  | tables (elements : List (List (String × Value)))
  deriving Repr, Inhabited

/-- The members of a table, in the order they came. -/
abbrev Members : Type := List (String × Value)

/-- What an error calls the type of a value. -/
def Value.typeText : Value → String
  | string _ => "string"
  | integer _ => "int64"
  | float => "float64"
  | boolean _ => "bool"
  | time => "time.Time"
  | array _ => "[]any"
  | table _ => "map[string]any"
  | tables _ => "[]map[string]any"

/-- The value is an array that is written as a value. -/
def Value.isArray : Value → Bool
  | array _ => true
  | _ => false

namespace Members

def get? (m : Members) (key : String) : Option Value := (m.find? (·.1 == key)).map Prod.snd

/-- Give a key a value; one that is there keeps its place. -/
def set (m : Members) (key : String) (value : Value) : Members :=
  if m.any (·.1 == key) then m.map fun e => if e.1 == key then (key, value) else e
  else m ++ [(key, value)]

/-- The table at the end of a path.  An array of tables stands for its last one. -/
def tableAt? (m : Members) : Key → Option Members
  | [] => some m
  | part :: rest =>
    match get? m part with
    | some (.table inner) => tableAt? inner rest
    | some (.tables elements) => elements.getLast?.bind (tableAt? · rest)
    | _ => none

/-- Change the table at the end of a path. -/
def changeAt (f : Members → Members) (m : Members) : Key → Members
  | [] => f m
  | part :: rest =>
    match get? m part with
    | some (.table inner) => set m part (.table (changeAt f inner rest))
    | some (.tables elements) =>
      match elements.getLast? with
      | some last => set m part (.tables (elements.dropLast ++ [changeAt f last rest]))
      | none => m
    | _ => m

end Members

end BitSchema.Toml
