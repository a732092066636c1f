import BitSchema.Json.Basic
import BitSchema.Text.Fold

/-!
# Reading records from JSON

A document may name one field of a record several times.  The field is then given several values,
one after the other, and each is put on top of what those before it left.  A `Reading` says what a
place ends with when it is given values in this way:

* a plain value is the last one that is not null;
* a part that may be missing is removed by a null, and made anew by what comes after it;
* a record is made of the members of all its objects, in order;
* a list is as long as the last one given, and what stands at a place of it is read from everything
  that was given for that place since the list was last null or empty.

Names that differ from a field's only in case name it too, and a name of no field rejects the
document, as does a value of the wrong kind anywhere in it.
-/

namespace BitSchema.Json

/-- The depth of a value: one more than that of its deepest part. -/
def depth : Json → Nat
  | array elements => depthElements elements + 1
  | object members => depthMembers members + 1
  | _ => 1
where
  depthElements : List Json → Nat
    | [] => 0
    | e :: es => max (depth e) (depthElements es)
  depthMembers : List (String × Json) → Nat
    | [] => 0
    | (_, value) :: ms => max (depth value) (depthMembers ms)

def isNull : Json → Bool
  | null => true
  | _ => false

/-- What a place ends with when it is given these values in order. -/
abbrev Reading (α : Type) : Type := List Json → Option α

namespace Reading

/-- The last value that is not null; `zero` if there is none. -/
def plain {α : Type} (zero : α) (read? : Json → Option α) : Reading α :=
  fun js => js.foldlM (fun old j => if j.isNull then some old else read? j) zero

def string : Reading String := plain "" fun
  | .string s => some s
  | _ => none

def bool : Reading Bool := plain false fun
  | .bool b => some b
  | _ => none

/-- The number that a literal of digits alone writes. -/
def natLiteral? (literal : String) : Option Nat := readDigits? 10 literal.toList

def uint32 : Reading UInt32 := plain 0 fun
  | .number literal => do
    let n ← natLiteral? literal
    if n < Nat.pow 2 32 then some (UInt32.ofNat n) else none
  | _ => none

/-- A part that is missing if nothing is given for it. -/
def given {α : Type} (part : Reading α) : Reading (Option α) :=
  fun js => if js.isEmpty then some none else some <$> part js

/-- A part that may be missing, given the values since the last null. -/
def optionalSince {α : Type} (part : Reading α) (since : List Json) : Reading (Option α)
  | [] => given part since
  | j :: js => do
    if j.isNull then
      let _ ← given part since
      optionalSince part [] js
    else optionalSince part (since ++ [j]) js

/-- A part that may be missing. -/
def optional {α : Type} (part : Reading α) : Reading (Option α) := optionalSince part []

/-- An entry of a list of definitions; `absent` if it is null. -/
def entry {α : Type} (absent : α) (part : Reading α) : Reading α :=
  fun js => (·.getD absent) <$> optional part js

/-- Give each place of a list the element of one more array. -/
def stack : List (List Json) → List Json → List (List Json)
  | columns, [] => columns
  | [], e :: es => [e] :: stack [] es
  | column :: columns, e :: es => (column ++ [e]) :: stack columns es

/-- A list, given what stands at each place since the list was last null or empty, and the length it
has now, if it is there at all. -/
def listingSince {α : Type} (part : Reading α) (columns : List (List Json)) (length : Option Nat) :
    Reading (Option (List α))
  | [] => do
    let elements ← columns.mapM part
    return length.map elements.take
  | .null :: js => do
    let _ ← columns.mapM part
    listingSince part [] none js
  | .array [] :: js => do
    let _ ← columns.mapM part
    listingSince part [] (some 0) js
  | .array (e :: es) :: js =>
    listingSince part (stack columns (e :: es)) (some (es.length + 1)) js
  | _ => none

/-- A list that may be absent. -/
def listing {α : Type} (part : Reading α) : Reading (Option (List α)) := listingSince part [] none

/-- A list for which absent and empty are the same. -/
def list {α : Type} (part : Reading α) : Reading (List α) :=
  fun js => (·.getD []) <$> listing part js

/-- The members of a value that is read as a record; null has none. -/
def members? : Json → Option (List (String × Json))
  | .null => some []
  | .object members => some members
  | _ => none

/-- The values that records give each of their fields. -/
def record (fields : List String) (js : List Json) : Option (String → List Json) := do
  let members ← js.mapM members?
  let named ← members.flatten.mapM fun m => (fieldMeant? fields m.1).map fun name => (name, m.2)
  return fun field => (named.filter (·.1 == field)).map Prod.snd

end Reading

end BitSchema.Json
