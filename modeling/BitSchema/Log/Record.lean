import BitSchema.Log.Level

/-!
# Log records

One line a record: its level, its message and its attributes as `key=value`.  A value is quoted if
it is empty or holds anything but plain printable characters; of the controls, delete alone asks for
no quotes.
-/

namespace BitSchema.Log

structure Record where
  level : Level
  message : String
  attributes : List (String × String) := []
  deriving DecidableEq, Repr, Inhabited

/-- A character that needs quotes around the value it stands in. -/
def needsQuotes (c : Char) : Bool :=
  if c.toNat < 0x80 then c == ' ' || c == '=' || c == '"' || c.toNat < 0x20
  else c.toNat == 0xFFFD || !isPrintable c

/-- A value, quoted if need be. -/
def valueText (value : String) : String :=
  if value = "" ∨ value.toList.any needsQuotes then Quoted.quoteString value else value

/-- The record on a line. -/
def Record.line (r : Record) : String :=
  "level=" ++ r.level.text ++ " msg=" ++ valueText r.message ++
    String.join (r.attributes.map fun (key, value) => " " ++ key ++ "=" ++ valueText value) ++ "\n"

/-- The lines of the records that are at least of a level. -/
def text (least : Level) (records : List Record) : String :=
  String.join ((records.filter (least.value ≤ ·.level.value)).map Record.line)

end BitSchema.Log
