import BitSchema.Text.Digits

/-!
# JSON values

A value keeps the members of an object in the order and as often as they are written, and a number
as the digits it is written with.

`render` writes a value on one line, `pretty` with one member or element a line, indented by two
blanks.  Both keep the text safe inside markup: angle brackets, the ampersand and the two line
separators are escaped.

Values with more than `depthLimit` arrays and objects inside each other are neither written as
documents nor read; `excess?` finds where such a value is too deep.
-/

namespace BitSchema

inductive Json where
  | null
  | bool (b : Bool)
  | number (literal : String)
  | string (s : String)
  | array (elements : List Json)
  | object (members : List (String × Json))
  deriving Repr, Inhabited

namespace Json

def nat (n : Nat) : Json := number (toString n)

/-- The characters with an escape of one letter. -/
def letterEscapes : List (Char × Char) :=
  [('"', '"'), ('\\', '\\'), ('\x08', 'b'), ('\x0c', 'f'), ('\n', 'n'), ('\r', 'r'), ('\t', 't')]

/-- A character that is written by its number. -/
def isEscaped (c : Char) : Bool :=
  c.toNat < 0x20 || c == '<' || c == '>' || c == '&' || c.toNat == 0x2028 || c.toNat == 0x2029

/-- A character inside a string. -/
def escapeChar (c : Char) : List Char :=
  match letterEscapes.find? (·.1 == c) with
  | some (_, letter) => ['\\', letter]
  | none => if isEscaped c then '\\' :: 'u' :: hexDigits 4 c.toNat else [c]

/-- A string with its quotes. -/
def quote (s : String) : String :=
  "\"" ++ String.ofList (s.toList.flatMap escapeChar) ++ "\""

mutual
/-- The value on one line. -/
def render : Json → String
  | null => "null"
  | bool b => if b then "true" else "false"
  | number literal => literal
  | string s => quote s
  | array elements => "[" ++ ",".intercalate (renderElements elements) ++ "]"
  | object members => "\x7b" ++ ",".intercalate (renderMembers members) ++ "\x7d"
def renderElements : List Json → List String
  | [] => []
  | e :: es => render e :: renderElements es
def renderMembers : List (String × Json) → List String
  | [] => []
  | (key, value) :: ms => (quote key ++ ":" ++ render value) :: renderMembers ms
end

/-- The start of a line at a depth. -/
def margin (depth : Nat) : String := "\n" ++ String.ofList (List.replicate (2 * depth) ' ')

/-- Lines between two brackets; none leaves the brackets together. -/
def block (opening closing : String) (depth : Nat) (lines : List String) : String :=
  if lines.isEmpty then opening ++ closing
  else opening ++ ",".intercalate (lines.map (margin (depth + 1) ++ ·)) ++ margin depth ++ closing

mutual
/-- The value over several lines, at a depth. -/
def prettyAt (depth : Nat) : Json → String
  | null => "null"
  | bool b => if b then "true" else "false"
  | number literal => literal
  | string s => quote s
  | array elements => block "[" "]" depth (prettyElements (depth + 1) elements)
  | object members => block "\x7b" "\x7d" depth (prettyMembers (depth + 1) members)
def prettyElements (depth : Nat) : List Json → List String
  | [] => []
  | e :: es => prettyAt depth e :: prettyElements depth es
def prettyMembers (depth : Nat) : List (String × Json) → List String
  | [] => []
  | (key, value) :: ms => (quote key ++ ": " ++ prettyAt depth value) :: prettyMembers depth ms
end

/-- The value over several lines, with a line break at the end. -/
def pretty (j : Json) : String := prettyAt 0 j ++ "\n"

/-- How many arrays and objects may be open inside each other. -/
def depthLimit : Nat := 10000

mutual
/-- The bracket that opens one array or object too many, where `room` more may be open. -/
def excess? (room : Nat) : Json → Option Char
  | array elements =>
    match room with
    | 0 => some '['
    | room + 1 => excessElements? room elements
  | object members =>
    match room with
    | 0 => some '\x7b'
    | room + 1 => excessMembers? room members
  | _ => none
def excessElements? (room : Nat) : List Json → Option Char
  | [] => none
  | e :: es => (excess? room e).or (excessElements? room es)
def excessMembers? (room : Nat) : List (String × Json) → Option Char
  | [] => none
  | (_, value) :: ms => (excess? room value).or (excessMembers? room ms)
end

end Json

end BitSchema
