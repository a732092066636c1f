import BitSchema.Ir.Schema
import BitSchema.Text.Digits

/-!
# Schema listings

A resolved schema as indented text for people to read, one definition, field or variant a line.
-/

namespace BitSchema.Ir

namespace Listing

/-- A character inside a documentation line. -/
def quoteChar (c : Char) : List Char :=
  if c = '\\' ∨ c = '"' then ['\\', c]
  else if c = '\t' then ['\\', 't']
  else if c = '\n' then ['\\', 'n']
  else if c.toNat < 0x20 ∨ c.toNat = 0x7F then
    '\\' :: 'x' :: (hexDigits 2 c.toNat).map Char.toUpper
  else [c]

/-- Documentation between quotes, on one line. -/
def quote (text : String) : String :=
  "\"" ++ String.ofList (text.toList.flatMap quoteChar) ++ "\""

/-- A line at a depth. -/
def line (depth : Nat) (text : String) : String :=
  String.ofList (List.replicate depth '\t') ++ text

/-- The line of some documentation, if there is any. -/
def docLines (depth : Nat) (doc : String) : List String :=
  if doc = "" then [] else [line depth ("doc " ++ quote doc)]

def fieldLines (depth : Nat) (f : Field) : List String :=
  docLines depth f.doc ++
    [line depth ("field " ++ toString f.index.toNat ++ " " ++ f.name ++ ": " ++ f.encoding.text)]

def variantLines (depth : Nat) (v : Variant) : List String :=
  let head := "variant " ++ toString v.index.toNat ++ " " ++ v.name
  docLines depth v.doc ++ [line depth <| match v.field with
    | none => head
    | some f => head ++ ": " ++ f.encoding.text]

def enumLines (depth : Nat) (e : Enum) : List String :=
  docLines depth e.doc ++
    [line depth ("enum " ++ e.name ++ ": " ++ e.discriminant.text ++ " \x7b")] ++
    e.variants.flatMap (variantLines (depth + 1)) ++ [line depth "\x7d"]

mutual
def messageLines (depth : Nat) : Message → List String
  | ⟨_, name, fields, messages, enums, doc, _⟩ =>
    docLines depth doc ++ [line depth ("message " ++ name ++ " \x7b")] ++
      (fields.getD []).flatMap (fieldLines (depth + 1)) ++ allMessageLines (depth + 1) messages ++
      enums.flatMap (enumLines (depth + 1)) ++ [line depth "\x7d"]
def allMessageLines (depth : Nat) : List Message → List String
  | [] => []
  | m :: ms => messageLines depth m ++ allMessageLines depth ms
end

def packageLines (p : Package) : List String :=
  [line 0 ("package " ++ p.path ++ " \x7b")] ++ p.messages.flatMap (messageLines 1) ++
    p.enums.flatMap (enumLines 1) ++ [line 0 "\x7d"]

end Listing

/-- The listing of a schema; every line ends with a line break. -/
def Schema.listing (s : Schema) : String :=
  String.join ((s.packages.flatMap Listing.packageLines).map (· ++ "\n"))

end BitSchema.Ir
