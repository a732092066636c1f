import BitSchema.Source.Declaration
import BitSchema.Source.Derivation

/-!
# Phrases

What a derivation stands for.  A derivation is read from its leaves up: `Phrase.compose` builds the
phrase of a production from the phrases of its parts, and only literals can be at fault.  Parts are
read from the left, so the first faulty literal of a source is the one reported.
-/

namespace BitSchema.Source

/-- A literal that has no value. -/
inductive LiteralFault where
  /-- An integer that does not fit in 64 bits. -/
  | wideInt (span : Span) (text : String)
  /-- A string with an escape that stands for nothing. -/
  | badEscape (span : Span)
  deriving DecidableEq, Repr

/-- The meaning of a derivation. -/
inductive Phrase where
  | token (token : Token)
  | ident (ident : Ident)
  | int (literal : IntLit)
  | text (literal : TextLit)
  | typeExpr (type : TypeExpr)
  | mapType (key value : TypeExpr)
  | typeName (absolute : Bool) (parts : List Ident)
  | directive (directive : Directive)
  | arg (arg : Directive.Arg)
  | field (field : Field)
  | variant (variant : Variant)
  | member (member : Member)
  | item (item : Item)
  | items (items : List Item)
  /-- Parts that no production has. -/
  | nothing

namespace Phrase

def ident? : Phrase → Option Ident
  | ident i => some i
  | _ => none

def int? : Phrase → Option IntLit
  | int i => some i
  | _ => none

def text? : Phrase → Option TextLit
  | text t => some t
  | _ => none

def typeExpr? : Phrase → Option TypeExpr
  | typeExpr t => some t
  | _ => none

def directive? : Phrase → Option Directive
  | directive a => some a
  | _ => none

def arg? : Phrase → Option Directive.Arg
  | arg a => some a
  | _ => none

def field? : Phrase → Option Field
  | field f => some f
  | _ => none

def variant? : Phrase → Option Variant
  | variant v => some v
  | _ => none

def member? : Phrase → Option Member
  | member m => some m
  | _ => none

def item? : Phrase → Option Item
  | item i => some i
  | _ => none

/-- The phrase is the token with this text. -/
def isToken (text : String) : Phrase → Bool
  | token t => t.text == text
  | _ => false

/-- A documentation line without its slashes, one blank after them, and blanks at its end. -/
def docLine (line : List Char) : List Char :=
  let rest := line.drop 3
  let body := if rest.head? = some ' ' then rest.drop 1 else rest
  (body.reverse.dropWhile fun c => c == ' ' || c == '\t' || c == '\r').reverse

/-- The documentation that the leading tokens give. -/
def doc? (parts : List Phrase) : Option String :=
  let lines := parts.filterMap fun
    | token t => if t.kind = .doc then some (String.ofList (docLine t.text.toList)) else none
    | _ => none
  if lines.isEmpty then none else some ("\n".intercalate lines)

/-- The value of an integer literal, if it fits in 64 bits. -/
def intValue? (text : String) : Option UInt64 :=
  let number := match text.toList with
    | '0' :: x :: digits =>
      if x = 'x' ∨ x = 'X' then readDigits? 16 digits else readDigits? 10 ('0' :: x :: digits)
    | digits => readDigits? 10 digits
  number.bind fun n => if n < Nat.pow 2 64 then some (UInt64.ofNat n) else none

/-- The octets of a string literal with its quotes. -/
def textValue? (quoted : String) : Option Octets :=
  Quoted.unescape (quoted.toList.drop 1).dropLast

/-- A reference, or the built-in type that a single name stands for. -/
def typeOfName (span : Span) (absolute : Bool) (parts : List Ident) : Phrase :=
  match parts.getLast? with
  | none => nothing
  | some name =>
    let scalar? := if absolute || parts.length != 1 then none else Scalar.ofName? name.value
    match scalar? with
    | some s => typeExpr (.scalar span s)
    | none => typeExpr (.named span absolute parts.dropLast name)

/-- A declaration with its documentation; packages and includes have none. -/
def documentItem (doc : Option String) : Item → Item
  | .message m => .message { m with doc }
  | .enum e => .enum { e with doc }
  | i => i

def documentMember (doc : Option String) : Member → Member
  | .field f => .field { f with doc }
  | .message m => .message { m with doc }
  | .enum e => .enum { e with doc }

/-- A member or an item as the production of a message or enum leaves it. -/
def asMember? : Phrase → Option Member
  | item (.message m) => some (.message m)
  | item (.enum e) => some (.enum e)
  | field f => some (.field f)
  | _ => none

/-- A field, from its parts and its span. -/
def fieldOf (span : Span) (parts : List Phrase) : Phrase :=
  match parts.findSome? typeExpr?, parts.findSome? ident? with
  | some type, some name =>
    field ⟨span, none, parts.findSome? int?, type, name, parts.filterMap directive?⟩
  | _, _ => nothing

def variantOf (span : Span) (parts : List Phrase) : Phrase :=
  let doc := doc? parts
  let index := parts.findSome? int?
  match parts.findSome? field?, parts.findSome? ident? with
  | some f, _ => variant ⟨span, doc, index, .typed { f with doc }⟩
  | none, some name => variant ⟨span, doc, index, .unit name⟩
  | none, none => nothing

def typeOf (span : Span) : List Phrase → Phrase
  | [token _, token _, typeExpr element] => typeExpr (.array span element)
  | [token _, mapType key value] => typeExpr (.map span key value)
  | [typeName absolute parts] => typeOfName span absolute parts
  | _ => nothing

def directiveOf (span : Span) (parts : List Phrase) : Phrase :=
  match parts.findSome? ident? with
  | some name =>
    let args := if parts.any (isToken "(") then some (parts.filterMap arg?) else none
    directive ⟨span, name, args⟩
  | none => nothing

/-- The phrase of a production with this span, from the phrases of its parts. -/
def compose (rule : Rule) (span : Span) (parts : List Phrase) : Except LiteralFault Phrase :=
  match rule with
  | .schema => .ok (items (parts.filterMap item?))
  | .decl => .ok <| match parts.findSome? item? with
    | some i => item (documentItem (doc? parts) i)
    | none => nothing
  | .package => .ok (item (.package ⟨span, parts.filterMap ident?⟩))
  | .inclusion => .ok <| match parts.findSome? text? with
    | some path => item (.inclusion ⟨span, path⟩)
    | none => nothing
  | .message => .ok <| match parts.findSome? ident? with
    | some name => item (.message ⟨span, none, name, parts.filterMap member?⟩)
    | none => nothing
  | .member => .ok <| match parts.findSome? asMember? with
    | some m => member (documentMember (doc? parts) m)
    | none => nothing
  | .enum => .ok <| match parts.findSome? ident? with
    | some name => item (.enum ⟨span, none, name, parts.filterMap variant?⟩)
    | none => nothing
  | .field => .ok (fieldOf span parts)
  | .variant => .ok (variantOf span parts)
  | .typedVariant => .ok (fieldOf span parts)
  | .typeExpr => .ok (typeOf span parts)
  | .mapType => .ok <| match parts with
    | [typeExpr key, token _, typeExpr value] => mapType key value
    | _ => nothing
  | .typeName =>
    .ok (typeName ((parts.head?.map (isToken ".")).getD false) (parts.filterMap ident?))
  | .directive => .ok (directiveOf span parts)
  | .directiveArg => .ok <| match parts with
    | [int literal] => arg (.int literal)
    | [directive a] => arg (.call a)
    | _ => nothing
  | .ident => .ok <| match parts with
    | [token t] => ident ⟨span, t.text⟩
    | _ => nothing
  | .int => match parts with
    | [token t] => match intValue? t.text with
      | some value => .ok (int ⟨span, t.text, value⟩)
      | none => .error (.wideInt span t.text)
    | _ => .ok nothing
  | .string => match parts with
    | [token t] => match textValue? t.text with
      | some value => .ok (text ⟨span, value⟩)
      | none => .error (.badEscape span)
    | _ => .ok nothing

mutual
/-- The phrase of a derivation. -/
def ofDerivation : Derivation → Except LiteralFault Phrase
  | .leaf t => .ok (token t)
  | .node rule children => do
    compose rule (Derivation.node rule children).span (← ofDerivations [] children)
/-- The phrases of derivations in a row; `done` holds those before them, the last one first. -/
def ofDerivations (done : List Phrase) : List Derivation → Except LiteralFault (List Phrase)
  | [] => .ok done.reverse
  | d :: ds =>
    match ofDerivation d with
    | .ok phrase => ofDerivations (phrase :: done) ds
    | .error fault => .error fault
end

end Phrase

end BitSchema.Source
