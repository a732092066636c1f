import BitSchema.Source.Span
import BitSchema.Text.Octets

/-!
# Declarations

What a schema source declares: packages, includes, messages and enums, each with the spans it came
from.  Documentation is the text of the `///` lines above a declaration.
-/

namespace BitSchema.Source

structure Ident where
  span : Span
  value : String
  deriving DecidableEq, Repr, Inhabited

/-- An integer as it was written, and its value. -/
structure IntLit where
  span : Span
  text : String
  value : UInt64
  deriving DecidableEq, Repr, Inhabited

/-- A string literal; its escapes may spell any octets. -/
structure TextLit where
  span : Span
  value : Octets
  deriving DecidableEq, Repr, Inhabited

/-- The built-in types. -/
inductive Scalar where
  | bool
  | u8
  | u16
  | u32
  | u64
  | i8
  | i16
  | i32
  | i64
  | f32
  | f64
  | string
  | bytes
  deriving DecidableEq, Repr, Inhabited

namespace Scalar

def name : Scalar → String
  | bool => "bool"
  | u8 => "u8"
  | u16 => "u16"
  | u32 => "u32"
  | u64 => "u64"
  | i8 => "i8"
  | i16 => "i16"
  | i32 => "i32"
  | i64 => "i64"
  | f32 => "f32"
  | f64 => "f64"
  | string => "string"
  | bytes => "bytes"

def all : List Scalar :=
  [bool, u8, u16, u32, u64, i8, i16, i32, i64, f32, f64, string, bytes]

/-- The built-in type of this name. -/
def ofName? (name : String) : Option Scalar := all.find? (·.name == name)

end Scalar

/-- A type as it was written. -/
inductive TypeExpr where
  | scalar (span : Span) (scalar : Scalar)
  /-- A reference to a message or enum: `Foo`, `a.b.Foo`, or from the root, `.a.b.Foo`. -/
  | named (span : Span) (absolute : Bool) (path : List Ident) (name : Ident)
  | array (span : Span) (element : TypeExpr)
  | map (span : Span) (key value : TypeExpr)
  deriving Repr, Inhabited

def TypeExpr.span : TypeExpr → Span
  | scalar span _ => span
  | named span _ _ _ => span
  | array span _ => span
  | map span _ _ => span

/-- A reference as it was written. -/
def referenceText (absolute : Bool) (parts : List Ident) : String :=
  (if absolute then "." else "") ++ ".".intercalate (parts.map Ident.value)

mutual
/-- An encoding directive such as `zig_zag`, `bits(5)` or `bits(var(100))`.  Empty parentheses are
arguments too, none of them. -/
structure Directive where
  span : Span
  name : Ident
  args : Option (List Directive.Arg)
/-- An argument of a directive. -/
inductive Directive.Arg where
  | int (literal : IntLit)
  | call (directive : Directive)
end

namespace Directive

mutual
/-- A directive as it is shown in messages. -/
def render : Directive → String
  | ⟨_, name, none⟩ => name.value
  | ⟨_, name, some args⟩ => name.value ++ "(" ++ ", ".intercalate (renderArgs args) ++ ")"
def renderArgs : List Arg → List String
  | [] => []
  | arg :: args => renderArg arg :: renderArgs args
def renderArg : Arg → String
  | .int literal => literal.text
  | .call directive => directive.render
end

def Arg.span : Arg → Span
  | .int literal => literal.span
  | .call directive => directive.span

def argList (a : Directive) : List Arg := a.args.getD []

end Directive

structure Field where
  span : Span
  doc : Option String
  index : Option IntLit
  type : TypeExpr
  name : Ident
  directives : List Directive

/-- What a variant holds: only its name, or a typed value that the name belongs to. -/
inductive Variant.Content where
  | unit (name : Ident)
  | typed (field : Field)

structure Variant where
  span : Span
  doc : Option String
  index : Option IntLit
  content : Variant.Content

namespace Variant

def name (v : Variant) : Ident :=
  match v.content with
  | .unit name => name
  | .typed field => field.name

def field? (v : Variant) : Option Field :=
  match v.content with
  | .unit _ => none
  | .typed field => some field

end Variant

structure Enum where
  span : Span
  doc : Option String
  name : Ident
  variants : List Variant

mutual
structure Message where
  span : Span
  doc : Option String
  name : Ident
  members : List Member
/-- What stands between the braces of a message. -/
inductive Member where
  | field (field : Field)
  | message (message : Message)
  | enum (enum : Enum)
end

namespace Member

def field? : Member → Option Field
  | field f => some f
  | _ => none

def message? : Member → Option Message
  | message m => some m
  | _ => none

def enum? : Member → Option Enum
  | enum e => some e
  | _ => none

end Member

namespace Message

def fields (m : Message) : List Field := m.members.filterMap Member.field?

def messages (m : Message) : List Message := m.members.filterMap Member.message?

def enums (m : Message) : List Enum := m.members.filterMap Member.enum?

/-- Induction over the messages that are declared in a message. -/
@[elab_as_elim]
theorem induct {motive : Message → Prop}
    (step : ∀ span doc name members, (∀ m, Member.message m ∈ members → motive m) →
      motive ⟨span, doc, name, members⟩) : ∀ m, motive m
  | ⟨span, doc, name, members⟩ => step span doc name members fun m _mem => induct step m
termination_by m => sizeOf m
decreasing_by
  have smaller := List.sizeOf_lt_of_mem _mem
  rw [Member.message.sizeOf_spec] at smaller
  rw [mk.sizeOf_spec]
  omega

end Message

structure Package where
  span : Span
  segments : List Ident

namespace Package

def names (p : Package) : List String := p.segments.map Ident.value

def text (p : Package) : String := ".".intercalate p.names

end Package

/-- An include statement. -/
structure Inclusion where
  span : Span
  path : TextLit

/-- A declaration at the top of a source. -/
inductive Item where
  | package (package : Package)
  | inclusion (inclusion : Inclusion)
  | message (message : Message)
  | enum (enum : Enum)

namespace Item

def package? : Item → Option Package
  | package p => some p
  | _ => none

def inclusion? : Item → Option Inclusion
  | inclusion i => some i
  | _ => none

def message? : Item → Option Message
  | message m => some m
  | _ => none

def enum? : Item → Option Enum
  | enum e => some e
  | _ => none

end Item

/-- A schema source. -/
structure Schema where
  span : Span
  items : List Item

namespace Schema

/-- The first package declaration. -/
def package? (s : Schema) : Option Package := s.items.findSome? Item.package?

def inclusions (s : Schema) : List Inclusion := s.items.filterMap Item.inclusion?

def messages (s : Schema) : List Message := s.items.filterMap Item.message?

def enums (s : Schema) : List Enum := s.items.filterMap Item.enum?

end Schema

end BitSchema.Source
