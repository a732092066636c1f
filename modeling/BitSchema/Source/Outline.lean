import BitSchema.Source.Declaration

/-!
# Outlines

The declarations of a source as a tree of kinds and spans.  The children of a node stand in source
order, and `walk` visits a node before its children.
-/

namespace BitSchema.Source

/-- The kinds of node in an outline. -/
inductive NodeKind where
  | schema
  | package
  | inclusion
  | message
  | enum
  | field
  | variant
  | scalar
  | named
  | array
  | map
  | directive
  | arg
  | ident
  | int
  | text
  deriving DecidableEq, Repr, Inhabited

/-- What a kind is called. -/
def NodeKind.name : NodeKind → String
  | schema => "schema"
  | package => "package"
  | inclusion => "include"
  | message => "message"
  | enum => "enum"
  | field => "field"
  | variant => "variant"
  | scalar => "scalar"
  | named => "named"
  | array => "array"
  | map => "map"
  | directive => "annotation"
  | arg => "arg"
  | ident => "ident"
  | int => "int"
  | text => "text"

/-- A node, its place and its children. -/
inductive Outline where
  | node (kind : NodeKind) (span : Span) (children : List Outline)
  deriving Repr, Inhabited

namespace Outline

def kind : Outline → NodeKind
  | node kind _ _ => kind

def span : Outline → Span
  | node _ span _ => span

def children : Outline → List Outline
  | node _ _ children => children

mutual
/-- The nodes in the order of a visit that leaves out what lies below the kinds in `skip`. -/
def walk (skip : NodeKind → Bool) : Outline → List Outline
  | node kind span children =>
    node kind span children :: if skip kind then [] else walkAll skip children
def walkAll (skip : NodeKind → Bool) : List Outline → List Outline
  | [] => []
  | o :: os => walk skip o ++ walkAll skip os
end

end Outline

def Ident.outline (i : Ident) : Outline := .node .ident i.span []

def IntLit.outline (i : IntLit) : Outline := .node .int i.span []

def TextLit.outline (t : TextLit) : Outline := .node .text t.span []

def TypeExpr.outline : TypeExpr → Outline
  | scalar span _ => .node .scalar span []
  | named span _ path name => .node .named span ((path ++ [name]).map Ident.outline)
  | array span element => .node .array span [element.outline]
  | map span key value => .node .map span [key.outline, value.outline]

namespace Directive

mutual
def outline : Directive → Outline
  | ⟨span, name, none⟩ => .node .directive span [name.outline]
  | ⟨span, name, some args⟩ => .node .directive span (name.outline :: outlineArgs args)
def outlineArgs : List Arg → List Outline
  | [] => []
  | arg :: args => outlineArg arg :: outlineArgs args
def outlineArg : Arg → Outline
  | .int literal => .node .arg literal.span [literal.outline]
  | .call directive => .node .arg directive.span [directive.outline]
end

end Directive

def Field.outline (f : Field) : Outline :=
  .node .field f.span <| (f.index.map IntLit.outline).toList ++
    [f.type.outline, f.name.outline] ++ f.directives.map Directive.outline

def Variant.outline (v : Variant) : Outline :=
  .node .variant v.span <| (v.index.map IntLit.outline).toList ++
    [match v.content with
      | .unit name => name.outline
      | .typed field => field.outline]

def Enum.outline (e : Enum) : Outline :=
  .node .enum e.span (e.name.outline :: e.variants.map Variant.outline)

mutual
def Message.outline : Message → Outline
  | ⟨span, _, name, members⟩ => .node .message span (name.outline :: outlineMembers members)
def outlineMembers : List Member → List Outline
  | [] => []
  | m :: ms => outlineMember m :: outlineMembers ms
def outlineMember : Member → Outline
  | .field f => f.outline
  | .message m => m.outline
  | .enum e => e.outline
end

def Package.outline (p : Package) : Outline :=
  .node .package p.span (p.segments.map Ident.outline)

def Inclusion.outline (i : Inclusion) : Outline := .node .inclusion i.span [i.path.outline]

def Item.outline : Item → Outline
  | package p => p.outline
  | inclusion i => i.outline
  | message m => m.outline
  | enum e => e.outline

def Schema.outline (s : Schema) : Outline := .node .schema s.span (s.items.map Item.outline)

end BitSchema.Source
