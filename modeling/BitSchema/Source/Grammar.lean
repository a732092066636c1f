import BitSchema.Source.Token
import BitSchema.Text.Quoted

/-!
# The grammar of schema sources

The grammar is a value: `Rule` names its productions, and `Rule.body` gives each its pattern.  The
same value is matched against tokens, and rendered into messages that say what was expected.
-/

namespace BitSchema

/-- The productions. -/
inductive Rule where
  | schema
  | decl
  | package
  | inclusion
  | message
  | member
  | enum
  | field
  | variant
  | typedVariant
  | typeExpr
  | mapType
  | typeName
  | directive
  | directiveArg
  | ident
  | int
  | string
  deriving DecidableEq, Repr, Inhabited

/-- What a run of tokens has to look like. -/
inductive Pattern where
  /-- A token with this text. -/
  | literal (text : String)
  /-- A token of this kind. -/
  | token (kind : Token.Kind)
  /-- The body of a production. -/
  | rule (rule : Rule)
  /-- All of these, in order. -/
  | seq (items : List Pattern)
  /-- The first of these that matches. -/
  | choice (items : List Pattern)
  /-- Once or not at all. -/
  | optional (item : Pattern)
  /-- Any number of times. -/
  | many (item : Pattern)
  deriving Repr, Inhabited

namespace Rule

/-- The name of a production in messages. -/
def label : Rule → String
  | schema => "RawSchema"
  | decl => "RawDecl"
  | package => "RawPackage"
  | inclusion => "RawInclude"
  | message => "RawMessage"
  | member => "RawMember"
  | enum => "RawEnum"
  | field => "RawField"
  | variant => "RawVariant"
  | typedVariant => "RawTypedVariant"
  | typeExpr => "RawType"
  | mapType => "RawMapType"
  | typeName => "RawTypeName"
  | directive => "RawAnnotation"
  | directiveArg => "RawAnnotationArg"
  | ident => "RawIdent"
  | int => "RawInt"
  | string => "RawString"

end Rule

/-- The name of a kind of token in messages. -/
def Token.Kind.label : Token.Kind → String
  | .doc => "doccomment"
  | .comment => "comment"
  | .string => "string"
  | .int => "int"
  | .ident => "ident"
  | .punct => "punct"
  | .blank => "whitespace"
  | .eof => "eof"

namespace Pattern

/-- One `item` or more, with `separator` between two. -/
def separated (separator : String) (item : Pattern) : List Pattern :=
  [item, many (seq [literal separator, item])]

/-- Documentation comments. -/
def docs : Pattern := many (token .doc)

/-- An index and its colon. -/
def index : Pattern := optional (seq [rule .int, literal ":"])

/-- Directives in square brackets. -/
def directives : Pattern :=
  optional (seq ([literal "["] ++ separated "," (rule .directive) ++ [literal "]"]))

end Pattern

open Pattern in
/-- The pattern of a production. -/
def Rule.body : Rule → Pattern
  | .schema => many (rule .decl)
  | .decl => seq [docs, choice [rule .package, rule .inclusion, rule .message, rule .enum]]
  | .package => seq ([literal "package"] ++ separated "." (rule .ident) ++ [literal ";"])
  | .inclusion => seq [literal "include", rule .string, literal ";"]
  | .message =>
    seq [literal "message", rule .ident, literal "\x7b", many (rule .member), literal "\x7d"]
  | .member => seq [docs, choice [rule .message, rule .enum, rule .field]]
  | .enum =>
    seq [literal "enum", rule .ident, literal "\x7b", many (rule .variant), literal "\x7d"]
  | .field => seq [index, rule .typeExpr, rule .ident, directives, literal ";"]
  | .variant => seq [docs, index, choice [rule .typedVariant, rule .ident], literal ";"]
  | .typedVariant => seq [rule .typeExpr, rule .ident, directives]
  | .typeExpr =>
    choice [seq [literal "[", literal "]", rule .typeExpr], seq [literal "[", rule .mapType],
      rule .typeName]
  | .mapType => seq [rule .typeExpr, literal "]", rule .typeExpr]
  | .typeName => seq (optional (literal ".") :: separated "." (rule .ident))
  | .directive =>
    seq [rule .ident, optional (seq [literal "(",
      optional (seq (separated "," (rule .directiveArg))), literal ")"])]
  | .directiveArg => choice [rule .int, rule .directive]
  | .ident => token .ident
  | .int => token .int
  | .string => token .string

namespace Pattern

mutual
/-- A pattern as part of a larger one: sequences and choices stand in parentheses. -/
def render : Pattern → String
  | literal text => Quoted.quoteString text
  | token kind => s!"<{kind.label}>"
  | rule r => r.label
  | seq items => "(" ++ " ".intercalate (renderAll items) ++ ")"
  | choice items => "(" ++ " | ".intercalate (renderAll items) ++ ")"
  | optional item => render item ++ "?"
  | many item => render item ++ "*"
/-- Each pattern of a list, rendered. -/
def renderAll : List Pattern → List String
  | [] => []
  | p :: ps => render p :: renderAll ps
end

/-- What the rest of a sequence expects. -/
def renderRest (items : List Pattern) : String := " ".intercalate (renderAll items)

end Pattern

end BitSchema
