import BitSchema.Import.Importer
import BitSchema.Linking.Graph
import BitSchema.Source.Parse
import BitSchema.Symbol.Table

/-!
# Diagnostics

What the compiler has to say about a set of schemas.  A problem is a cause with what its text needs;
its code, severity and text follow from it, and so does a second place where there is one.  Errors
block code generation, warnings do not.
-/

namespace BitSchema

inductive Severity where
  | error
  | warning
  deriving DecidableEq, Repr, Inhabited

def Severity.name : Severity → String
  | error => "error"
  | warning => "warning"

/-- Why a schema has no resolved form. -/
inductive LowerError where
  | noPackage (file : String)
  /-- What was being lowered: a field or a variant of a type, with its name. -/
  | name (what : String) (owner : Descriptor) (member : String) (cause : NameError)
  | reference (what : String) (owner : Descriptor) (member : String) (cause : ResolveError)
  deriving DecidableEq, Repr

def LowerError.message : LowerError → String
  | noPackage file => s!"lowering {file}: missing or invalid package"
  | name what owner member cause => s!"{what} {owner.text}.{member}: " ++ cause.message
  | reference what owner member cause => s!"{what} {owner.text}.{member}: " ++ cause.message

/-- The largest index of a field or variant. -/
def maxIndex : Nat := Nat.pow 2 32 - 1

/-- What can be wrong with schemas, or questionable. -/
inductive Problem where
  | badSource (error : Source.ParseError)
  | badPackageName (name : String) (cause : NameError)
  | missingPackage
  | beforePackage (kind : String) (package : Span)
  | secondPackage (first : Span)
  | duplicateType (kind : TypeKind) (fullName : String) (previous : Symbol)
  | typeIsPackage (fullName : String)
  | packageIsType (fullName : String) (previous : Symbol)
  | badReference (reference : String) (cause : NameError)
  | unresolved (reference : String) (scope : Descriptor)
  | packageReference (reference : String)
  | duplicateIndex (index : Nat) (kind container name firstName : String) (first : Span)
  | wideIndex (index : Nat) (name : String)
  | duplicateName (kind name container : String) (first : Span)
  | includeNotFound (path : Octets) (cause : ImportError)
  | unreadable (path : String) (cause : ReadError)
  | unknownDirective (name : String)
  | malformedDirective (directive usage : String)
  | bitsRange (n : Nat) (directive : String) (limit : Nat)
  | inapplicable (directive type : String)
  | fixedPointWidth (directive : String)
  | mapKey (type : String)
  | unlinked (cause : LinkError)
  | notLowered (cause : LowerError)
  | floatWidth (directive native : String) (bits : Nat)
  | shadowsBuiltin (name : String)
  | unusedInclude (path : Octets)
  | duplicateInclude (path : Octets) (first : Span)
  | repeatedTransform (directive : String)
  | repeatedPad (directive : String) (first : Span)
  deriving Repr

namespace Problem

def code : Problem → Nat
  | badSource e => e.code
  | badPackageName .. => 3000
  | missingPackage => 3001
  | beforePackage .. => 3002
  | secondPackage _ => 3003
  | duplicateType .. => 3004
  | typeIsPackage _ => 3005
  | packageIsType .. => 3005
  | badReference .. => 3006
  | unresolved .. => 3007
  | packageReference _ => 3008
  | duplicateIndex .. => 3009
  | wideIndex .. => 3010
  | duplicateName .. => 3011
  | includeNotFound .. => 3012
  | unreadable .. => 3013
  | unknownDirective _ => 3014
  | malformedDirective .. => 3015
  | bitsRange .. => 3016
  | inapplicable .. => 3017
  | fixedPointWidth _ => 3018
  | mapKey _ => 3019
  | unlinked _ => 3020
  | notLowered _ => 3021
  | floatWidth .. => 3022
  | shadowsBuiltin _ => 4000
  | unusedInclude _ => 4001
  | duplicateInclude .. => 4002
  | repeatedTransform _ => 4003
  | repeatedPad .. => 4004

/-- Codes from 4000 on are warnings. -/
def severity (p : Problem) : Severity := if 4000 ≤ p.code then .warning else .error

def message : Problem → String
  | badSource e => e.message
  | badPackageName name cause =>
    "invalid package name " ++ Quoted.quoteString name ++ ": " ++ cause.message
  | missingPackage => "missing package declaration"
  | beforePackage kind _ => s!"{kind} declared before the package declaration"
  | secondPackage first =>
    s!"duplicate package declaration (first declared at {first.describe})"
  | duplicateType kind fullName previous =>
    s!"declaration of {kind.name} '{fullName}' conflicts with earlier {previous.kind.name} " ++
      s!"declared at {previous.span.describe}"
  | typeIsPackage fullName => s!"type '{fullName}' has the same name as a package"
  | packageIsType fullName previous =>
    s!"package '{fullName}' has the same name as {previous.kind.name} " ++
      s!"declared at {previous.span.describe}"
  | badReference reference cause => s!"invalid type reference '{reference}': " ++ cause.message
  | unresolved reference scope =>
    s!"unresolved type reference '{reference}' in scope '{scope.text}'"
  | packageReference reference => s!"'{reference}' names a package, not a message or enum"
  | duplicateIndex index kind container name firstName first =>
    s!"duplicate index {index} for {kind} '{name}' in '{container}' " ++
      s!"(first used by '{firstName}' at {first.describe})"
  | wideIndex index name => s!"index {index} of '{name}' is out of range (maximum {maxIndex})"
  | duplicateName kind name container first =>
    s!"duplicate {kind} name '{name}' in '{container}' (first declared at {first.describe})"
  | includeNotFound path cause => "cannot include " ++ Quoted.quote path ++ ": " ++ cause.message
  | unreadable path cause => "cannot read " ++ Quoted.quoteString path ++ ": " ++ cause.message
  | unknownDirective name => s!"unknown encoding annotation '{name}'"
  | malformedDirective directive usage =>
    s!"malformed annotation '{directive}' (expected {usage})"
  | bitsRange n directive limit =>
    s!"bit count {n} in '{directive}' is out of range (must be between 1 and {limit})"
  | inapplicable directive type => s!"annotation '{directive}' cannot be applied to {type}"
  | fixedPointWidth directive => s!"'{directive}' must use between 1 and 64 bits in total"
  | mapKey type => s!"{type} cannot be used as a map key"
  | unlinked cause => cause.message
  | notLowered cause => cause.message
  | floatWidth directive native bits =>
    s!"'{directive}' on {native} must be bits(32) or bits({bits}) unless fixed_point is applied"
  | shadowsBuiltin name =>
    s!"declaration '{name}' shadows a builtin type; unqualified references resolve to the builtin"
  | unusedInclude path => "include " ++ Quoted.quote path ++ " is unused"
  | duplicateInclude path _ => "duplicate include " ++ Quoted.quote path
  | repeatedTransform directive => s!"transform '{directive}' is applied more than once"
  | repeatedPad directive _ => s!"'{directive}' overrides an earlier pad annotation"

/-- A second place that the problem is about, such as a first definition. -/
def related? : Problem → Option Span
  | beforePackage _ package => some package
  | secondPackage first => some first
  | duplicateType _ _ previous => some previous.span
  | packageIsType _ previous => some previous.span
  | duplicateIndex _ _ _ _ _ first => some first
  | duplicateName _ _ _ first => some first
  | duplicateInclude _ first => some first
  | repeatedPad _ first => some first
  | _ => none

end Problem

/-- A problem and its place. -/
structure Diagnostic where
  span : Span
  problem : Problem
  deriving Repr

namespace Diagnostic

def severity (d : Diagnostic) : Severity := d.problem.severity

def code (d : Diagnostic) : Nat := d.problem.code

def message (d : Diagnostic) : String := d.problem.message

def isError (d : Diagnostic) : Bool := d.severity == .error

/-- The message with its code. -/
def text (d : Diagnostic) : String :=
  (if d.isError then "E" else "W") ++ toString d.code ++ ": " ++ d.message

/-- The second place, if it says anything. -/
def related? (d : Diagnostic) : Option Span := d.problem.related?.filter (!·.isNone)

def errors (ds : List Diagnostic) : List Diagnostic := ds.filter (·.isError)

def warnings (ds : List Diagnostic) : List Diagnostic := ds.filter (!·.isError)

end Diagnostic

end BitSchema
