import BitSchema.Encoding.Lowering

/-!
# Encoding checks

Holds the directives of every field against its type, and the keys of maps against the types that
can be keys.
-/

namespace BitSchema

open Source (Schema Item Member TypeExpr)

namespace EncodingCheck

/-- The most bits of a number on the wire. -/
def maxWireBits : Nat := 64

/-- The most bits of a fixed-point number. -/
def maxFixedPointBits : UInt64 := 64

/-- The most bits of padding. -/
def maxPaddingBits : Nat := 64

/-- What a type is, without what it contains; `none` if it refers to no type. -/
def native? (table : SymbolTable) (scope : Descriptor) : TypeExpr → Option Ir.NativeType
  | .scalar _ s => some s.native
  | .array .. => some { kind := .array }
  | .map .. => some { kind := .map }
  | .named _ absolute path name => do
    let r ← (Reference.ofParts absolute (path.map (·.value)) name.value).toOption
    let s ← (table.resolveType scope r).toOption
    return { kind := if s.kind = .enum then .enum else .message }

/-- A type in messages. -/
def describe (n : Ir.NativeType) : String :=
  match n.kind with
  | .int => n.text
  | .float => n.text
  | .message => "a message reference"
  | .enum => "a enum reference"
  | .array => "an array"
  | .map => "an map"
  | kind => kind.name

/-- The kinds of type that can be the key of a map. -/
def isKey (kind : Ir.NativeKind) : Bool :=
  match kind with
  | .bool | .int | .string | .bytes | .enum => true
  | _ => false

/-- The map keys in a type, outermost first. -/
def mapKeys (table : SymbolTable) (scope : Descriptor) : TypeExpr → List Diagnostic
  | .scalar .. => []
  | .named .. => []
  | .array _ element => mapKeys table scope element
  | .map _ key value =>
    (match native? table scope key with
      | some n => if isKey n.kind then [] else [⟨key.span, .mapKey (describe n)⟩]
      | none => []) ++ mapKeys table scope key ++ mapKeys table scope value

/-- A directive and how it was written. -/
structure Applied where
  meaning : Directive
  source : Source.Directive

/-- The directives of a field that mean something, and the problems of the others. -/
def meanings : List Source.Directive → List Applied × List Diagnostic
  | [] => ([], [])
  | d :: ds =>
    let (rest, problems) := meanings ds
    match Directive.ofSource d with
    | .ok meaning => (⟨meaning, d⟩ :: rest, problems)
    | .error p => (rest, p :: problems)

def inapplicable (a : Applied) (n : Ir.NativeType) : Diagnostic :=
  ⟨a.source.span, .inapplicable a.source.render (describe n)⟩

def bitsRange (a : Applied) (n : UInt64) (limit : Nat) : List Diagnostic :=
  if n.toNat < 1 ∨ limit < n.toNat then
    [⟨a.source.span, .bitsRange n.toNat a.source.render limit⟩]
  else []

/-- A number of bits on the wire.  A float needs a width of its own, unless it is quantized by some
directive of its field. -/
def checkBits (native : Ir.NativeType) (hasFixedPoint : Bool) (a : Applied) (n : UInt64) :
    List Diagnostic :=
  match native.kind with
  | .bool => bitsRange a n maxWireBits
  | .int => bitsRange a n native.bits.toNat
  | .float =>
    if hasFixedPoint then bitsRange a n maxWireBits
    else if n ≠ 32 ∧ n.toUInt32 ≠ native.bits then
      [⟨a.source.span, .floatWidth a.source.render native.text native.bits.toNat⟩]
    else []
  | _ => [inapplicable a native]

/-- A repetition of a directive, given the earlier ones. -/
def repetition (earlier : List Applied) (a : Applied) : List Diagnostic :=
  match earlier.find? (·.meaning.kind == a.meaning.kind) with
  | none => []
  | some first =>
    match a.meaning.kind with
    | .pad => [⟨a.source.span, .repeatedPad a.source.render first.source.span⟩]
    | .zigZag | .delta | .fixedPoint => [⟨a.source.span, .repeatedTransform a.source.render⟩]
    | .bits | .bitsVar => []

/-- A directive against a native type.  `quantized` says that a fixed-point directive came first. -/
def checkDirective (native : Ir.NativeType) (hasFixedPoint quantized : Bool) (a : Applied) :
    List Diagnostic :=
  let requires := fun (applies : Bool) => if applies then [] else [inapplicable a native]
  match a.meaning with
  | .bits n => checkBits native hasFixedPoint a n
  | .bitsVar _ => requires (native.kind ∈ [.string, .bytes, .array, .map])
  | .zigZag => requires ((native.kind = .int ∧ native.signed) ∨ quantized)
  | .delta => requires (native.kind = .int ∨ native.kind = .float)
  | .fixedPoint i f =>
    if native.kind ≠ .float then [inapplicable a native]
    else if i + f < 1 ∨ maxFixedPointBits < i + f then
      [⟨a.source.span, .fixedPointWidth a.source.render⟩]
    else []
  | .pad n => bitsRange a n maxPaddingBits

/-- A fixed-point directive that turns a float into a whole number. -/
def quantizes (native : Ir.NativeType) (a : Applied) : Bool :=
  a.meaning.kind = .fixedPoint ∧ native.kind = .float

/-- Directives in order, given the earlier ones. -/
def checkDirectives (native : Ir.NativeType) (hasFixedPoint : Bool) :
    List Applied → List Applied → List Diagnostic
  | _, [] => []
  | earlier, a :: rest =>
    repetition earlier a ++
      checkDirective native hasFixedPoint (earlier.any (quantizes native)) a ++
      checkDirectives native hasFixedPoint (earlier ++ [a]) rest

/-- The directives of a field against its type. -/
def checkApplied (native : Ir.NativeType) (applied : List Applied) : List Diagnostic :=
  if native.kind = .message ∨ native.kind = .enum then applied.map (inapplicable · native)
  else checkDirectives native (applied.any (·.meaning.kind == .fixedPoint)) [] applied

def checkField (table : SymbolTable) (scope : Descriptor) (f : Source.Field) : List Diagnostic :=
  let (applied, malformed) := meanings f.directives
  mapKeys table scope f.type ++ malformed ++
    if applied.isEmpty then []
    else match native? table scope f.type with
      | none => []
      | some native => checkApplied native applied

def checkEnum (table : SymbolTable) (scope : Descriptor) (e : Source.Enum) : List Diagnostic :=
  let inner := (scope.child e.name.value).scope
  (e.variants.filterMap Source.Variant.field?).flatMap (checkField table inner)

mutual
/-- The fields of a message, then the types declared in it. -/
def checkMessage (table : SymbolTable) (scope : Descriptor) : Source.Message → List Diagnostic
  | ⟨_, _, name, members⟩ =>
    let inner := (scope.child name.value).scope
    (members.filterMap Member.field?).flatMap (checkField table inner) ++
      checkMembers table inner members
def checkMembers (table : SymbolTable) (scope : Descriptor) : List Member → List Diagnostic
  | [] => []
  | m :: ms => checkMember table scope m ++ checkMembers table scope ms
def checkMember (table : SymbolTable) (scope : Descriptor) : Member → List Diagnostic
  | .field _ => []
  | .message m => checkMessage table scope m
  | .enum e => checkEnum table scope e
end

end EncodingCheck

/-- Check the directives and map keys of a file. -/
def checkEncodings (table : SymbolTable) (file : Schema) : List Diagnostic :=
  match filePackage? file with
  | none => []
  | some p =>
    let scope := Descriptor.ofPackage p
    file.items.flatMap fun
      | .message m => EncodingCheck.checkMessage table scope m
      | .enum e => EncodingCheck.checkEnum table scope e
      | _ => []

end BitSchema
