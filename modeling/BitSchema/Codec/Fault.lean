import BitSchema.Bits.Reader
import BitSchema.Ir.Schema
import BitSchema.Number.FixedPoint
import BitSchema.Text.Quoted

/-!
# Codec faults

Why a value cannot be encoded or data cannot be decoded, and where in the value that happened.
-/

namespace BitSchema.Codec

/-- What a number is while it moves through transforms. -/
inductive Domain where
  | unsigned
  | signed
  | float
  deriving DecidableEq, Repr, Inhabited

def Domain.name : Domain → String
  | unsigned => "unsigned"
  | signed => "signed"
  | float => "float"

/-- The cause of a failure. -/
inductive Cause where
  | read (fault : ReadFault)
  | fixedPoint (fault : FixedPoint.Fault)
  | unknownMessage (descriptor : Ir.Descriptor)
  | unknownEnum (descriptor : Ir.Descriptor)
  | unknownNative (kind : String)
  /-- A value of a type that the encoding does not take. -/
  | mistyped (type native : String)
  /-- A number outside the native type. -/
  | invalidNumber (shown : Octets) (type native : String)
  | noVariantNamed (enum : String) (variant : Octets)
  | noVariantNumbered (enum : String) (index : Nat)
  | unitPayload (variant : String)
  | longLength (length bits : Nat)
  | wideUnsigned (n : UInt64) (bits : Nat)
  | wideSigned (n : Int64) (bits : Nat)
  | floatWidth (bits : Nat)
  | badBool (n : UInt64)
  | badText
  | missingElements (count : Nat)
  | manyElements (count : Nat)
  | trailingBits (count : Nat)
  | unknownTransform (kind : String)
  | misplacedTransform (transform : String) (domain : Domain)
  /-- More bits at once than a word has. -/
  | wideWrite (bits : Nat)
  /-- An encoding without the element, key, value or descriptor that its kind needs. -/
  | incompleteType
  /-- A schema with a null where a definition was looked for. -/
  | nullEntry
  /-- A definition that contains itself without end. -/
  | endless
  deriving Repr

/-- One step on the way into a value. -/
inductive Step where
  | field (message field : String)
  | item (i : Nat)
  | key (i : Nat)
  | value (i : Nat)
  | variant (name : String)
  | baseline
  deriving DecidableEq, Repr

/-- A cause, and the way to where it arose, outermost step first. -/
structure Fault where
  trail : List Step := []
  cause : Cause
  deriving Repr

/-- The classes of failure. -/
inductive FaultClass where
  | shortBuffer
  | outOfRange
  | invalidValue
  | unknownType
  /-- A fault of the schema or the caller, not of the value or the data. -/
  | misuse
  deriving DecidableEq, Repr

namespace Cause

def faultClass : Cause → FaultClass
  | read (.tooWide _) => .outOfRange
  | read (.missingBits ..) => .shortBuffer
  | read (.missingBytes ..) => .shortBuffer
  | read .nonZeroPadding => .invalidValue
  | fixedPoint _ => .outOfRange
  | unknownMessage _ => .unknownType
  | unknownEnum _ => .unknownType
  | unknownNative _ => .unknownType
  | mistyped .. => .invalidValue
  | invalidNumber .. => .outOfRange
  | noVariantNamed .. => .invalidValue
  | noVariantNumbered .. => .invalidValue
  | unitPayload _ => .invalidValue
  | longLength .. => .outOfRange
  | wideUnsigned .. => .outOfRange
  | wideSigned .. => .outOfRange
  | floatWidth _ => .invalidValue
  | badBool _ => .invalidValue
  | badText => .invalidValue
  | missingElements _ => .shortBuffer
  | manyElements _ => .outOfRange
  | trailingBits _ => .invalidValue
  | unknownTransform _ => .invalidValue
  | misplacedTransform .. => .invalidValue
  | wideWrite _ => .misuse
  | incompleteType => .misuse
  | nullEntry => .misuse
  | endless => .misuse

/-- The value that the message of a cause shows first, which may hold any text. -/
def shown : Cause → Octets
  | invalidNumber shown .. => shown
  | _ => []

/-- What went wrong, without its class and the value it shows first. -/
def detail : Cause → String
  | read (.tooWide n) => s!"cannot read {n} bits at once"
  | read (.missingBits need available) => s!"need {need} bits, have {available}"
  | read (.missingBytes need bits) => s!"need {need} bytes, have {bits} bits"
  | read .nonZeroPadding => "non-zero padding"
  | fixedPoint fault => fault.message
  | unknownMessage d => "message " ++ d.text
  | unknownEnum d => "enum " ++ d.text
  | unknownNative kind => "native kind " ++ Quoted.quoteString kind
  | mistyped type native => s!"{type} cannot be encoded as {native}"
  | invalidNumber _ type native => s!" ({type}) is not a valid {native}"
  | noVariantNamed enum variant => s!"enum {enum} has no variant " ++ Quoted.quote variant
  | noVariantNumbered enum index => s!"enum {enum} has no variant with index {index}"
  | unitPayload variant => s!"unit variant {variant} carries a value"
  | longLength length bits => s!"length {length} does not fit a {bits}-bit prefix"
  | wideUnsigned n bits => s!"{n.toNat} does not fit in {bits} bits"
  | wideSigned n bits => s!"{n.toInt} does not fit in {bits} signed bits"
  | floatWidth bits => s!"float encoded in {bits} bits"
  | badBool n => s!"bool encoded as {n.toNat}"
  | badText => "string is not valid UTF-8"
  | missingElements count => s!"{count} elements exceed the remaining data"
  | manyElements count => s!"{count} elements"
  | trailingBits count => s!"{count} trailing bits"
  | unknownTransform kind => "unknown transform " ++ Quoted.quoteString kind
  | misplacedTransform transform domain => s!"{transform} on a {domain.name} value"
  | wideWrite bits => s!"wire.Writer.WriteBits: n={bits} exceeds 64"
  | incompleteType => ""
  | nullEntry => ""
  | endless => ""

end Cause

def FaultClass.text : FaultClass → String
  | shortBuffer => "wire: unexpected end of data: "
  | outOfRange => "wire: value out of range: "
  | invalidValue => "wire: invalid value: "
  | unknownType => "wire: unknown type: "
  | misuse => ""

def Step.text : Step → String
  | field message name => s!"{message}.{name}: "
  | item i => s!"[{i}]: "
  | key i => s!"key {i}: "
  | value i => s!"value {i}: "
  | variant name => name ++ ": "
  | baseline => "baseline: "

/-- The message of a cause: its class, the value it shows and its detail. -/
def Cause.message (c : Cause) : Octets :=
  Octets.ofString c.faultClass.text ++ c.shown ++ Octets.ofString c.detail

/-- The whole message.  A misuse is reported without the way to it. -/
def Fault.message (f : Fault) : Octets :=
  (if f.cause.faultClass = .misuse then []
    else Octets.ofString (String.join (f.trail.map Step.text))) ++ f.cause.message

/-- The fault one step further out. -/
def Fault.under (step : Step) (f : Fault) : Fault := { f with trail := step :: f.trail }

end BitSchema.Codec
