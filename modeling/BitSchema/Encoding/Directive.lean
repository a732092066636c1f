import BitSchema.Diagnostic
import BitSchema.Encoding.Width

/-!
# Encoding directives

What a directive in brackets after a field means, and what it does to an encoding.
-/

namespace BitSchema

/-- A directive with its arguments. -/
inductive Directive where
  | bits (n : UInt64)
  | bitsVar (max : UInt64)
  | zigZag
  | delta
  | fixedPoint (integer fractional : UInt64)
  | pad (n : UInt64)
  deriving DecidableEq, Repr

/-- Directives apart from their arguments. -/
inductive DirectiveKind where
  | bits
  | bitsVar
  | zigZag
  | delta
  | fixedPoint
  | pad
  deriving DecidableEq, Repr

namespace Directive

def kind : Directive → DirectiveKind
  | bits _ => .bits
  | bitsVar _ => .bitsVar
  | zigZag => .zigZag
  | delta => .delta
  | fixedPoint .. => .fixedPoint
  | pad _ => .pad

/-- The directives that have a name, and how they are used. -/
def usages : List (String × String) :=
  [("bits", "bits(N) or bits(var(MAX))"), ("zig_zag", "zig_zag with no arguments"),
    ("delta", "delta with no arguments"),
    ("fixed_point", "fixed_point(INTEGER_BITS, FRACTIONAL_BITS)"), ("pad", "pad(N)")]

/-- The meaning of a name with arguments, if they fit it. -/
def ofParts? (name : String) (args : List Source.Directive.Arg) : Option Directive :=
  match name, args with
  | "bits", [.int n] => some (bits n.value)
  | "bits", [.call ⟨_, inner, some [.int n]⟩] =>
    if inner.value = "var" then some (bitsVar n.value) else none
  | "zig_zag", [] => some zigZag
  | "delta", [] => some delta
  | "fixed_point", [.int i, .int f] => some (fixedPoint i.value f.value)
  | "pad", [.int n] => some (pad n.value)
  | _, _ => none

/-- The meaning of a directive as it was written, or what is wrong with it. -/
def ofSource (d : Source.Directive) : Except Diagnostic Directive :=
  match ofParts? d.name.value d.argList with
  | some meaning => .ok meaning
  | none =>
    match usages.find? (·.1 == d.name.value) with
    | some (_, usage) => .error ⟨d.span, .malformedDirective d.render usage⟩
    | none => .error ⟨d.name.span, .unknownDirective d.name.value⟩

/-- Apply a directive to an encoding.  Numbers are cut to 32 bits. -/
def apply (enc : Ir.Encoding) : Directive → Ir.Encoding
  | bits n => { enc with wire := .ofBits n.toUInt32 }
  | bitsVar n => { enc with wire := .lengthPrefixed (UInt32.ofNat (lengthPrefixBits n.toNat)) }
  | zigZag => { enc with transforms := enc.transforms ++ [.zigZag] }
  | delta => { enc with transforms := enc.transforms ++ [.delta] }
  | fixedPoint i f =>
    { enc with transforms := enc.transforms ++ [.fixedPoint i.toUInt32 f.toUInt32] }
  | pad n => { enc with paddingBits := some n.toUInt32 }

end Directive

end BitSchema
