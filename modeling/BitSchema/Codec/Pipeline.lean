import BitSchema.Codec.Fault
import BitSchema.Codec.Value

/-!
# Transform pipelines

Before a number is written it runs through the transforms of its encoding in order, and after it is
read it runs through their inverses in reverse order.  A delta subtracts the baseline, which runs
through the same transforms.  All arithmetic on words wraps.
-/

namespace BitSchema.Codec

open Ir (Transform NativeType Encoding)

/-- A number in one of the domains; a float is its bit pattern. -/
inductive Number where
  | unsigned (n : UInt64)
  | signed (n : Int64)
  | float (bits : UInt64)
  deriving DecidableEq, Repr, Inhabited

namespace Number

def domain : Number → Domain
  | unsigned _ => .unsigned
  | signed _ => .signed
  | float _ => .float

/-- Zero in a domain. -/
def zero : Domain → Number
  | .unsigned => unsigned 0
  | .signed => signed 0
  | .float => float 0

end Number

/-- The domain of the numbers of a native type. -/
def nativeDomain (native : NativeType) : Domain :=
  if native.kind = .float then .float else if native.signed then .signed else .unsigned

/-- The domain after a transform. -/
def stepDomain (t : Transform) (d : Domain) : Except Cause Domain :=
  match t.kind, d with
  | .delta, .unsigned => .ok .signed
  | .delta, d => .ok d
  | .fixedPoint, .float => .ok .signed
  | .zigZag, .signed => .ok .unsigned
  | .other kind, _ => .error (.unknownTransform kind)
  | _, d => .error (.misplacedTransform t.text d)

/-- The domains before each of the transforms, and the one after all of them. -/
def domains : List Transform → Domain → Except Cause (List Domain × Domain)
  | [], d => .ok ([], d)
  | t :: ts, d => do
    let next ← stepDomain t d
    let (befores, last) ← domains ts next
    return (d :: befores, last)

def hasDelta (transforms : List Transform) : Bool := transforms.any (·.kind == .delta)

def floatSub (a b : UInt64) : UInt64 :=
  UInt64.ofNat (FloatFormat.double.sub a.toNat b.toNat)

def floatAdd (a b : UInt64) : UInt64 :=
  UInt64.ofNat (FloatFormat.double.add a.toNat b.toNat)

/-- The number after a transform; `base` is the baseline before it. -/
def forward (t : Transform) (n base : Number) : Except Cause Number :=
  match t.kind, n, base with
  | .delta, .unsigned n, .unsigned b => .ok (.signed (n - b).toInt64)
  | .delta, .signed n, .signed b => .ok (.signed (n - b))
  | .delta, .float n, .float b => .ok (.float (floatSub n b))
  | .fixedPoint, .float n, _ =>
    match FixedPoint.encode n t.integerBits t.fractionalBits with
    | .ok quantized => .ok (.signed quantized)
    | .error fault => .error (.fixedPoint fault)
  | .zigZag, .signed n, _ => .ok (.unsigned (Word.zigZag n))
  | .other kind, _, _ => .error (.unknownTransform kind)
  | _, n, _ => .error (.misplacedTransform t.text n.domain)

/-- The number before a transform; `base` is the baseline before it. -/
def backward (t : Transform) (n base : Number) : Number :=
  match t.kind, n, base with
  | .delta, .signed n, .unsigned b => .unsigned (b + n.toUInt64)
  | .delta, .signed n, .signed b => .signed (b + n)
  | .delta, .float n, .float b => .float (floatAdd b n)
  | .fixedPoint, .signed n, _ => .float (FixedPoint.decode n t.fractionalBits)
  | .zigZag, .unsigned n, _ => .signed (Word.unZigZag n)
  | _, n, _ => n

/-- Run a number and its baseline through transforms.  The result has the baselines before each of
them. -/
def run : List Transform → Number → Number → Except Fault (Number × List Number)
  | [], n, _ => .ok (n, [])
  | t :: ts, n, base => do
    let next ← (forward t n base).mapError ({ cause := · })
    let nextBase ← (forward t base base).mapError ({ trail := [.baseline], cause := · })
    let (last, bases) ← run ts next nextBase
    return (last, base :: bases)

/-- Run a number back through transforms, given the baselines before each of them. -/
def unrun : List Transform → List Number → Number → Number
  | t :: ts, base :: bases, n => backward t (unrun ts bases n) base
  | _, _, n => n

/-- The number that a value stands for in a native type. -/
def loadNumber (native : NativeType) (v : Value) : Except Cause Number :=
  let number? := match nativeDomain native with
    | .unsigned => (v.toUInt64?.filter (Word.fitsUnsigned · native.bits.toNat)).map .unsigned
    | .signed => (v.toInt64?.filter (Word.fitsSigned · native.bits.toNat)).map .signed
    | .float => v.toDouble?.map .float
  match number? with
  | some n => .ok n
  | none => .error (.invalidNumber v.render v.typeName native.text)

/-- The baseline of an encoding; only a delta reads it. -/
def loadBaseline (enc : Encoding) (base : Value) : Except Fault Number :=
  if hasDelta enc.transforms then
    (loadNumber enc.native base).mapError ({ trail := [.baseline], cause := · })
  else .ok (.zero (nativeDomain enc.native))

/-- The value of a decoded number. -/
def Number.toValue : Number → Value
  | unsigned n => .int .uint64 n.toNat
  | signed n => .int .int64 n.toInt
  | float bits => .double bits

end BitSchema.Codec
