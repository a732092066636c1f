import BitSchema.Bits.Writer
import BitSchema.Codec.Pipeline

/-!
# Encoding

Writes a value by an encoding.  What was written before a failure stays in the writer.

The definitions are layered by the depth of the value: `encodeValue` with one more unit of fuel is
`encodeWith` around itself, so a fact about one layer lifts to all of them.
-/

namespace BitSchema.Codec

open Ir (Encoding)

/-- A step that writes: it succeeds or fails, and moves the writer in either case. -/
abbrev Encoder : Type := ExceptT Fault (StateM BitWriter) Unit

namespace Encoder

def fail (cause : Cause) : Encoder := throw { cause }

/-- Name the step that an encoder belongs to in its faults. -/
def under (step : Step) (e : Encoder) : Encoder := ExceptT.adapt (Fault.under step) e

/-- Write the low bits of a word, at most 64 of them. -/
def word (v : UInt64) (bits : Nat) : Encoder := do
  if 64 < bits then fail (.wideWrite bits)
  modify (·.writeBits v.toNat bits)

/-- Write one encoder after another, each with its place. -/
def each {α : Type} (f : Nat → α → Encoder) : Nat → List α → Encoder
  | _, [] => pure ()
  | i, a :: as => do
    f i a
    each f (i + 1) as

end Encoder

open Encoder (fail under word each)

def writeLength (enc : Encoding) (n : Nat) : Encoder := do
  let bits := enc.wire.prefixBits.toNat
  if n < Nat.pow 2 64 ∧ Word.fitsUnsigned (UInt64.ofNat n) bits then word (UInt64.ofNat n) bits
  else fail (.longLength n bits)

def writeOctets (enc : Encoding) (octets : List UInt8) : Encoder := do
  writeLength enc octets.length
  modify (·.writeBytes octets)

/-- Write a number that went through its transforms. -/
def writeNumber (n : Number) (bits : Nat) : Encoder :=
  match n with
  | .unsigned n =>
    if Word.fitsUnsigned n bits then word n bits else fail (.wideUnsigned n bits)
  | .signed n =>
    if Word.fitsSigned n bits then word n.toUInt64 bits else fail (.wideSigned n bits)
  | .float n =>
    if bits = 32 then
      word (UInt64.ofNat (FloatFormat.double.convert FloatFormat.single n.toNat)) 32
    else if bits = 64 then word n 64
    else fail (.floatWidth bits)

/-- What a number is written as: loaded, and run through the transforms with its baseline. -/
def transformed (enc : Encoding) (v base : Value) : Except Fault Number := do
  let n ← (loadNumber enc.native v).mapError ({ cause := · })
  let b ← loadBaseline enc base
  return (← run enc.transforms n b).1

def encodeNumber (enc : Encoding) (v base : Value) : Encoder := do
  match transformed enc v base with
  | .error fault => throw fault
  | .ok n => writeNumber n enc.wire.bits.toNat

def mistyped (enc : Encoding) (v : Value) : Encoder :=
  fail (.mistyped v.typeName enc.native.text)

/-- The fields in the order of their indices.  The order of fields with the same index, which no
compiled message has, is left open by the format; here they stay as they are. -/
def sortedFields (m : Ir.Message) : List Ir.Field := m.fields.mergeSort fun a b => a.index ≤ b.index

/-- The first variant of the lowest index, counting `lowest` as seen before.  Absent variants are
passed over as long as none has been seen. -/
def lowestVariant (lowest : Option Ir.Variant) : List Ir.Variant → Ir.Search Ir.Variant
  | [] => .ok lowest
  | v :: vs =>
    match lowest with
    | none => lowestVariant (if v.absent then none else some v) vs
    | some l =>
      if v.absent then .error .nullEntry
      else lowestVariant (some (if v.index < l.index then v else l)) vs

/-- The variant that an absent value stands for. -/
def zeroVariant (e : Ir.Enum) : Ir.Search Ir.Variant := lowestVariant none e.variants

/-- The variant of a name; the empty name stands for the zero variant. -/
def variantNamed (e : Ir.Enum) (name : Octets) : Ir.Search Ir.Variant :=
  if name.isEmpty then zeroVariant e
  else Ir.search (·.absent) (Octets.ofString ·.name == name) e.variants

/-- The variant and payload that a value gives an enum. -/
def enumParts? : Value → Option (Octets × Value)
  | .null => some ([], .null)
  | .enum variant payload => some (Octets.ofString variant, payload)
  | .text octets => some (octets, .null)
  | _ => none

section

variable (schema : Ir.Schema) (recur : Encoding → Value → Value → Encoder)

/-- Write the fields of a message, each against the same field of the baseline. -/
def encodeFields (name : String) (values bases : List (String × Value)) :
    List Ir.Field → Encoder
  | [] => pure ()
  | f :: fs => do
    under (.field name f.name)
      (recur f.encoding (Value.fieldOf values f.name) (Value.fieldOf bases f.name))
    encodeFields name values bases fs

def encodeMessage (m : Ir.Message) (values bases : List (String × Value)) : Encoder :=
  if m.fields.any (·.absent) then fail .nullEntry
  else encodeFields recur m.name values bases (sortedFields m)

def encodeEnum (enc : Encoding) (d : Ir.Descriptor) (v : Value) : Encoder := do
  match schema.findEnum d with
  | .error .nullEntry => fail .nullEntry
  | .ok none => fail (.unknownEnum d)
  | .ok (some e) =>
    match enumParts? v with
    | none => mistyped enc v
    | some (name, payload) =>
      match variantNamed e name with
      | .error .nullEntry => fail .nullEntry
      | .ok none => fail (.noVariantNamed e.name name)
      | .ok (some variant) =>
        word variant.index.toUInt64 e.discriminant.wire.bits.toNat
        match variant.field with
        | none => if payload.isNull then pure () else fail (.unitPayload variant.name)
        | some f => under (.variant variant.name) (recur f.encoding payload .null)

/-- Write a value without its padding, `recur` for the parts of it. -/
def encodeBody (enc : Encoding) (v base : Value) : Encoder :=
  match enc.native.kind with
  | .bool =>
    match v with
    | .bool b => word (if b then 1 else 0) enc.wire.bits.toNat
    | .null => word 0 enc.wire.bits.toNat
    | v => mistyped enc v
  | .int => encodeNumber enc v base
  | .float => encodeNumber enc v base
  | .string =>
    match v with
    | .text octets => writeOctets enc octets
    | .null => writeOctets enc []
    | v => mistyped enc v
  | .bytes =>
    match v with
    | .bytes octets => writeOctets enc octets
    | .null => writeOctets enc []
    | v => mistyped enc v
  | .array =>
    let items? := match v with
      | .list items => some items
      | .null => some []
      | _ => none
    match items? with
    | none => mistyped enc v
    | some items => do
      writeLength enc items.length
      match enc.native.element, items with
      | _, [] => pure ()
      | none, _ => fail .incompleteType
      | some element, items =>
        each (fun i item => under (.item i) (recur element item .null)) 0 items
  | .map =>
    let entries? := match v with
      | .map entries => some entries
      | .null => some []
      | _ => none
    match entries? with
    | none => mistyped enc v
    | some entries => do
      writeLength enc entries.length
      match enc.native.key, enc.native.value, entries with
      | _, _, [] => pure ()
      | some key, some value, entries =>
        each (fun i entry => do
          under (.key i) (recur key entry.1 .null)
          under (.value i) (recur value entry.2 .null)) 0 entries
      | some key, none, entry :: _ => do
        under (.key 0) (recur key entry.1 .null)
        fail .incompleteType
      | none, _, _ => fail .incompleteType
  | .message =>
    match enc.native.descriptor with
    | none => fail .incompleteType
    | some d =>
      match schema.findMessage d, v.asFields? with
      | .error .nullEntry, _ => fail .nullEntry
      | .ok none, _ => fail (.unknownMessage d)
      | .ok (some _), none => mistyped enc v
      | .ok (some m), some values => encodeMessage recur m values (base.asFields?.getD [])
  | .enum =>
    match enc.native.descriptor with
    | none => fail .incompleteType
    | some d => encodeEnum schema recur enc d v
  | .other kind => fail (.unknownNative kind)

/-- Write a value and its padding. -/
def encodeWith (enc : Encoding) (v base : Value) : Encoder := do
  encodeBody schema recur enc v base
  match enc.paddingBits with
  | some n => modify (·.pad n.toNat)
  | none => pure ()

end

/-- Write a value whose definitions are at most `fuel` deep. -/
def encodeValue (schema : Ir.Schema) : Nat → Encoding → Value → Value → Encoder
  | 0 => fun _ _ _ => fail .endless
  | fuel + 1 => encodeWith schema (encodeValue schema fuel)

end BitSchema.Codec
