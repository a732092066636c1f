import BitSchema.Codec.Encode

/-!
# Decoding

Reads a value by an encoding.  After a failure the reader stands where it failed.

A count that the rest of the data cannot hold is refused before anything is read for it, and where
elements may take no bits at all, so is one above `maxEmptyElements`.
-/

namespace BitSchema.Codec

open Ir (Encoding)

/-- A step that reads: it succeeds or fails, and moves the reader in either case. -/
abbrev Decoder (α : Type) : Type := ExceptT Fault (StateM BitReader) α

namespace Decoder

def fail {α : Type} (cause : Cause) : Decoder α := throw { cause }

/-- Name the step that a decoder belongs to in its faults. -/
def under {α : Type} (step : Step) (d : Decoder α) : Decoder α :=
  ExceptT.adapt (Fault.under step) d

/-- A read of bits or bytes. -/
def ofRead {α : Type} (s : BitReader.Step α) : Decoder α :=
  ExceptT.adapt (fun fault => { cause := .read fault }) s

/-- Read `n` more values after those in `done`, which stand in reverse; `i` is the next place. -/
def repeatedFrom {α : Type} (f : Nat → Decoder α) : Nat → Nat → List α → Decoder (List α)
  | _, 0, done => pure done.reverse
  | i, n + 1, done => do
    let next ← f i
    repeatedFrom f (i + 1) n (next :: done)

/-- Read `n` values, each with its place. -/
def repeated {α : Type} (f : Nat → Decoder α) (n : Nat) : Decoder (List α) := repeatedFrom f 0 n []

end Decoder

open Decoder (fail under ofRead repeated)

def readWord (bits : UInt32) : Decoder UInt64 := ofRead (BitReader.readBits bits.toNat)

/-- The most elements that may be decoded where one may take no bits. -/
def maxEmptyElements : Nat := Nat.pow 2 20

/-- The fewest bits that a value of an encoding takes. -/
def minEncodedBits (enc : Encoding) : Nat :=
  (match enc.wire.kind with
    | .bits => enc.wire.bits.toNat
    | .lengthPrefixed => enc.wire.prefixBits.toNat
    | _ => 0) + ((enc.paddingBits.map UInt32.toNat).getD 0)

/-- Read the number of elements of a collection. -/
def readCount (enc element : Encoding) : Decoder Nat := do
  let n ← UInt64.toNat <$> readWord enc.wire.prefixBits
  let least := minEncodedBits element
  let r ← get
  if 0 < least then
    if r.remaining / least < n then fail (.missingElements n)
  else if maxEmptyElements < n then fail (.manyElements n)
  return n

def readOctets (enc : Encoding) : Decoder (List UInt8) := do
  let n ← readWord enc.wire.prefixBits
  ofRead (BitReader.readBytes n.toNat)

/-- The number that a word read from the wire stands for before it is run back. -/
def ofWord (d : Domain) (raw : UInt64) (bits : Nat) : Except Cause Number :=
  match d with
  | .unsigned => .ok (.unsigned raw)
  | .signed => .ok (.signed (Word.signExtend raw bits))
  | .float =>
    if bits = 32 then
      .ok (.float (UInt64.ofNat (FloatFormat.single.convert FloatFormat.double raw.toNat)))
    else if bits = 64 then .ok (.float raw)
    else .error (.floatWidth bits)

/-- The domain of the words on the wire, and the baselines before each transform. -/
def prepared (enc : Encoding) (base : Value) : Except Fault (Domain × List Number) := do
  let (_, last) ← (domains enc.transforms (nativeDomain enc.native)).mapError ({ cause := · })
  let b ← loadBaseline enc base
  let (_, bases) ← run enc.transforms b b
  return (last, bases)

def decodeNumber (enc : Encoding) (base : Value) : Decoder Value := do
  match prepared enc base with
  | .error fault => throw fault
  | .ok (last, bases) =>
    let raw ← readWord enc.wire.bits
    match ofWord last raw enc.wire.bits.toNat with
    | .error cause => fail cause
    | .ok n => return (unrun enc.transforms bases n).toValue

section

variable (schema : Ir.Schema) (recur : Encoding → Value → Decoder Value)

/-- Read the fields of a message, each against the same field of the baseline. -/
def decodeFields (name : String) (bases : List (String × Value)) :
    List Ir.Field → Decoder (List (String × Value))
  | [] => pure []
  | f :: fs => do
    let value ← under (.field name f.name) (recur f.encoding (Value.fieldOf bases f.name))
    let rest ← decodeFields name bases fs
    return (f.name, value) :: rest

/-- The value of fields in the order they were read; of two with one name the later one counts. -/
def messageValue (fields : List (String × Value)) : Value :=
  .message (fields.foldr (fun f rest => if rest.any (·.1 == f.1) then rest else f :: rest) [])

def decodeMessage (m : Ir.Message) (bases : List (String × Value)) : Decoder Value := do
  if m.fields.any (·.absent) then fail .nullEntry
  return messageValue (← decodeFields recur m.name bases (sortedFields m))

def decodeEnum (d : Ir.Descriptor) : Decoder Value := do
  match schema.findEnum d with
  | .error .nullEntry => fail .nullEntry
  | .ok none => fail (.unknownEnum d)
  | .ok (some e) =>
    let index ← readWord e.discriminant.wire.bits
    match Ir.search (·.absent) (·.index.toUInt64 == index) e.variants with
    | .error .nullEntry => fail .nullEntry
    | .ok none => fail (.noVariantNumbered e.name index.toNat)
    | .ok (some variant) =>
      match variant.field with
      | none => return .enum variant.name .null
      | some f =>
        return .enum variant.name (← under (.variant variant.name) (recur f.encoding .null))

/-- Read a value without its padding, `recur` for the parts of it. -/
def decodeBody (enc : Encoding) (base : Value) : Decoder Value :=
  match enc.native.kind with
  | .bool => do
    let v ← readWord enc.wire.bits
    if 1 < v then fail (.badBool v)
    return .bool (v == 1)
  | .int => decodeNumber enc base
  | .float => decodeNumber enc base
  | .string => do
    let octets ← readOctets enc
    if !Octets.isUtf8 octets then fail .badText
    return .text octets
  | .bytes => .bytes <$> readOctets enc
  | .array =>
    match enc.native.element with
    | none => fail .incompleteType
    | some element => do
      let n ← readCount enc element
      .list <$> repeated (fun i => under (.item i) (recur element .null)) n
  | .map =>
    match enc.native.key with
    | none => fail .incompleteType
    | some key => do
      let n ← readCount enc key
      .map <$> repeated (fun i => do
        let k ← under (.key i) (recur key .null)
        match enc.native.value with
        | none => fail .incompleteType
        | some value => return (k, ← under (.value i) (recur value .null))) n
  | .message =>
    match enc.native.descriptor with
    | none => fail .incompleteType
    | some d =>
      match schema.findMessage d with
      | .error .nullEntry => fail .nullEntry
      | .ok none => fail (.unknownMessage d)
      | .ok (some m) => decodeMessage recur m (base.asFields?.getD [])
  | .enum =>
    match enc.native.descriptor with
    | none => fail .incompleteType
    | some d => decodeEnum schema recur d
  | .other kind => fail (.unknownNative kind)

/-- Read a value and its padding. -/
def decodeWith (enc : Encoding) (base : Value) : Decoder Value := do
  let value ← decodeBody schema recur enc base
  match enc.paddingBits with
  | some n => ofRead (BitReader.skipPadding n.toNat)
  | none => pure ()
  return value

end

/-- Read a value whose definitions are at most `fuel` deep. -/
def decodeValue (schema : Ir.Schema) : Nat → Encoding → Value → Decoder Value
  | 0 => fun _ _ => fail .endless
  | fuel + 1 => decodeWith schema (decodeValue schema fuel)

end BitSchema.Codec
