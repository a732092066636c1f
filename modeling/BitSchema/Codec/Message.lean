import BitSchema.Codec.Decode

/-!
# Messages on the wire

Whole messages: written to and read from a stream of bits, against a baseline, or packed into bytes
of their own.

A definition can contain itself, so the depth of the work is bounded by what feeds it.  Between two
steps into a value, or two bits of data, only as many definitions can be entered as there are.
-/

namespace BitSchema.Codec

/-- Fields by their names. -/
abbrev Fields : Type := List (String × Value)

/-- The fuel that a message value needs. -/
def encodeFuel (schema : Ir.Schema) (values : Fields) : Nat :=
  ((Value.message values).depth + 1) * (schema.definitionCount + 2)

/-- The fuel that this much data can use. -/
def decodeFuel (schema : Ir.Schema) (bits : Nat) : Nat := (bits + 1) * (schema.definitionCount + 2)

/-- Write a message.  Deltas are taken against the baseline's fields. -/
def encode (schema : Ir.Schema) (d : Ir.Descriptor) (values bases : Fields) : Encoder :=
  match schema.findMessage d with
  | .error .nullEntry => Encoder.fail .nullEntry
  | .ok none => Encoder.fail (.unknownMessage d)
  | .ok (some m) => encodeMessage (encodeValue schema (encodeFuel schema values)) m values bases

/-- Read a message. -/
def decode (schema : Ir.Schema) (d : Ir.Descriptor) (bases : Fields) : Decoder Value := do
  match schema.findMessage d with
  | .error .nullEntry => Decoder.fail .nullEntry
  | .ok none => Decoder.fail (.unknownMessage d)
  | .ok (some m) =>
    let r ← get
    decodeMessage (decodeValue schema (decodeFuel schema r.remaining)) m bases

/-- A message as bytes, the last one filled up with zeros. -/
def marshal (schema : Ir.Schema) (d : Ir.Descriptor) (values : Fields) :
    Except Fault (Array UInt8) :=
  match (encode schema d values []).run BitWriter.empty with
  | (.error fault, _) => .error fault
  | (.ok (), w) => .ok w.align.toBytes

/-- Read a message and the zeros that fill its last byte. -/
def whole (schema : Ir.Schema) (d : Ir.Descriptor) : Decoder Value := do
  let value ← decode schema d []
  let r ← get
  if 8 ≤ r.remaining then Decoder.fail (.trailingBits r.remaining)
  Decoder.ofRead (BitReader.skipPadding r.remaining)
  return value

/-- The message that bytes stand for. -/
def unmarshal (schema : Ir.Schema) (d : Ir.Descriptor) (data : Array UInt8) :
    Except Fault Value :=
  ((whole schema d).run ⟨data, 0⟩).1

end BitSchema.Codec
