import BitSchema.Ir.Schema
import BitSchema.Json.Fault
import BitSchema.Json.Reading

/-!
# Schema documents

A resolved schema as a JSON document, which is what plugins receive.  Parts that are zero or empty
are left out where leaving them out means the same.
-/

namespace BitSchema.Ir

open Json (Reading)

/-! ## Writing -/

/-- A member that is left out if it is not there. -/
def memberIf (name : String) (present : Bool) (value : Json) : List (String × Json) :=
  if present then [(name, value)] else []

def textMember (name s : String) : List (String × Json) := memberIf name (s != "") (.string s)

def numberMember (name : String) (n : UInt32) : List (String × Json) :=
  memberIf name (n != 0) (.nat n.toNat)

def listMember (name : String) (js : List Json) : List (String × Json) :=
  memberIf name (!js.isEmpty) (.array js)

/-- A list that is written as null if it is absent. -/
def listOrNull (js : Option (List Json)) : Json :=
  match js with
  | some js => .array js
  | none => .null

def Descriptor.toJson (d : Descriptor) : Json :=
  .object <| [("package", .string d.package)] ++ listMember "path" (d.path.map .string) ++
    [("name", .string d.name)]

def WireFormat.toJson (w : WireFormat) : Json :=
  .object <| [("kind", .string w.kind.name)] ++ numberMember "bits" w.bits ++
    numberMember "prefix_bits" w.prefixBits

def Transform.toJson (t : Transform) : Json :=
  .object <| [("kind", .string t.kind.name)] ++ numberMember "integer_bits" t.integerBits ++
    numberMember "fractional_bits" t.fractionalBits

mutual
def NativeType.toJson : NativeType → Json
  | ⟨kind, bits, signed, element, key, value, descriptor⟩ =>
    .object <| [("kind", .string kind.name)] ++ numberMember "bits" bits ++
      memberIf "signed" signed (.bool signed) ++ partMember "element" element ++
      partMember "key" key ++ partMember "value" value ++
      match descriptor with
      | some d => [("descriptor", d.toJson)]
      | none => []
def Encoding.toJson : Encoding → Json
  | ⟨wire, native, transforms, paddingBits⟩ =>
    .object <| [("wire", wire.toJson), ("native", native.toJson)] ++
      listMember "transforms" (transforms.map Transform.toJson) ++
      match paddingBits with
      | some n => [("padding_bits", .nat n.toNat)]
      | none => []
def partMember (name : String) : Option Encoding → List (String × Json)
  | some e => [(name, e.toJson)]
  | none => []
end

def Field.toJson (f : Field) : Json :=
  .object <| [("name", .string f.name), ("index", .nat f.index.toNat),
    ("encoding", f.encoding.toJson)] ++ textMember "doc" f.doc

def Variant.toJson (v : Variant) : Json :=
  .object <| [("kind", .string v.kind), ("name", .string v.name), ("index", .nat v.index.toNat)] ++
    (match v.field with
      | some f => [("field", f.toJson)]
      | none => []) ++ textMember "doc" v.doc

def Enum.toJson (e : Enum) : Json :=
  .object <| [("descriptor", e.descriptor.toJson), ("name", .string e.name),
    ("discriminant", e.discriminant.toJson),
    ("variants", listOrNull (e.variants?.map (·.map Variant.toJson)))] ++ textMember "doc" e.doc

mutual
def Message.toJson : Message → Json
  | ⟨descriptor, name, fields, messages, enums, doc, _⟩ =>
    .object <| [("descriptor", descriptor.toJson), ("name", .string name),
      ("fields", listOrNull (fields.map (·.map Field.toJson)))] ++
      listMember "messages" (messagesToJson messages) ++
      listMember "enums" (enums.map Enum.toJson) ++ textMember "doc" doc
def messagesToJson : List Message → List Json
  | [] => []
  | m :: ms => m.toJson :: messagesToJson ms
end

def Package.toJson (p : Package) : Json :=
  .object [("path", .string p.path),
    ("messages", listOrNull (p.messages?.map (·.map Message.toJson))),
    ("enums", listOrNull (p.enums?.map (·.map Enum.toJson)))]

def Schema.toJson (s : Schema) : Json :=
  .object [("packages", listOrNull (s.packages?.map (·.map Package.toJson)))]

/-- The document of a schema. -/
def Schema.document (s : Schema) : String := s.toJson.pretty

/-- Write the document of a schema, unless it is too deep. -/
def Schema.encode (s : Schema) : Except Json.Fault String :=
  match s.toJson.excess? Json.depthLimit with
  | some bracket => .error (.wrong (UInt8.ofNat bracket.toNat) .depth)
  | none => .ok s.document

/-! ## Reading -/

/-- A kind is read as its name. -/
def kindReading {α : Type} (ofName : String → α) : Reading α :=
  fun js => ofName <$> Reading.string js

def Descriptor.read : Reading Descriptor := fun js => do
  let given ← Reading.record ["package", "path", "name"] js
  return {
    package := ← Reading.string (given "package")
    path := ← Reading.list Reading.string (given "path")
    name := ← Reading.string (given "name") }

def WireFormat.read : Reading WireFormat := fun js => do
  let given ← Reading.record ["kind", "bits", "prefix_bits"] js
  return {
    kind := ← kindReading WireKind.ofName (given "kind")
    bits := ← Reading.uint32 (given "bits")
    prefixBits := ← Reading.uint32 (given "prefix_bits") }

def Transform.read : Reading Transform := fun js => do
  let given ← Reading.record ["kind", "integer_bits", "fractional_bits"] js
  return {
    kind := ← kindReading TransformKind.ofName (given "kind")
    integerBits := ← Reading.uint32 (given "integer_bits")
    fractionalBits := ← Reading.uint32 (given "fractional_bits") }

/-- What is left where a document is deeper than it can be: nothing may be given there. -/
def readNothing {α : Type} [Inhabited α] : Reading α :=
  fun js => if js.isEmpty then some default else none

mutual
/-- A type from a document of at most this depth. -/
def NativeType.read : Nat → Reading NativeType
  | 0 => readNothing
  | fuel + 1 => fun js => do
    let given ← Reading.record
      ["kind", "bits", "signed", "element", "key", "value", "descriptor"] js
    return {
      kind := ← kindReading NativeKind.ofName (given "kind")
      bits := ← Reading.uint32 (given "bits")
      signed := ← Reading.bool (given "signed")
      element := ← Reading.optional (Encoding.read fuel) (given "element")
      key := ← Reading.optional (Encoding.read fuel) (given "key")
      value := ← Reading.optional (Encoding.read fuel) (given "value")
      descriptor := ← Reading.optional Descriptor.read (given "descriptor") }
/-- An encoding from a document of at most this depth. -/
def Encoding.read : Nat → Reading Encoding
  | 0 => readNothing
  | fuel + 1 => fun js => do
    let given ← Reading.record ["wire", "native", "transforms", "padding_bits"] js
    return {
      wire := ← WireFormat.read (given "wire")
      native := ← NativeType.read fuel (given "native")
      transforms := ← Reading.list Transform.read (given "transforms")
      paddingBits := ← Reading.optional Reading.uint32 (given "padding_bits") }
end

def Field.read (fuel : Nat) : Reading Field := fun js => do
  let given ← Reading.record ["name", "index", "encoding", "doc"] js
  return {
    name := ← Reading.string (given "name")
    index := ← Reading.uint32 (given "index")
    encoding := ← Encoding.read fuel (given "encoding")
    doc := ← Reading.string (given "doc") }

def Variant.read (fuel : Nat) : Reading Variant := fun js => do
  let given ← Reading.record ["kind", "name", "index", "field", "doc"] js
  return {
    kind := ← Reading.string (given "kind")
    name := ← Reading.string (given "name")
    index := ← Reading.uint32 (given "index")
    field := ← Reading.optional (Field.read fuel) (given "field")
    doc := ← Reading.string (given "doc") }

def Enum.read (fuel : Nat) : Reading Enum := fun js => do
  let given ← Reading.record ["descriptor", "name", "discriminant", "variants", "doc"] js
  return {
    descriptor := ← Descriptor.read (given "descriptor")
    name := ← Reading.string (given "name")
    discriminant := ← Encoding.read fuel (given "discriminant")
    variants? := ← Reading.listing
      (Reading.entry { absent := true } (Variant.read fuel)) (given "variants")
    doc := ← Reading.string (given "doc") }

/-- A message from a document of at most this depth. -/
def Message.read : Nat → Reading Message
  | 0 => readNothing
  | fuel + 1 => fun js => do
    let given ← Reading.record ["descriptor", "name", "fields", "messages", "enums", "doc"] js
    return {
      descriptor := ← Descriptor.read (given "descriptor")
      name := ← Reading.string (given "name")
      fields? := ← Reading.listing
        (Reading.entry { absent := true } (Field.read fuel)) (given "fields")
      messages := ← Reading.list
        (Reading.entry { absent := true } (Message.read fuel)) (given "messages")
      enums := ← Reading.list (Reading.entry { absent := true } (Enum.read fuel)) (given "enums")
      doc := ← Reading.string (given "doc") }

def Package.read (fuel : Nat) : Reading Package := fun js => do
  let given ← Reading.record ["path", "messages", "enums"] js
  return {
    path := ← Reading.string (given "path")
    messages? := ← Reading.listing
      (Reading.entry { absent := true } (Message.read fuel)) (given "messages")
    enums? := ← Reading.listing
      (Reading.entry { absent := true } (Enum.read fuel)) (given "enums") }

def Schema.read (fuel : Nat) : Reading Schema := fun js => do
  let given ← Reading.record ["packages"] js
  return {
    packages? := ← Reading.listing
      (Reading.entry { absent := true } (Package.read fuel)) (given "packages") }

/-- The schema of a value.  Nulls in its lists become absent definitions. -/
def Schema.ofJson? (j : Json) : Option Schema := Schema.read j.depth [j]

/-- The schema of the first value in a text. -/
def Schema.ofDocument? (text : Octets) : Option Schema := do
  let (j, _) ← Json.parse? text
  Schema.ofJson? j

end BitSchema.Ir
