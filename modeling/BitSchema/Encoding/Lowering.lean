import BitSchema.Encoding.Directive
import BitSchema.Index.Assignment
import BitSchema.Symbol.Registration

/-!
# Lowering

Builds the resolved schema of files whose declarations have been registered and checked.  Packages
come in the order of their paths, declarations in the order of the files and then of the source.
-/

namespace BitSchema

open Source (Schema Item Member Scalar TypeExpr)

/-- The native type of a built-in type. -/
def Source.Scalar.native : Scalar → Ir.NativeType
  | bool => { kind := .bool }
  | u8 => { kind := .int, bits := 8 }
  | u16 => { kind := .int, bits := 16 }
  | u32 => { kind := .int, bits := 32 }
  | u64 => { kind := .int, bits := 64 }
  | i8 => { kind := .int, bits := 8, signed := true }
  | i16 => { kind := .int, bits := 16, signed := true }
  | i32 => { kind := .int, bits := 32, signed := true }
  | i64 => { kind := .int, bits := 64, signed := true }
  | f32 => { kind := .float, bits := 32 }
  | f64 => { kind := .float, bits := 64 }
  | string => { kind := .string }
  | bytes => { kind := .bytes }

/-- The encoding of a built-in type without directives. -/
def Source.Scalar.encoding (s : Scalar) : Ir.Encoding :=
  let wire := match s with
    | bool => Ir.WireFormat.ofBits 1
    | string => .lengthPrefixed defaultPrefixBits
    | bytes => .lengthPrefixed defaultPrefixBits
    | s => .ofBits s.native.bits
  { wire, native := s.native }

namespace Lowering

/-- Why a type has no encoding. -/
inductive TypeError where
  | name (cause : NameError)
  | reference (cause : ResolveError)

/-- The encoding of a reference. -/
def referenceEncoding (table : SymbolTable) (scope : Descriptor) (absolute : Bool)
    (path : List Source.Ident) (name : Source.Ident) : Except TypeError Ir.Encoding := do
  let r ← (Reference.ofParts absolute (path.map (·.value)) name.value).mapError .name
  let s ← (table.resolveType scope r).mapError .reference
  let kind := if s.kind = .enum then Ir.NativeKind.enum else .message
  return { wire := .embedded, native := { kind, descriptor := some s.descriptor.toIr } }

/-- The encoding of a type without directives. -/
def typeEncoding (table : SymbolTable) (scope : Descriptor) :
    TypeExpr → Except TypeError Ir.Encoding
  | .scalar _ s => .ok s.encoding
  | .named _ absolute path name => referenceEncoding table scope absolute path name
  | .array _ element => do
    let element ← typeEncoding table scope element
    return { wire := .lengthPrefixed defaultPrefixBits,
             native := { kind := .array, element := some element } }
  | .map _ key value => do
    let key ← typeEncoding table scope key
    let value ← typeEncoding table scope value
    return { wire := .lengthPrefixed defaultPrefixBits,
             native := { kind := .map, key := some key, value := some value } }

/-- The encoding of a field: its directives are applied in order, and malformed ones are passed
over.  A message or enum takes none. -/
def fieldEncoding (table : SymbolTable) (scope : Descriptor) (f : Source.Field) :
    Except TypeError Ir.Encoding := do
  let enc ← typeEncoding table scope f.type
  if enc.wire.kind = .embedded then return enc
  return (f.directives.filterMap fun d => (Directive.ofSource d).toOption).foldl Directive.apply enc

/-- The encoding of a field or variant of a type, with its name in errors. -/
def memberEncoding (table : SymbolTable) (what : String) (owner : Descriptor) (member : String)
    (f : Source.Field) : Except LowerError Ir.Encoding :=
  match fieldEncoding table owner.scope f with
  | .ok enc => .ok enc
  | .error (.name cause) => .error (.name what owner member cause)
  | .error (.reference cause) => .error (.reference what owner member cause)

def variant (table : SymbolTable) (owner : Descriptor) (v : Source.Variant) (index : UInt32) :
    Except LowerError Ir.Variant :=
  let doc := v.doc.getD ""
  match v.content with
  | .unit name => .ok { kind := Ir.Variant.unitKind, name := name.value, index, doc }
  | .typed f => do
    let encoding ← memberEncoding table "variant" owner f.name.value f
    let field : Ir.Field := { name := f.name.value, index, encoding, doc := f.doc.getD "" }
    return { kind := Ir.Variant.fieldKind, name := f.name.value, index, field := some field, doc }

/-- The discriminant of variants with these indices. -/
def discriminant (indices : List UInt32) : Ir.Encoding :=
  let largest := (indices.map UInt32.toNat).foldl max (max indices.length 2 - 1)
  let width := UInt32.ofNat (discriminantWidth largest)
  { wire := .ofBits width, native := { kind := .int, bits := width } }

def enum (table : SymbolTable) (scope : Descriptor) (e : Source.Enum) :
    Except LowerError Ir.Enum := do
  let d := scope.child e.name.value
  let indices := assignIndices (e.variants.map fun v => v.index.map (·.value))
  let variants ← (e.variants.zip indices).mapM fun (v, index) => variant table d v index
  return { descriptor := d.toIr, name := d.name, discriminant := discriminant indices,
           variants? := some variants, doc := e.doc.getD "" }

/-- The members of a message, sorted into fields, messages and enums. -/
structure Members where
  fields : List Ir.Field := []
  messages : List Ir.Message := []
  enums : List Ir.Enum := []

def fieldIndices (members : List Member) : List UInt32 :=
  assignIndices ((members.filterMap Member.field?).map fun f => f.index.map (·.value))

mutual
def message (table : SymbolTable) (scope : Descriptor) :
    Source.Message → Except LowerError Ir.Message
  | ⟨_, doc, name, members⟩ => do
    let d := scope.child name.value
    let lowered ← lowerMembers table d (fieldIndices members) members
    return { descriptor := d.toIr, name := d.name, fields? := some lowered.fields,
             messages := lowered.messages, enums := lowered.enums, doc := doc.getD "" }
/-- Members in order; the indices are those of the fields among them. -/
def lowerMembers (table : SymbolTable) (owner : Descriptor) :
    List UInt32 → List Member → Except LowerError Members
  | _, [] => .ok {}
  | indices, .field f :: ms => do
    let encoding ← memberEncoding table "field" owner f.name.value f
    let first : Ir.Field :=
      { name := f.name.value, index := indices.head?.getD 0, encoding, doc := f.doc.getD "" }
    let rest ← lowerMembers table owner indices.tail ms
    return { rest with fields := first :: rest.fields }
  | indices, .message m :: ms => do
    let first ← message table owner.scope m
    let rest ← lowerMembers table owner indices ms
    return { rest with messages := first :: rest.messages }
  | indices, .enum e :: ms => do
    let first ← enum table owner.scope e
    let rest ← lowerMembers table owner indices ms
    return { rest with enums := first :: rest.enums }
end

/-- The messages and enums at the top of a file. -/
def items (table : SymbolTable) (scope : Descriptor) : List Item → Except LowerError Members
  | [] => .ok {}
  | .message m :: is => do
    let first ← message table scope m
    let rest ← items table scope is
    return { rest with messages := first :: rest.messages }
  | .enum e :: is => do
    let first ← enum table scope e
    let rest ← items table scope is
    return { rest with enums := first :: rest.enums }
  | _ :: is => items table scope is

/-- Put what a file declares into its package, which is new if no earlier file had it. -/
def merge (packages : List Ir.Package) (path : String) (ms : Members) : List Ir.Package :=
  if packages.any (·.path == path) then
    packages.map fun p =>
      if p.path == path then
        { p with messages? := some (p.messages ++ ms.messages),
                 enums? := some (p.enums ++ ms.enums) }
      else p
  else packages ++ [{ path, messages? := some ms.messages, enums? := some ms.enums }]

/-- The packages of files in order. -/
def packages (table : SymbolTable) (done : List Ir.Package) :
    List Schema → Except LowerError (List Ir.Package)
  | [] => .ok done
  | file :: files =>
    match filePackage? file with
    | none => .error (.noPackage file.span.file)
    | some p => do
      let ms ← items table (Descriptor.ofPackage p) file.items
      packages table (merge done p.text ms) files

end Lowering

/-- The resolved schema of files. -/
def lower (table : SymbolTable) (files : List Schema) : Except LowerError Ir.Schema := do
  let packages ← Lowering.packages table [] files
  return ⟨some (packages.mergeSort fun a b => a.path ≤ b.path)⟩

end BitSchema
