/-!
# Resolved schemas

What a compiler hands to code generators, and what the codec runs on: packages of messages and
enums in which every reference is a full name and every field says how it is encoded.

A schema may also be written by hand.  Then a kind can be a word of no meaning here, an encoding can
lack a part that its kind needs, and a list can be absent, which is not the same document as an
empty list.  The accessors without a question mark read an absent list as empty.

A list of such a schema can also hold a null in place of a definition.  It keeps its place, as a
definition that is `absent`, and a search that comes upon it fails.
-/

namespace BitSchema.Ir

/-- The full name of a message or enum: its package, the messages around it, and its own name. -/
structure Descriptor where
  package : String := ""
  path : List String := []
  name : String := ""
  deriving DecidableEq, Repr, Inhabited

/-- All parts joined by dots. -/
def Descriptor.text (d : Descriptor) : String :=
  ".".intercalate ([d.package] ++ d.path ++ [d.name])

inductive WireKind where
  | bits
  | lengthPrefixed
  | embedded
  | other (name : String)
  deriving DecidableEq, Repr

namespace WireKind

def name : WireKind → String
  | bits => "bits"
  | lengthPrefixed => "length_prefixed"
  | embedded => "embedded"
  | other name => name

def ofName (name : String) : WireKind :=
  ([bits, lengthPrefixed, embedded].find? (·.name == name)).getD (other name)

instance : Inhabited WireKind := ⟨other ""⟩

end WireKind

/-- How a value is laid out: in a number of bits, after a length of a number of bits, or by the
definition it refers to. -/
structure WireFormat where
  kind : WireKind := default
  bits : UInt32 := 0
  prefixBits : UInt32 := 0
  deriving DecidableEq, Repr, Inhabited

namespace WireFormat

def ofBits (count : UInt32) : WireFormat := { kind := .bits, bits := count }

def lengthPrefixed (count : UInt32) : WireFormat := { kind := .lengthPrefixed, prefixBits := count }

def embedded : WireFormat := { kind := .embedded }

def text (w : WireFormat) : String :=
  match w.kind with
  | .bits => s!"bits({w.bits.toNat})"
  | .lengthPrefixed => s!"length_prefixed({w.prefixBits.toNat})"
  | kind => kind.name

end WireFormat

inductive NativeKind where
  | bool
  | int
  | float
  | string
  | bytes
  | array
  | map
  | message
  | enum
  | other (name : String)
  deriving DecidableEq, Repr

namespace NativeKind

def name : NativeKind → String
  | bool => "bool"
  | int => "int"
  | float => "float"
  | string => "string"
  | bytes => "bytes"
  | array => "array"
  | map => "map"
  | message => "message"
  | enum => "enum"
  | other name => name

def ofName (name : String) : NativeKind :=
  ([bool, int, float, string, bytes, array, map, message, enum].find? (·.name == name)).getD
    (other name)

instance : Inhabited NativeKind := ⟨other ""⟩

end NativeKind

inductive TransformKind where
  | zigZag
  | delta
  | fixedPoint
  | other (name : String)
  deriving DecidableEq, Repr

namespace TransformKind

def name : TransformKind → String
  | zigZag => "zig_zag"
  | delta => "delta"
  | fixedPoint => "fixed_point"
  | other name => name

def ofName (name : String) : TransformKind :=
  ([zigZag, delta, fixedPoint].find? (·.name == name)).getD (other name)

instance : Inhabited TransformKind := ⟨other ""⟩

end TransformKind

/-- A step between the native value and the bits on the wire. -/
structure Transform where
  kind : TransformKind := default
  integerBits : UInt32 := 0
  fractionalBits : UInt32 := 0
  deriving DecidableEq, Repr, Inhabited

namespace Transform

def zigZag : Transform := { kind := .zigZag }

def delta : Transform := { kind := .delta }

def fixedPoint (integer fractional : UInt32) : Transform := ⟨.fixedPoint, integer, fractional⟩

def text (t : Transform) : String :=
  match t.kind with
  | .fixedPoint => s!"fixed_point({t.integerBits.toNat}, {t.fractionalBits.toNat})"
  | kind => kind.name

end Transform

mutual
/-- The type of a value in memory. -/
structure NativeType where
  kind : NativeKind := default
  bits : UInt32 := 0
  signed : Bool := false
  element : Option Encoding := none
  key : Option Encoding := none
  value : Option Encoding := none
  descriptor : Option Descriptor := none
/-- How a value of a type becomes bits. -/
structure Encoding where
  wire : WireFormat := {}
  native : NativeType
  transforms : List Transform := []
  paddingBits : Option UInt32 := none
end

instance : Inhabited NativeType := ⟨{}⟩

instance : Inhabited Encoding := ⟨{ native := {} }⟩

/-- What stands for a type in messages when a part of it is missing. -/
def incompleteText : String :=
  "%!s(PANIC=String method: runtime error: invalid memory address or nil pointer dereference)"

mutual
/-- A type as messages show it; `none` if an array or map lacks a part. -/
def NativeType.text? : NativeType → Option String
  | ⟨kind, bits, signed, element, key, value, descriptor⟩ =>
    match kind with
    | .int => some ((if signed then "i" else "u") ++ toString bits.toNat)
    | .float => some ("f" ++ toString bits.toNat)
    | .array => match element with
      | some e => e.nativeText?.map ("[]" ++ ·)
      | none => none
    | .map => match key, value with
      | some k, some v => some ("[" ++ k.nativeText?.getD incompleteText ++ "]" ++
          v.nativeText?.getD incompleteText)
      | _, _ => none
    | .message => some ("message " ++ ((descriptor.map Descriptor.text).getD "<nil>"))
    | .enum => some ("enum " ++ ((descriptor.map Descriptor.text).getD "<nil>"))
    | kind => some kind.name
/-- The native type of an encoding as messages show it. -/
def Encoding.nativeText? : Encoding → Option String
  | ⟨_, native, _, _⟩ => native.text?
end

/-- A type as messages show it. -/
def NativeType.text (n : NativeType) : String := n.text?.getD incompleteText

/-- An encoding on one line, for example `i16 as bits(12) | zig_zag + pad(3)`. -/
def Encoding.text (e : Encoding) : String :=
  match e.native.text? with
  | none => incompleteText
  | some native =>
    native ++ " as " ++ e.wire.text ++ String.join (e.transforms.map (" | " ++ ·.text)) ++
      match e.paddingBits with
      | some n => s!" + pad({n.toNat})"
      | none => ""

/-- A null stands where a definition was looked for. -/
inductive SearchFault where
  | nullEntry
  deriving DecidableEq, Repr

/-- What a search for a definition comes to. -/
abbrev Search (α : Type) : Type := Except SearchFault (Option α)

/-- The first entry that is wanted.  No entry before it may be absent. -/
def search {α : Type} (absent wanted : α → Bool) : List α → Search α
  | [] => .ok none
  | a :: as =>
    if absent a then .error .nullEntry
    else if wanted a then .ok (some a)
    else search absent wanted as

/-- Go on with what a search found, if it found something. -/
def Search.andThen {α β : Type} (found : Search α) (next : α → Search β) : Search β :=
  match found with
  | .error fault => .error fault
  | .ok none => .ok none
  | .ok (some a) => next a

structure Field where
  name : String := ""
  index : UInt32 := 0
  encoding : Encoding := default
  doc : String := ""
  absent : Bool := false
  deriving Inhabited

/-- One arm of an enum.  It carries a value exactly if it has a field; the kind only says so. -/
structure Variant where
  kind : String := ""
  name : String := ""
  index : UInt32 := 0
  field : Option Field := none
  doc : String := ""
  absent : Bool := false
  deriving Inhabited

namespace Variant

/-- The kind of a variant that carries nothing. -/
def unitKind : String := "unit"

/-- The kind of a variant that carries a value. -/
def fieldKind : String := "field"

end Variant

structure Enum where
  descriptor : Descriptor := {}
  name : String := ""
  discriminant : Encoding := default
  variants? : Option (List Variant) := none
  doc : String := ""
  absent : Bool := false
  deriving Inhabited

def Enum.variants (e : Enum) : List Variant := e.variants?.getD []

structure Message where
  descriptor : Descriptor := {}
  name : String := ""
  fields? : Option (List Field) := none
  messages : List Message := []
  enums : List Enum := []
  doc : String := ""
  absent : Bool := false
  deriving Inhabited

def Message.fields (m : Message) : List Field := m.fields?.getD []

structure Package where
  path : String := ""
  messages? : Option (List Message) := none
  enums? : Option (List Enum) := none
  absent : Bool := false
  deriving Inhabited

namespace Package

def messages (p : Package) : List Message := p.messages?.getD []

def enums (p : Package) : List Enum := p.enums?.getD []

end Package

structure Schema where
  packages? : Option (List Package) := none
  deriving Inhabited

namespace Schema

def packages (s : Schema) : List Package := s.packages?.getD []

/-- The package with a dotted path. -/
def findPackage (s : Schema) (path : String) : Search Package :=
  search (·.absent) (·.path == path) s.packages

/-- The message that a chain of names leads to: the first of that name at each level. -/
def findMessageAt (messages : List Message) : List String → Search Message
  | [] => .ok none
  | [name] => search (·.absent) (·.name == name) messages
  | name :: rest =>
    Search.andThen (search (·.absent) (·.name == name) messages) fun outer =>
      findMessageAt outer.messages rest

/-- The message of a full name. -/
def findMessage (s : Schema) (d : Descriptor) : Search Message :=
  Search.andThen (s.findPackage d.package) fun package =>
    findMessageAt package.messages (d.path ++ [d.name])

/-- The enums that stand beside the last part of a full name. -/
def enumsAt (package : Package) (path : List String) : Search (List Enum) :=
  match path with
  | [] => .ok (some package.enums)
  | path => Search.andThen (findMessageAt package.messages path) fun m => .ok (some m.enums)

/-- The enum of a full name. -/
def findEnum (s : Schema) (d : Descriptor) : Search Enum :=
  Search.andThen (s.findPackage d.package) fun package =>
    Search.andThen (enumsAt package d.path) (search (·.absent) (·.name == d.name))

def package? (s : Schema) (path : String) : Option Package := (s.findPackage path).toOption.join

def message? (s : Schema) (d : Descriptor) : Option Message := (s.findMessage d).toOption.join

def enum? (s : Schema) (d : Descriptor) : Option Enum := (s.findEnum d).toOption.join

mutual
/-- The number of messages and enums in a message, itself among them. -/
def definitionsIn : Message → Nat
  | ⟨_, _, _, messages, enums, _, _⟩ => 1 + definitionsInAll messages + enums.length
def definitionsInAll : List Message → Nat
  | [] => 0
  | m :: ms => definitionsIn m + definitionsInAll ms
end

/-- The number of messages and enums. -/
def definitionCount (s : Schema) : Nat :=
  s.packages.foldr (fun p n => definitionsInAll p.messages + p.enums.length + n) 0

end Schema

/-! ## Wholeness -/

/-- No part of the definition is absent. -/
def Enum.isWhole (e : Enum) : Bool := !e.absent && e.variants.all (!·.absent)

mutual
def Message.isWhole : Message → Bool
  | ⟨_, _, fields, messages, enums, _, absent⟩ =>
    !absent && (fields.getD []).all (!·.absent) && messagesAreWhole messages &&
      enums.all Enum.isWhole
def messagesAreWhole : List Message → Bool
  | [] => true
  | m :: ms => m.isWhole && messagesAreWhole ms
end

def Package.isWhole (p : Package) : Bool :=
  !p.absent && p.messages.all Message.isWhole && p.enums.all Enum.isWhole

/-- No list of the schema holds an absent definition. -/
def Schema.isWhole (s : Schema) : Bool := s.packages.all Package.isWhole

end BitSchema.Ir
