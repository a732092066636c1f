import BitSchema.Number.Shortest
import BitSchema.Text.Octets

/-!
# Dynamic values

The values that the codec takes and gives.  A value knows its own type, and the codec decides which
of them it accepts for an encoding.
-/

namespace BitSchema.Codec

/-- The integer types. -/
inductive IntType where
  | int
  | int8
  | int16
  | int32
  | int64
  | uint
  | uint8
  | uint16
  | uint32
  | uint64
  deriving DecidableEq, Repr, Inhabited

namespace IntType

def name : IntType → String
  | int => "int"
  | int8 => "int8"
  | int16 => "int16"
  | int32 => "int32"
  | int64 => "int64"
  | uint => "uint"
  | uint8 => "uint8"
  | uint16 => "uint16"
  | uint32 => "uint32"
  | uint64 => "uint64"

def all : List IntType :=
  [int, int8, int16, int32, int64, uint, uint8, uint16, uint32, uint64]

end IntType

/-- A dynamic value.  Floating-point numbers are their bit patterns; a text may be any octets. -/
inductive Value where
  | null
  | bool (b : Bool)
  | int (type : IntType) (n : Int)
  | double (bits : UInt64)
  | single (bits : UInt32)
  | text (octets : Octets)
  | bytes (octets : List UInt8)
  | list (items : List Value)
  | map (entries : List (Value × Value))
  | enum (variant : String) (payload : Value)
  /-- A message by its field names. -/
  | message (fields : List (String × Value))
  /-- A plain object, which is taken for a message. -/
  | object (fields : List (String × Value))
  deriving Repr, Inhabited

namespace Value

def isNull : Value → Bool
  | null => true
  | _ => false

/-- The name of a value's type in messages. -/
def typeName : Value → String
  | null => "<nil>"
  | bool _ => "bool"
  | int type _ => type.name
  | double _ => "float64"
  | single _ => "float32"
  | text _ => "string"
  | bytes _ => "[]uint8"
  | list _ => "[]interface \x7b\x7d"
  | map _ => "[]wire.MapEntry"
  | enum _ _ => "wire.EnumValue"
  | message _ => "wire.Message"
  | object _ => "map[string]interface \x7b\x7d"

/-- Parts with blanks between them, inside brackets. -/
def bracketed (parts : List Octets) : Octets :=
  Octets.ofString "[" ++ (Octets.ofString " ").intercalate parts ++ Octets.ofString "]"

/-- Two parts inside braces. -/
def braced (first second : Octets) : Octets :=
  Octets.ofString "\x7b" ++ first ++ Octets.ofString " " ++ second ++ Octets.ofString "\x7d"

/-- Fields in the order of their names. -/
def renderRecord (fields : List (String × Octets)) : Octets :=
  Octets.ofString "map" ++ bracketed ((fields.mergeSort fun a b => a.1 ≤ b.1).map fun f =>
    Octets.ofString (f.1 ++ ":") ++ f.2)

mutual
/-- A value in messages. -/
def render : Value → Octets
  | null => Octets.ofString "<nil>"
  | bool b => Octets.ofString (if b then "true" else "false")
  | int _ n => Octets.ofString (toString n)
  | double bits => Octets.ofString (FloatFormat.double.render bits.toNat)
  | single bits => Octets.ofString (FloatFormat.single.render bits.toNat)
  | text octets => octets
  | bytes octets => bracketed (octets.map fun b => Octets.ofString (toString b.toNat))
  | list items => bracketed (renderItems items)
  | map entries => bracketed (renderEntries entries)
  | enum variant payload => braced (Octets.ofString variant) (render payload)
  | message fields => renderRecord (renderFields fields)
  | object fields => renderRecord (renderFields fields)
def renderItems : List Value → List Octets
  | [] => []
  | v :: vs => render v :: renderItems vs
def renderEntries : List (Value × Value) → List Octets
  | [] => []
  | (key, value) :: es => braced (render key) (render value) :: renderEntries es
def renderFields : List (String × Value) → List (String × Octets)
  | [] => []
  | (name, value) :: fs => (name, render value) :: renderFields fs
end

mutual
/-- How many values lie inside each other. -/
def depth : Value → Nat
  | list items => depthItems items + 1
  | map entries => depthEntries entries + 1
  | enum _ payload => payload.depth + 1
  | message fields => depthFields fields + 1
  | object fields => depthFields fields + 1
  | _ => 1
def depthItems : List Value → Nat
  | [] => 0
  | v :: vs => max v.depth (depthItems vs)
def depthEntries : List (Value × Value) → Nat
  | [] => 0
  | (key, value) :: es => max (max key.depth value.depth) (depthEntries es)
def depthFields : List (String × Value) → Nat
  | [] => 0
  | (_, value) :: fs => max value.depth (depthFields fs)
end

/-- The field of a name, null if there is none. -/
def fieldOf (fields : List (String × Value)) (name : String) : Value :=
  ((fields.find? (·.1 == name)).map Prod.snd).getD null

/-- The fields of a value that is taken for a message; null has none. -/
def asFields? : Value → Option (List (String × Value))
  | null => some []
  | message fields => some fields
  | object fields => some fields
  | _ => none

/-- The value as a signed word, if it is an integer of one. -/
def toInt64? : Value → Option Int64
  | null => some 0
  | int _ n => if -(Nat.pow 2 63 : Int) ≤ n ∧ n < Nat.pow 2 63 then some (Int64.ofInt n) else none
  | _ => none

/-- The value as an unsigned word. -/
def toUInt64? : Value → Option UInt64
  | null => some 0
  | int _ n => if 0 ≤ n ∧ n < Nat.pow 2 64 then some (UInt64.ofNat n.toNat) else none
  | _ => none

/-- The value as a floating-point pattern; an integer as the nearest one. -/
def toDouble? : Value → Option UInt64
  | double bits => some bits
  | single bits => some (UInt64.ofNat (FloatFormat.single.convert FloatFormat.double bits.toNat))
  | v => v.toInt64?.map fun n => UInt64.ofNat (FloatFormat.double.ofInt n.toInt)

end Value

end BitSchema.Codec
