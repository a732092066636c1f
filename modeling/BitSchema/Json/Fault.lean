import BitSchema.Json.Parse
import BitSchema.Text.Quoted

/-!
# What is wrong with a text that should be JSON

`Json.fault?` reads the first value of a text octet by octet, and tells the first octet that cannot
stand where it does.  Nothing after the value is read.
-/

namespace BitSchema.Json

/-- Where an octet is not what it should be. -/
inductive Place where
  | value
  | key
  | afterKey
  | afterMember
  | afterElement
  | string
  | escape
  | escapeDigits
  | number
  | fraction
  | exponent
  | word (name : String) (expected : Char)
  /-- Inside more arrays and objects than are taken. -/
  | depth
  deriving DecidableEq, Repr

def Place.text : Place → String
  | value => "looking for beginning of value"
  | key => "looking for beginning of object key string"
  | afterKey => "after object key"
  | afterMember => "after object key:value pair"
  | afterElement => "after array element"
  | string => "in string literal"
  | escape => "in string escape code"
  | escapeDigits => "in \\u hexadecimal character escape"
  | number => "in numeric literal"
  | fraction => "after decimal point in numeric literal"
  | exponent => "in exponent of numeric literal"
  | word name expected => s!"in literal {name} (expecting '" ++ expected.toString ++ "')"
  | depth => "exceeded max depth"

/-- Why a text has no first value. -/
inductive Fault where
  | blank
  | cutOff
  | wrong (octet : UInt8) (place : Place)
  deriving DecidableEq, Repr

def Fault.message : Fault → String
  | blank => "EOF"
  | cutOff => "unexpected EOF"
  | wrong octet place =>
    "invalid character " ++ Quoted.quoteLone (Char.ofNat octet.toNat) ++ " " ++ place.text

/-- What is open around the place that is read: an object up to a colon, an object up to the end of
a member, or an array. -/
inductive Frame where
  | key
  | member
  | element
  deriving DecidableEq, Repr

/-- What is read next. -/
inductive Expectation where
  | value
  | elementOrEnd
  | keyOrEnd
  | key
  | afterValue
  | string
  | escape
  | escapeDigits (count : Nat)
  | minus
  | zero
  | digits
  | point
  | fraction
  | exponent
  | exponentSign
  | exponentDigits
  | word (name : String) (rest : List Char)
  deriving DecidableEq, Repr

/-- What an octet leads to: more of the value, its end, or a fault. -/
inductive Progress where
  | more (next : Expectation) (frames : List Frame)
  | done
  | stuck (place : Place)

/-- Open an array or an object. -/
def opened (frame : Frame) (next : Expectation) (frames : List Frame) : Progress :=
  if frames.length < depthLimit then .more next (frame :: frames) else .stuck .depth

/-- A value has ended with the last octet, in these frames. -/
def closed (frames : List Frame) : Progress :=
  if frames.isEmpty then .done else .more .afterValue frames

/-- The octet after a value. -/
def afterValue (frames : List Frame) (c : Char) : Progress :=
  match frames with
  | [] => .done
  | .key :: outer => if c = ':' then .more .value (.member :: outer) else .stuck .afterKey
  | .member :: outer =>
    if c = ',' then .more .key (.key :: outer)
    else if c = '\x7d' then closed outer
    else .stuck .afterMember
  | .element :: outer =>
    if c = ',' then .more .value frames
    else if c = ']' then closed outer
    else .stuck .afterElement

/-- An octet after a value; blanks may come first. -/
def afterValueOrBlank (frames : List Frame) (c : Char) : Progress :=
  if isBlank c then closed frames else afterValue frames c

def startValue (frames : List Frame) (c : Char) : Progress :=
  if c = '\x7b' then opened .key .keyOrEnd frames
  else if c = '[' then opened .element .elementOrEnd frames
  else if c = '"' then .more .string frames
  else if c = '-' then .more .minus frames
  else if c = '0' then .more .zero frames
  else if isDigit c then .more .digits frames
  else if c = 't' then .more (.word "true" "rue".toList) frames
  else if c = 'f' then .more (.word "false" "alse".toList) frames
  else if c = 'n' then .more (.word "null" "ull".toList) frames
  else .stuck .value

/-- What follows the whole part of a number. -/
def afterWhole (frames : List Frame) (c : Char) : Progress :=
  if c = '.' then .more .point frames
  else if c = 'e' ∨ c = 'E' then .more .exponent frames
  else afterValueOrBlank frames c

/-- One octet, which is shown as a character. -/
def progress (e : Expectation) (frames : List Frame) (c : Char) : Progress :=
  match e with
  | .value => if isBlank c then .more e frames else startValue frames c
  | .elementOrEnd =>
    if isBlank c then .more e frames
    else if c = ']' then closed frames.tail
    else startValue frames c
  | .keyOrEnd =>
    if isBlank c then .more e frames
    else if c = '\x7d' then closed frames.tail
    else if c = '"' then .more .string frames
    else .stuck .key
  | .key =>
    if isBlank c then .more e frames else if c = '"' then .more .string frames else .stuck .key
  | .afterValue => afterValueOrBlank frames c
  | .string =>
    if c = '"' then .more .afterValue frames
    else if c = '\\' then .more .escape frames
    else if c.toNat < 0x20 then .stuck .string
    else .more e frames
  | .escape =>
    if "bfnrt\\/\"".toList.contains c then .more .string frames
    else if c = 'u' then .more (.escapeDigits 4) frames
    else .stuck .escape
  | .escapeDigits count =>
    if (hexValue? c).isNone then .stuck .escapeDigits
    else if count ≤ 1 then .more .string frames
    else .more (.escapeDigits (count - 1)) frames
  | .minus =>
    if c = '0' then .more .zero frames
    else if isDigit c then .more .digits frames
    else .stuck .number
  | .zero => afterWhole frames c
  | .digits => if isDigit c then .more e frames else afterWhole frames c
  | .point => if isDigit c then .more .fraction frames else .stuck .fraction
  | .fraction =>
    if isDigit c then .more e frames
    else if c = 'e' ∨ c = 'E' then .more .exponent frames
    else afterValueOrBlank frames c
  | .exponent =>
    if c = '+' ∨ c = '-' then .more .exponentSign frames
    else if isDigit c then .more .exponentDigits frames
    else .stuck .exponent
  | .exponentSign => if isDigit c then .more .exponentDigits frames else .stuck .exponent
  | .exponentDigits => if isDigit c then .more e frames else afterValueOrBlank frames c
  | .word name rest =>
    match rest with
    | [] => afterValueOrBlank frames c
    | [d] => if c = d then .more .afterValue frames else .stuck (.word name d)
    | d :: more => if c = d then .more (.word name more) frames else .stuck (.word name d)

/-- The first fault from a place on. -/
def faultFrom : Expectation → List Frame → Octets → Option Fault
  | e, frames, [] =>
    match progress e frames ' ' with
    | .done => none
    | _ => some .cutOff
  | e, frames, b :: bs =>
    match progress e frames (Char.ofNat b.toNat) with
    | .more next frames => faultFrom next frames bs
    | .done => none
    | .stuck place => some (.wrong b place)

/-- What is wrong with the first value of a text. -/
def fault? (text : Octets) : Option Fault :=
  if text.chars.all isBlank then some .blank else faultFrom .value [] text

/-- What an error calls the kind of a value. -/
def kindText : Json → String
  | null => "null"
  | bool _ => "bool"
  | number _ => "number"
  | string _ => "string"
  | array _ => "array"
  | object _ => "object"

end BitSchema.Json
