import BitSchema.Text.Quoted
import BitSchema.Toml.Key

/-!
# Faults of documents

What can be wrong with a document: with its characters, with what is written, with the keys it
defines, and with the types of its values.  A fault says in which line it was found, and which key
was being read.
-/

namespace BitSchema.Toml

/-- The mark that ends a string. -/
inductive Quotes where
  | basic
  | literal
  | basicBlock
  | literalBlock
  deriving DecidableEq, Repr

/-- The escapes that give a character by its number. -/
inductive NumberEscape where
  | two
  | four
  | eight
  deriving DecidableEq, Repr

/-- What is wrong with a number. -/
inductive NumberFault where
  | underscores
  | leadingZeroes
  | noFraction
  deriving DecidableEq, Repr

/-- The bases with a letter of their own. -/
inductive NumberBase where
  | binary
  | octal
  | hexadecimal
  deriving DecidableEq, Repr

/-- What is wrong.  Where a character is expected, `none` is the end of the document. -/
inductive Cause where
  | nullOctets
  | strayOctet (octet : UInt8)
  | controlChar (c : Char)
  | afterItem (c : Char)
  | emptyTableName
  | tableDot
  | afterTableName (c? : Option Char)
  | afterArrayName (c? : Option Char)
  | blankKey
  | leadingDot
  | missingPart (c : Char)
  | endOfKey
  | afterKey (c : Char)
  | noValue
  | notValue (c : Char)
  | notWord (word : String)
  | bareFraction
  | notInfinity (text : String)
  | notDigit (c? : Option Char)
  | signedBase (text : String) (c : Char)
  | notBased (base : NumberBase) (text : String) (c? : Option Char)
  | strayComma
  | afterElement (c? : Option Char)
  | afterEntry (c? : Option Char)
  | openString (quotes : Quotes)
  | newlineInString
  | sixQuotes (quotes : Quotes)
  | badEscape (c? : Option Char)
  | notHexadecimal (escape : NumberEscape) (text : String)
  | blankEscape (c : Char)
  | noSuchChar (digits : String)
  | badInteger (text : String) (fault : NumberFault)
  | hugeInteger (text : String)
  | badFloat (text : String) (fault : NumberFault)
  | hugeFloat (text : String)
  | notFloat (text : String)
  | notTime (text : String)
  | notTableOnWay (key : Key)
  | notArrayOfTables (key : Key)
  | definedTwice (key : Key)
  | notTable (part : String)
  | nested
  | wrongType (found expected : String)
  | expectedTable (record found : String)
  | badDuration (text : String)
  deriving DecidableEq, Repr

def Quotes.text : Quotes → String
  | basic => "'\"'"
  | literal => "\"'\""
  | basicBlock => "'\"\"\"'"
  | literalBlock => "\"'''\""

def NumberEscape.text : NumberEscape → String
  | two => "two hexadecimal digits after '\\x'"
  | four => "four hexadecimal digits after '\\u'"
  | eight => "eight hexadecimal digits after '\\U'"

def NumberFault.text : NumberFault → String
  | underscores => "underscores must be surrounded by digits"
  | leadingZeroes => "cannot have leading zeroes"
  | noFraction => "'.' must be followed by one or more digits"

def NumberBase.text : NumberBase → String
  | binary => "a binary"
  | octal => "an octal"
  | hexadecimal => "a hexidecimal"

/-- The character, where the end of the document is a null. -/
def orNull (c? : Option Char) : Char := c?.getD '\x00'

/-- The character between apostrophes as it is, or the end of the document. -/
def orEnd : Option Char → String
  | some c => "'" ++ c.toString ++ "'"
  | none => "end of file"

def Cause.message : Cause → String
  | nullOctets =>
    "files cannot contain NULL bytes; probably using UTF-16; TOML files must be UTF-8"
  | strayOctet octet => "invalid UTF-8 byte: 0x" ++ toHex 2 octet.toNat
  | controlChar c =>
    "TOML files cannot contain control characters: '0x" ++ toHex 2 c.toNat ++ "'"
  | afterItem c => "expected a top-level item to end with a newline, comment, or EOF, but got " ++
    Quoted.quoteLone c ++ " instead"
  | emptyTableName => "unexpected end of table name (table names cannot be empty)"
  | tableDot => "unexpected table separator (table names cannot be empty)"
  | afterTableName c? => "expected '.' or ']' to end table name, but got " ++
    Quoted.quoteLone (orNull c?) ++ " instead"
  | afterArrayName c? => "expected end of table array name delimiter ']', but got " ++
    Quoted.quoteLone (orNull c?) ++ " instead"
  | blankKey => "unexpected '=': key name appears blank"
  | leadingDot => "unexpected '.': keys cannot start with a '.'"
  | missingPart c => "unexpected '" ++ c.toString ++ "'"
  | endOfKey => "unexpected EOF; expected key separator '='"
  | afterKey c => "expected '.' or '=', but got " ++ Quoted.quoteLone c ++ " instead"
  | noValue => "unexpected EOF; expected value"
  | notValue c => "expected value but found " ++ Quoted.quoteLone c ++ " instead"
  | notWord word => "expected value but found " ++ Quoted.quoteString word ++ " instead"
  | bareFraction => "floats must start with a digit, not '.'"
  | notInfinity text => "invalid float: '" ++ text ++ "'"
  | notDigit c? => "expected a digit but got " ++ Quoted.quoteLone (orNull c?)
  | signedBase text c =>
    "cannot use sign with non-decimal numbers: '" ++ text ++ c.toString ++ "'"
  | notBased base text c? =>
    "not " ++ base.text ++ " number: '" ++ text ++ (orNull c?).toString ++ "'"
  | strayComma => "unexpected comma"
  | afterElement c? => "expected a comma (',') or array terminator (']'), but got " ++ orEnd c?
  | afterEntry c? => "expected a comma or an inline table terminator '\x7d', but got " ++
    orEnd c? ++ " instead"
  | openString quotes => "unexpected EOF; expected " ++ quotes.text
  | newlineInString => "strings cannot contain newlines"
  | sixQuotes quotes =>
    if quotes = .basicBlock then "unexpected '\"\"\"\"\"\"'" else "unexpected \"''''''\""
  | badEscape c? => "invalid escape in string '\\" ++ (orNull c?).toString ++ "'"
  | notHexadecimal escape text => "expected " ++ escape.text ++ ", but got " ++
    Quoted.quoteString text ++ " instead"
  | blankEscape c => "invalid escape: '\\" ++ c.toString ++ "'"
  | noSuchChar digits => "Escaped character '\\u" ++ digits ++ "' is not valid UTF-8."
  | badInteger text fault => "Invalid integer " ++ Quoted.quoteString text ++ ": " ++ fault.text
  | hugeInteger text => text ++ " is out of range for int64"
  | badFloat text fault => "Invalid float " ++ Quoted.quoteString text ++ ": " ++ fault.text
  | hugeFloat text => text ++ " is out of range for float64"
  | notFloat text => "Invalid float value: " ++ Quoted.quoteString text
  | notTime text => "invalid datetime: " ++ Quoted.quoteString text
  | notTableOnWay key => "Key '" ++ keyText key ++ "' was already created as a hash."
  | notArrayOfTables key =>
    "Key '" ++ keyText key ++ "' was already created and cannot be used as an array."
  | definedTwice key => "Key '" ++ keyText key ++ "' has already been defined."
  | notTable part => Quoted.quoteString part ++ " is not a table"
  | nested => "nested too deeply"
  | wrongType found expected =>
    "incompatible types: TOML value has type " ++ found ++ "; destination has type " ++ expected
  | expectedTable record found =>
    "type mismatch for " ++ record ++ ": expected table but found " ++ found
  | badDuration text => "invalid duration: " ++ Quoted.quoteString text

/-- What is wrong, in which line, and which key was read last. -/
structure Fault where
  line? : Option Nat
  lastKey : String
  cause : Cause
  deriving DecidableEq, Repr

def Fault.message (f : Fault) : String :=
  let place := (f.line?.map fun line => s!"line {line}").toList ++
    if f.lastKey = "" then [] else ["(last key " ++ Quoted.quoteString f.lastKey ++ ")"]
  "toml: " ++ " ".intercalate place ++ ": " ++ f.cause.message

end BitSchema.Toml
