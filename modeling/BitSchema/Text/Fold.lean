/-!
# Names without regard to case

Names of fields are plain letters, digits and underscores.  Besides the two cases of a letter, the
long s and the kelvin sign count as letters of the alphabet.
-/

namespace BitSchema

/-- The character that all those stand for that differ from it only in case. -/
def foldChar (c : Char) : Char :=
  if c.toNat = 0x17F then 's' else if c.toNat = 0x212A then 'k' else c.toLower

def foldName (name : String) : List Char := name.toList.map foldChar

/-- The field that a name means: the one it spells, else the first that differs only in case. -/
def fieldMeant? (fields : List String) (name : String) : Option String :=
  (fields.find? (· == name)).or (fields.find? fun f => foldName f == foldName name)

end BitSchema
