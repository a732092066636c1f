import BitSchema.Toml.Parse

/-!
# Documents

A document that has been read: its tables, and the keys it defines.
-/

namespace BitSchema.Toml

/-- A document. -/
structure Document where
  members : Members := []
  /-- All keys, in the order they are written. -/
  keys : List Key := []
  /-- The lines that keys stand in. -/
  lines : List (Key × Nat) := []

namespace Document

def line? (document : Document) (key : Key) : Option Nat := document.lines.lookup key

/-- A text without the mark of its encoding. -/
def dropMark : Octets → Octets
  | 0xFF :: 0xFE :: rest => rest
  | 0xFE :: 0xFF :: rest => rest
  | 0xEF :: 0xBB :: 0xBF :: rest => rest
  | text => text

/-- Read a document.  One with a null among its first octets is taken to be in an encoding with
wider units. -/
def parse (text : Octets) : Except Fault Document := do
  let text := dropMark text
  if (text.take 6).contains 0 then throw ⟨some 1, "", .nullOctets⟩
  let read := do readStatements (← Parsing.steps)
  let ((), s) ← read.run (.ofGlyphs (glyphs text))
  let d := s.draft
  return ⟨d.members, d.keys.reverse, d.notes.map fun (key, note) => (key, note.line)⟩

end Document

end BitSchema.Toml
