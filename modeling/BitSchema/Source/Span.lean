/-!
# Spans

A place in a source file: a run of octets, with the line and the column of its first one.
-/

namespace BitSchema

/-- A run of octets in a named file.  Lines and columns count from one, and columns count
characters; line zero means that only the offset is known. -/
structure Span where
  file : String := ""
  start : Nat := 0
  length : Nat := 0
  line : Nat := 0
  column : Nat := 0
  deriving DecidableEq, Repr, Inhabited

namespace Span

/-- The place of nothing at all. -/
def none : Span := {}

/-- The offset after the last octet. -/
def stop (s : Span) : Nat := s.start + s.length

def isNone (s : Span) : Bool := s == none

/-- The place as messages name it. -/
def describe (s : Span) : String :=
  if s.line = 0 then s!"{s.file}@{s.start}" else s!"{s.file}:{s.line}:{s.column}"

/-- The run from the start of `first` to the end of `last`. -/
def upTo (first last : Span) : Span := { first with length := last.stop - first.start }

/-- `inner` lies within `outer`. -/
def Within (inner outer : Span) : Prop := outer.start ≤ inner.start ∧ inner.stop ≤ outer.stop

end Span

end BitSchema
