import BitSchema.File.Glob.Plan

/-!
# Path patterns

Patterns that select paths.
-/

namespace BitSchema

/-- A pattern with the text it is written as. -/
structure Glob where
  text : String
  matcher : Glob.Matcher

namespace Glob

def ofString (pattern : String) : Except Fault Glob :=
  (parse pattern).map fun parts => ⟨pattern, plan parts⟩

/-- The pattern selects a path. -/
def selects (g : Glob) (path : String) : Except Overrun Bool :=
  g.matcher.takes (Octets.ofString path)

end Glob

end BitSchema
