import BitSchema.Diagnostic

/-!
# Reports

Diagnostics for a terminal: each with its place, the source line it is about and a mark below the
text in question; warnings first, and a count at the end.  Source lines are shown octet for octet.
-/

namespace BitSchema.Report

/-- How a part of a report is set off. -/
inductive Style where
  | error
  | warning
  | title
  | gutter
  | note
  deriving DecidableEq, Repr

namespace Style

/-- The escape sequence that turns a style on. -/
def opening : Style → String
  | error => "\x1b[31;1m"
  | warning => "\x1b[33;1m"
  | title => "\x1b[1m"
  | gutter => "\x1b[36;1m"
  | note => "\x1b[36m"

/-- Turns every style off. -/
def closing : String := "\x1b[0m"

/-- Turns colour and weight off, one after the other. -/
def closingBoth : String := "\x1b[0;22m"

end Style

/-- Text in a style, if colours are on. -/
def painted (color : Bool) (style : Style) (text : String) : Octets :=
  Octets.ofString (if color then style.opening ++ text ++ Style.closing else text)

/-- Text in a style of colour and weight, if colours are on. -/
def emphasized (color : Bool) (style : Style) (text : String) : String :=
  if color then style.opening ++ text ++ Style.closingBoth else text

def plain (text : String) : Octets := Octets.ofString text

/-- Drop whole lines from the start of a text; the second part counts the octets dropped. -/
def dropLines : Nat → Octets → Option (Octets × Nat)
  | 0, text => some (text, 0)
  | n + 1, text =>
    let line := text.takeWhile (· != 10)
    if line.length = text.length then none
    else (dropLines n (text.drop (line.length + 1))).map fun (rest, offset) =>
      (rest, line.length + 1 + offset)

/-- A line by its number from one on, without its end, and the offset where it starts. -/
def sourceLine? (source : Octets) (number : Nat) : Option (Octets × Nat) := do
  let (rest, offset) ← dropLines (number - 1) source
  let line := rest.takeWhile (· != 10)
  return (if line.getLast? = some 13 then line.dropLast else line, offset)

/-- Blanks as wide as a text, with its tabs. -/
def indent (text : Octets) : String :=
  String.ofList (text.pieces.map fun p => if p.toChar = '\t' then '\t' else ' ')

/-- The line of a place, with marks below it. -/
def snippet (color : Bool) (style : Style) (source : Octets) (span : Span) : Octets :=
  match sourceLine? source span.line with
  | none => []
  | some (line, offset) =>
    if span.start < offset ∨ offset + line.length < span.start then []
    else
      let start := span.start - offset
      let marked := (line.drop start).take span.length
      let width := max 1 (Octets.pieces marked).length
      let number := toString span.line
      let pad := String.ofList (List.replicate number.length ' ')
      painted color .gutter (pad ++ " |\n") ++ painted color .gutter (number ++ " | ") ++ line ++
        plain "\n" ++ painted color .gutter (pad ++ " | ") ++ plain (indent (line.take start)) ++
        plain (emphasized color style (String.ofList (List.replicate width '^')) ++ "\n")

/-- Where the text of source files comes from. -/
abbrev Sources : Type := String → Option ByteArray

def styleOf (d : Diagnostic) : Style := if d.isError then .error else .warning

/-- The snippet of a diagnostic, if its line and its source are known. -/
def snippetOf (color : Bool) (sources : Sources) (d : Diagnostic) : Octets :=
  if d.span.line = 0 then []
  else match sources d.span.file with
    | some source => snippet color (styleOf d) source.toList d.span
    | none => []

def render (color : Bool) (sources : Sources) (d : Diagnostic) : Octets :=
  let head := d.severity.name ++ "[" ++ (if d.isError then "E" else "W") ++ toString d.code ++ "]"
  painted color (styleOf d) head ++ painted color .title (": " ++ d.message ++ "\n") ++
    if d.span.isNone then plain "\n"
    else
      painted color .gutter "  --> " ++ plain (d.span.describe ++ "\n") ++
        snippetOf color sources d ++
        (match d.related? with
          | some related =>
            painted color .note "   = note: " ++
              plain ("previously defined at " ++ related.describe ++ "\n")
          | none => []) ++
        plain "\n"

def plural (n : Int) (noun : String) : String :=
  if n = 1 then "1 " ++ noun else toString n ++ " " ++ noun ++ "s"

/-- The counts, if there is anything to count.  Only counts above zero are named. -/
def summary (color : Bool) (errors warnings : Int) : String :=
  if errors = 0 ∧ warnings = 0 then ""
  else
    let parts :=
      (if 0 < errors then [emphasized color .error (plural errors "error")] else []) ++
      (if 0 < warnings then [emphasized color .warning (plural warnings "warning")] else [])
    " and ".intercalate parts ++ " generated\n"

/-- The whole report. -/
def report (color : Bool) (sources : Sources) (errors warnings : List Diagnostic) : Octets :=
  (warnings ++ errors).flatMap (render color sources) ++
    plain (summary color errors.length warnings.length)

end BitSchema.Report
