import BitSchema.Proofs.SourceSpans
import BitSchema.Report

/-!
# Snippets of a source

The lexer counts lines and columns token by token, and a report finds the line again by its number.
Both come to the same place: the line of a node is the one in which its span starts, the marks stand
below the characters of the span, and the blanks before them are as wide as what stands there
(`Source.snippets_of_parse`).
-/

namespace BitSchema

open List
open String (utf8EncodeChar)

/-! ## Lines -/

namespace Report

/-- The octets of characters. -/
def encoded (cs : List Char) : Octets := cs.flatMap utf8EncodeChar

theorem encoded_append (cs ds : List Char) : encoded (cs ++ ds) = encoded cs ++ encoded ds :=
  flatMap_append

/-- An octet below 128 is found in its own character only. -/
theorem eq_of_mem_encode {c d : Char} (ascii : d.val.toNat < 128)
    (mem : UInt8.ofNat d.val.toNat ∈ utf8EncodeChar c) : c = d := by
  rw [← Char.val_inj, ← UInt32.toNat_inj]
  have bound := c.val.toNat_lt
  unfold utf8EncodeChar at mem
  dsimp only at mem
  split_ifs at mem <;>
    simp only [mem_cons, not_mem_nil, or_false, ← UInt8.toNat_inj, UInt8.toNat_ofNat'] at mem <;>
    omega

/-- Lines with their ends. -/
def joined (lines : List (List Char)) : List Char := lines.flatMap (· ++ ['\n'])

theorem joined_cons (line : List Char) (lines : List (List Char)) :
    joined (line :: lines) = (line ++ ['\n']) ++ joined lines := rfl

theorem exists_joined (cs : List Char) :
    ∃ lines last, cs = joined lines ++ last ∧ (∀ line ∈ lines, '\n' ∉ line) ∧ '\n' ∉ last := by
  induction cs with
  | nil => exact ⟨[], [], rfl, by simp, by simp⟩
  | cons c cs ih =>
    obtain ⟨lines, last, rfl, whole, rest⟩ := ih
    by_cases newline : c = '\n'
    · exact ⟨[] :: lines, last, by simp [joined, newline], by simpa using whole, rest⟩
    · cases lines with
      | nil => exact ⟨[], c :: last, rfl, whole, by simpa [Ne.symm newline] using rest⟩
      | cons line lines =>
        refine ⟨(c :: line) :: lines, last, by simp [joined], ?_, rest⟩
        simpa [Ne.symm newline] using whole

theorem takeWhile_encoded (cs : List Char) :
    (encoded cs).takeWhile (· != 10) = encoded (cs.takeWhile (· != '\n')) := by
  induction cs with
  | nil => rfl
  | cons c cs ih =>
    by_cases newline : c = '\n'
    · subst newline
      rfl
    · rw [encoded, flatMap_cons, takeWhile_append_of_pos,
        takeWhile_cons_of_pos (by simpa using newline)]
      · exact congrArg (utf8EncodeChar c ++ ·) ih
      · intro b mem
        rw [bne_iff_ne]
        rintro rfl
        exact newline (eq_of_mem_encode (by decide) mem)

theorem takeWhile_line {line rest : List Char} (none : '\n' ∉ line) :
    (line ++ rest).takeWhile (· != '\n') = line ++ rest.takeWhile (· != '\n') := by
  refine takeWhile_append_of_pos fun c mem => bne_iff_ne.mpr ?_
  rintro rfl
  exact none mem

theorem dropLines_joined {lines : List (List Char)} (whole : ∀ line ∈ lines, '\n' ∉ line)
    (cs : List Char) :
    dropLines lines.length (encoded (joined lines ++ cs)) =
      some (encoded cs, (encoded (joined lines)).length) := by
  induction lines with
  | nil => rfl
  | cons line lines ih =>
    obtain ⟨here, later⟩ := forall_mem_cons.mp whole
    have taken : (encoded (joined (line :: lines) ++ cs)).takeWhile (· != 10) = encoded line := by
      rw [takeWhile_encoded, joined_cons, append_assoc, append_assoc, takeWhile_line here]
      simp
    have ended : (encoded (line ++ ['\n'])).length = (encoded line).length + 1 := by
      rw [encoded_append, length_append]
      rfl
    have text : encoded (joined (line :: lines) ++ cs) =
        encoded (line ++ ['\n']) ++ encoded (joined lines ++ cs) := by
      rw [joined_cons, append_assoc, encoded_append]
    rw [length_cons, dropLines, taken, if_neg, text, drop_left' ended, ih later,
      joined_cons, encoded_append, length_append, ended]
    · rfl
    · rw [text, length_append, ended]
      omega

/-- A line without a carriage return at its end. -/
def trimmed (line : List Char) : List Char :=
  if line.getLast? = some '\r' then line.dropLast else line

theorem trimmed_encoded (line : List Char) :
    (if (encoded line).getLast? = some 13 then (encoded line).dropLast else encoded line) =
      encoded (trimmed line) := by
  obtain rfl | ⟨front, c, rfl⟩ := eq_nil_or_concat' line
  · rfl
  rw [trimmed, getLast?_concat, dropLast_concat, encoded_append]
  by_cases ended : c = '\r'
  · subst ended
    have octet : encoded ['\r'] = [13] := rfl
    rw [octet, getLast?_concat, dropLast_concat, if_pos rfl, if_pos rfl]
  · have some : encoded [c] ≠ [] := ne_nil_of_length_pos (Token.encode_ne_nil (by simp))
    rw [if_neg, if_neg (by simpa using ended), encoded_append]
    intro last
    rw [getLast?_append_of_ne_nil _ some] at last
    have mem := mem_of_getLast? last
    rw [encoded, flatMap_singleton] at mem
    exact ended (eq_of_mem_encode (by decide) mem)

/-- The octets of the line with this number, and the characters of the lines before it. -/
structure IsLine (chars above line : List Char) (number : Nat) : Prop where
  lines : ∃ lines, above = joined lines ∧ number = lines.length + 1 ∧ ∀ line ∈ lines, '\n' ∉ line
  ended : ∃ full rest, chars = above ++ full ++ rest ∧ line = trimmed full ∧ '\n' ∉ full ∧
    ∀ c ∈ rest.head?, c = '\n'

theorem IsLine.found {chars above line : List Char} {number : Nat}
    (isLine : IsLine chars above line number) :
    sourceLine? (encoded chars) number = some (encoded line, (encoded above).length) := by
  obtain ⟨⟨lines, rfl, rfl, whole⟩, full, rest, rfl, rfl, inside, next⟩ := isLine
  have stops : rest.takeWhile (· != '\n') = [] := by
    cases rest with
    | nil => rfl
    | cons c rest => simp [next c rfl]
  rw [sourceLine?, Nat.add_sub_cancel, append_assoc, dropLines_joined whole]
  simp only [bind, Option.bind, pure]
  rw [takeWhile_encoded, takeWhile_line inside, stops, append_nil, trimmed_encoded]

end Report

/-! ## Places -/

namespace Token

namespace Position

variable {p : Position} {cs last : List Char} {lines : List (List Char)}

theorem advance_append (p : Position) (cs ds : List Char) :
    p.advance (cs ++ ds) = (p.advance cs).advance ds :=
  foldl_append

/-- Inside a line only the column goes on. -/
theorem advance_line (none : '\n' ∉ cs) :
    (p.advance cs).line = p.line ∧ (p.advance cs).column = p.column + cs.length := by
  induction cs generalizing p with
  | nil => exact ⟨rfl, rfl⟩
  | cons c cs ih =>
    rw [mem_cons, not_or] at none
    have step : p.step c = ⟨p.offset + c.utf8Size, p.line, p.column + 1⟩ := if_neg (Ne.symm none.1)
    have rest := ih (p := p.step c) none.2
    rw [step, Nat.add_assoc, Nat.add_comm 1] at rest
    rw [advance, foldl_cons, step]
    exact rest

theorem advance_joined (whole : ∀ line ∈ lines, '\n' ∉ line) (none : '\n' ∉ last)
    (start : p.column = 1) :
    (p.advance (Report.joined lines ++ last)).line = p.line + lines.length ∧
      (p.advance (Report.joined lines ++ last)).column = last.length + 1 := by
  induction lines generalizing p with
  | nil =>
    obtain ⟨line, column⟩ := advance_line (p := p) none
    exact ⟨line, column.trans (by omega)⟩
  | cons first lines ih =>
    obtain ⟨here, later⟩ := forall_mem_cons.mp whole
    have line : ((p.advance first).advance ['\n']).line = p.line + 1 :=
      congrArg (· + 1) (advance_line here).1
    obtain ⟨lines', column⟩ := ih (p := (p.advance first).advance ['\n']) later rfl
    rw [Report.joined_cons, append_assoc, append_assoc, advance_append, advance_append]
    exact ⟨lines'.trans (by rw [line, length_cons]; omega), column⟩

end Position

/-- The span covers some of the characters from their own place on, and no line ends there. -/
def Covers (chars : List Char) (s : Span) : Prop :=
  ∃ before body after, chars = before ++ (body ++ after) ∧
    s = (({} : Position).advance before).span s.file body ∧
    (before = [] ∨ ∃ c ∈ (body ++ after).head?, c ≠ '\n')

/-- A line ends in a blank. -/
theorem lexeme_newline (cs : List Char) :
    lexeme? ('\n' :: cs) = some (.blank, run isBlank ('\n' :: cs)) := rfl

theorem Scanned.covers {file : String} {p : Position} {cs : List Char} {all : List Token}
    (scanned : Scanned file p cs all) (before : List Char)
    (place : p = ({} : Position).advance before) :
    ∀ t ∈ all.dropLast, t.isKept → Covers (before ++ cs) t.span := by
  induction scanned generalizing before with
  | ended => simp
  | @lexeme p cs kind n ts found rest ih =>
    rw [dropLast_cons_of_ne_nil rest.ne_nil, forall_mem_cons]
    refine ⟨fun kept => ⟨before, cs.take n, cs.drop n, ?_, ?_, .inr ?_⟩, ?_⟩
    · rw [take_append_drop]
    · rw [place]
      rfl
    · rw [take_append_drop]
      cases cs with
      | nil => cases found
      | cons c cs =>
        refine ⟨c, rfl, ?_⟩
        rintro rfl
        rw [lexeme_newline] at found
        cases found
        cases kept
    · have later := ih (before ++ cs.take n) (by rw [Position.advance_append, ← place])
      rwa [append_assoc, take_append_drop] at later

theorem Covers.upTo {chars : List Char} {first last : Span} (start : Covers chars first)
    (stop : Covers chars last) : Covers chars (first.upTo last) := by
  obtain ⟨before, body, after, rfl, here, next⟩ := start
  obtain ⟨before', body', after', same, there, -⟩ := stop
  rw [← append_assoc before'] at same
  have reached : last.stop = (({} : Position).advance (before' ++ body')).offset := by
    rw [there, stop_span, Position.advance_append]
  rcases append_eq_append_iff.mp same with ⟨inner, eq, rest⟩ | ⟨inner, eq, rest⟩
  · refine ⟨before, inner, after', ?_, ?_, ?_⟩
    · rw [rest]
    · rw [Span.upTo, reached, eq, Position.advance_append, here]
      rfl
    · rwa [← rest]
  · refine ⟨before, [], body ++ after, rfl, ?_, next⟩
    have none : last.stop - first.start = 0 := by
      rw [reached, here, eq, Position.span, Position.advance_append _ _ inner]
      dsimp only
      rw [offset_advance _ inner]
      omega
    rw [Span.upTo, none, here]
    simp [Position.span, Position.advance]

end Token

/-! ## Nodes -/

namespace Source

/-- The nodes of some outlines cover characters. -/
def Outline.AllCover (chars : List Char) (os : List Outline) : Prop :=
  ∀ o ∈ walkAll (fun _ => false) os, Token.Covers chars o.span

namespace Phrase

open BitSchema.Derivation (solid leavesAll)
open BitSchema.Token (Covers)
open Outline (AllCover)

variable {chars : List Char}

theorem allCover_append {os others : List Outline} :
    AllCover chars (os ++ others) ↔ AllCover chars os ∧ AllCover chars others := by
  have all : Outline.walkAll (fun _ => false) (os ++ others) =
      Outline.walkAll (fun _ => false) os ++ Outline.walkAll (fun _ => false) others := by
    induction os with
    | nil => rfl
    | cons o os ih => rw [cons_append, Outline.walkAll, ih, Outline.walkAll, append_assoc]
  rw [AllCover, all, forall_mem_append]
  rfl

theorem allCover_node {kind : NodeKind} {span : Span} {children : List Outline} :
    AllCover chars [.node kind span children] ↔ Covers chars span ∧ AllCover chars children := by
  rw [AllCover, Outline.walkAll, Outline.walk, Outline.walkAll, append_nil, forall_mem_cons]
  rfl

theorem covers_derivation {d : Derivation} (covered : ∀ t ∈ d.leaves, Covers chars t.span)
    (some : solid d.leaves ≠ []) : Covers chars d.span := by
  have each : ∀ t ∈ solid d.leaves, Covers chars t.span :=
    fun t mem => covered t (mem_of_mem_filter mem)
  unfold Derivation.span
  rw [Derivation.ends?_eq]
  generalize solid d.leaves = ts at some each
  cases ts with
  | nil => exact absurd rfl some
  | cons t ts =>
    rw [Derivation.endsOf_cons]
    exact (each t mem_cons_self).upTo (each _ (getLast_mem _))

theorem Placed.allCover {source : Octets} {r : Rule} {children : List Derivation}
    {parts : List Phrase} {os : List Outline} (placed : Placed source children parts)
    (covered : ∀ t ∈ leavesAll children, Covers chars t.span)
    (below : AllCover chars (parts.flatMap outlines))
    (laid : Laid (Derivation.node r children).span parts os) : AllCover chars os := by
  rw [← Derivation.leaves.eq_2 r] at covered
  have self := covers_derivation covered
  cases laid with
  | through all => rwa [← all]
  | node all some kept =>
    rw [all] at below
    have some := placed.solid_ne_nil (by rwa [all])
    rw [← Derivation.leaves.eq_2 r] at some
    refine allCover_node.mpr ⟨self some, ?_⟩
    rcases kept with rfl | rfl
    · exact below
    · exact forall_mem_nil _
  | @around _ o all =>
    rw [all] at below
    cases o
    exact allCover_node.mpr ⟨(allCover_node.mp below).1, below⟩
  | token one kind =>
    refine allCover_node.mpr ⟨self ?_, forall_mem_nil _⟩
    rw [placed.token_leaves one, solid_singleton kind]
    exact cons_ne_nil _ _

/-- Every node of a derivation covers its part of the source. -/
theorem allCover_of_derives {source : Octets} {ts : List Token} {p : Pattern}
    {trees : List Derivation} {phrases : List Phrase}
    (placed : ∀ t ∈ ts, IsAt source (t.kind = .ident) t.span t.text)
    (covered : ∀ t ∈ ts, Covers chars t.span) (derives : Derives ts p trees)
    (means : List.Forall₂ Means trees phrases) : AllCover chars (phrases.flatMap outlines) := by
  induction derives generalizing phrases with
  | literal | token =>
    obtain _ | ⟨⟨⟩, ⟨⟩⟩ := means
    exact forall_mem_nil _
  | rule body ih =>
    obtain _ | ⟨node, ⟨⟩⟩ := means
    obtain ⟨parts, each, composed⟩ := Means.node node
    have composes := composes_of_compose (shape_of_derives body each) composed
    rw [flatMap_singleton]
    exact (placed_of_derives placed body each).allCover
      (fun t mem => covered t (mem_of_derives body t mem)) (ih each) composes.laid
  | seqCons _ _ ih ihRest | manyCons _ _ ih ihRest =>
    obtain ⟨first, rest, rfl, left, right⟩ := forall₂_append_left means
    rw [flatMap_append]
    exact allCover_append.mpr ⟨ih left, ihRest right⟩
  | choice _ _ ih | present _ ih => exact ih means
  | _ =>
    cases means
    exact forall_mem_nil _

end Phrase

end Source

/-! ## Snippets -/

namespace Report

theorem trimmed_append {front full : List Char} (some : front = [] ∨ full ≠ []) :
    trimmed (front ++ full) = front ++ trimmed full := by
  rcases some with rfl | some
  · rfl
  · rw [trimmed, getLast?_append_of_ne_nil _ some, dropLast_append_of_ne_nil some, trimmed]
    split <;> rfl

theorem trimmed_prefix (line : List Char) : trimmed line <+: line := by
  rw [trimmed]
  split
  · exact dropLast_prefix line
  · exact prefix_rfl

/-- Blanks as wide as some characters, with their tabs. -/
def blanks (cs : List Char) : String :=
  String.ofList (cs.map fun c => if c = '\t' then '\t' else ' ')

/-- A line with its number, and marks below it after some blanks. -/
def underlined (color : Bool) (style : Style) (number : String) (line : Octets) (blanks : String)
    (width : Nat) : Octets :=
  let pad := String.ofList (List.replicate number.length ' ')
  painted color .gutter (pad ++ " |\n") ++ painted color .gutter (number ++ " | ") ++ line ++
    plain "\n" ++ painted color .gutter (pad ++ " | ") ++ plain blanks ++
    plain (emphasized color style (String.ofList (List.replicate width '^')) ++ "\n")

/-- A span of characters, and the line in which they start, cut there. -/
structure Cut (chars above front back body : List Char) (s : Span) : Prop where
  text : above ++ front ++ body <+: chars
  start : s.start = (encoded (above ++ front)).length
  length : s.length = (encoded body).length
  isLine : IsLine chars above (front ++ back) s.line
  column : s.column = front.length + 1

theorem exists_cut {chars : List Char} {s : Span} (covers : Token.Covers chars s) :
    ∃ above front back body, Cut chars above front back body s := by
  obtain ⟨before, body, after, rfl, here, next⟩ := covers
  obtain ⟨lines, front, rfl, whole, inside⟩ := exists_joined before
  obtain ⟨line, column⟩ := Token.Position.advance_joined (p := {}) whole inside rfl
  generalize post : body ++ after = text at next
  have some : front = [] ∨ text.takeWhile (· != '\n') ≠ [] := by
    rcases next with none | ⟨c, first, other⟩
    · exact .inl (append_eq_nil_iff.mp none).2
    · right
      cases text with
      | nil => cases first
      | cons d text =>
        cases first
        simp [other]
  refine ⟨joined lines, front, _, body, ⟨after, by rw [← post, append_assoc]⟩, ?_, ?_,
    ⟨⟨lines, rfl, ?_, whole⟩, front ++ text.takeWhile (· != '\n'), text.dropWhile (· != '\n'), ?_,
      (trimmed_append some).symm, ?_, ?_⟩, ?_⟩
  · rw [here, Token.Position.span, Token.offset_advance]
    exact Nat.zero_add _
  · rw [here, Token.length_span]
    rfl
  · rw [here]
    exact line.trans (Nat.add_comm ..)
  · rw [append_assoc, append_assoc, append_assoc, takeWhile_append_dropWhile]
  · rw [mem_append, not_or]
    exact ⟨inside, fun mem => by simpa using mem_takeWhile_imp mem⟩
  · intro c first
    have := head?_dropWhile_not (· != '\n') text
    rw [first] at this
    simpa using this
  · rw [here]
    exact column

section

variable {chars above front back body : List Char} {s : Span}

/-- The octets of the span on its line are those of as many characters as both have. -/
theorem Cut.marks (cut : Cut chars above front back body s) :
    (Octets.pieces ((encoded back).take (encoded body).length)).length =
      min body.length back.length := by
  have line : above ++ front ++ back <+: chars := by
    obtain ⟨full, rest, rfl, same, -⟩ := cut.isLine.ended
    obtain ⟨ending, rfl⟩ := same ▸ trimmed_prefix full
    exact ⟨ending ++ rest, by simp⟩
  have pieces : ∀ cs, (Octets.pieces (encoded cs)).length = cs.length := fun cs => by
    rw [encoded, Octets.pieces_flatMap_encode, length_map]
  rcases prefix_or_prefix_of_prefix line cut.text with short | short <;>
    rw [prefix_append_right_inj] at short <;> obtain ⟨rest, rfl⟩ := short
  · rw [take_of_length_le, pieces, Nat.min_eq_right]
    · simp
    · simp [encoded_append]
  · rw [encoded_append, take_left, pieces, Nat.min_eq_left]
    simp

theorem Cut.snippet (cut : Cut chars above front back body s) (color : Bool) (style : Style) :
    snippet color style (encoded chars) s =
      underlined color style (toString s.line) (encoded (front ++ back)) (blanks front)
        (max 1 (min body.length back.length)) := by
  have start := cut.start
  rw [encoded_append, length_append] at start
  have indented : indent (encoded front) = blanks front := by
    rw [indent, encoded, Octets.pieces_flatMap_encode, map_map]
    rfl
  rw [Report.snippet, cut.isLine.found]
  dsimp only
  rw [if_neg, start, Nat.add_sub_cancel_left, cut.length, encoded_append, drop_left,
    take_left, cut.marks, indented, ← encoded_append]
  · rfl
  · rw [encoded_append, length_append]
    omega

end

end Report

namespace Source

open Report (encoded underlined)

variable {file : String} {source : ByteArray} {schema : Schema}

/-- The nodes of a source that is read cover characters of it. -/
theorem covers_of_parse (ok : Schema.parse file source = .ok schema) :
    ∃ chars, Octets.chars? source.toList = some chars ∧ encoded chars = source.toList ∧
      Outline.AllCover chars [schema.outline] := by
  obtain ⟨chars, ts, last, d, decoded, scanned, derives, -, means, span, placed⟩ :=
    derives_of_parse ok
  have octets := Octets.encode_chars decoded
  refine ⟨chars, decoded, octets, Phrase.allCover_node.mpr ⟨?_, ?_⟩⟩
  · refine ⟨[], chars, [], by simp, ?_, .inl rfl⟩
    have size : (({} : Token.Position).span file chars).length = source.size := by
      rw [Token.length_span, octets, Octets.length_toList]
    rw [span, ← size]
    rfl
  · obtain ⟨all, ended, lexed, -, -, same⟩ := Token.scanned_tokens scanned
    obtain ⟨rfl, -⟩ := append_inj' same rfl
    have covers := lexed.covers [] rfl
    rw [dropLast_concat] at covers
    have nodes := Phrase.allCover_of_derives placed (fun t mem =>
      covers t (mem_of_mem_filter mem) (of_mem_filter mem)) derives means
    rwa [flatMap_singleton] at nodes

/-- The snippets of a source that is read.  Whatever node a diagnostic is about, its span starts in
the line that is found by its number, after as many characters as its column says; the line is shown
with blanks for these, and with one mark for each character of the span that stands on it, or with
one mark if there is none. -/
theorem snippets_of_parse (ok : Schema.parse file source = .ok schema) :
    ∃ chars, Octets.chars? source.toList = some chars ∧
      ∀ o ∈ schema.outline.walk fun _ => false, ∃ above front back body,
        Report.Cut chars above front back body o.span ∧
        Report.sourceLine? source.toList o.span.line =
          some (encoded (front ++ back), (encoded above).length) ∧
        ∀ color style, Report.snippet color style source.toList o.span =
          underlined color style (toString o.span.line) (encoded (front ++ back))
            (Report.blanks front) (max 1 (min body.length back.length)) := by
  obtain ⟨chars, decoded, octets, covers⟩ := covers_of_parse ok
  refine ⟨chars, decoded, fun o mem => ?_⟩
  rw [Outline.AllCover, Outline.walkAll, Outline.walkAll, append_nil] at covers
  obtain ⟨above, front, back, body, cut⟩ := Report.exists_cut (covers o mem)
  rw [← octets]
  exact ⟨above, front, back, body, cut, cut.isLine.found, cut.snippet⟩

/-- Lines that end in carriage returns, with a tab and letters of two octets. -/
def tabbedSource : ByteArray :=
  "package a;\r\nmessage M \x7b\r\n\t/* ü */ u8 x; // é\r\n\x7d".toUTF8

theorem snippets_of_parse_tabbed :
    ∃ schema chars, Schema.parse "use" tabbedSource = .ok schema ∧
      (∃ o ∈ schema.outline.walk fun _ => false, o.kind = .field ∧ o.span.line = 3 ∧
        o.span.column = 10 ∧ Report.snippet false .error tabbedSource.toList o.span =
          Octets.ofString "  |\n3 | \t/* ü */ u8 x; // é\n  | \t        ^^^^^\n") ∧
      ∀ o ∈ schema.outline.walk fun _ => false, ∃ above front back body,
        Report.Cut chars above front back body o.span := by
  have run : ∃ schema ∈ (Schema.parse "use" tabbedSource).toOption,
      ∃ o ∈ schema.outline.walk fun _ => false, o.kind = .field ∧ o.span.line = 3 ∧
        o.span.column = 10 ∧ Report.snippet false .error tabbedSource.toList o.span =
          Octets.ofString "  |\n3 | \t/* ü */ u8 x; // é\n  | \t        ^^^^^\n" := by
    decide +kernel
  obtain ⟨schema, read, node⟩ := run
  have ok := toOption_eq_some_iff.mp read
  obtain ⟨chars, -, snippets⟩ := snippets_of_parse ok
  refine ⟨schema, chars, ok, node, fun o mem => ?_⟩
  obtain ⟨above, front, back, body, cut, -⟩ := snippets o mem
  exact ⟨above, front, back, body, cut⟩

end Source

end BitSchema
