import BitSchema.Proofs.NestedOutlines
import BitSchema.Proofs.OrderedChoice
import BitSchema.Proofs.Spellings
import BitSchema.Proofs.TokenSpans

/-!
# Spans of a source

The spans of a source are nested and in order.  Each node covers the tokens it was composed from,
the documentation aside, so the spans of its children stand one after the other within its own
(`Outline.NestedIn`), and a walk goes through the source from the left.  A node that stands for its
own text was composed from one token, so its span is that of the token and covers the octets of its
text (`spans_of_parse`).
-/

namespace BitSchema

open List BitSchema.Derivation Source.Outline

/-! ## Spans of derivations -/

namespace Derivation

/-- The tokens other than documentation. -/
def solid (ts : List Token) : List Token := ts.filter (·.kind ≠ .doc)

@[simp]
theorem solid_append (ts us : List Token) : solid (ts ++ us) = solid ts ++ solid us :=
  filter_append ..

/-- The first and the last of some tokens. -/
def endsOf (ts : List Token) : Option (Token × Token) :=
  ts.head?.bind fun first => ts.getLast?.map fun last => (first, last)

theorem endsOf_cons (t : Token) (ts : List Token) :
    endsOf (t :: ts) = some (t, (t :: ts).getLast (cons_ne_nil t ts)) := by
  rw [endsOf, head?_cons, Option.bind_some, getLast?_eq_some_getLast (cons_ne_nil t ts)]
  rfl

theorem none_joinEnds (ends : Option (Token × Token)) : joinEnds none ends = ends := by
  cases ends <;> rfl

theorem joinEnds_none (ends : Option (Token × Token)) : joinEnds ends none = ends := by
  cases ends <;> rfl

theorem joinEnds_endsOf (ts us : List Token) :
    joinEnds (endsOf ts) (endsOf us) = endsOf (ts ++ us) := by
  cases ts with
  | nil => exact none_joinEnds _
  | cons t ts =>
    cases us with
    | nil =>
      rw [append_nil]
      exact joinEnds_none _
    | cons u us =>
      rw [cons_append, endsOf_cons, endsOf_cons, endsOf_cons, joinEnds]
      simp

theorem joinEnds_assoc (a b c : Option (Token × Token)) :
    joinEnds (joinEnds a b) c = joinEnds a (joinEnds b c) := by
  cases a <;> cases b <;> cases c <;> rfl

mutual
theorem ends?_eq (d : Derivation) : d.ends? = endsOf (solid d.leaves) := by
  cases d with
  | leaf t =>
    rw [ends?, leaves, solid]
    split
    next doc => simp [doc, endsOf]
    next solid => simp [solid, endsOf]
  | node r children => rw [ends?, leaves, endsAfter_eq, none_joinEnds]
theorem endsAfter_eq (known : Option (Token × Token)) (ds : List Derivation) :
    endsAfter known ds = joinEnds known (endsOf (solid (leavesAll ds))) := by
  cases ds with
  | nil =>
    rw [endsAfter]
    exact (joinEnds_none known).symm
  | cons d ds =>
    rw [endsAfter, endsAfter_eq, ends?_eq, joinEnds_assoc, joinEnds_endsOf, leavesAll, solid_append]
end

/-- The span of one token alone. -/
theorem span_of_sole {d : Derivation} {t : Token} (sole : solid d.leaves = [t]) :
    d.span = t.span := by
  unfold span
  rw [ends?_eq, sole]
  simp only [endsOf, head?_cons, getLast?_singleton, Option.bind_some, Option.map_some,
    Span.upTo, Span.stop, Nat.add_sub_cancel_left]

/-- A derivation reaches from the start of its first token to the end of its last. -/
theorem span_of_inRow {d : Derivation} {lo hi : Nat} (row : Token.InRow lo hi (solid d.leaves))
    (some : solid d.leaves ≠ []) :
    lo ≤ d.span.start ∧ d.span.start < d.span.stop ∧ d.span.stop ≤ hi ∧
      Token.InRow d.span.start d.span.stop (solid d.leaves) := by
  unfold span
  rw [ends?_eq]
  generalize solid d.leaves = ts at row some
  cases ts with
  | nil => exact absurd rfl some
  | cons t ts =>
    obtain ⟨inside, within, tight⟩ := row.tight rfl
    have after : lo ≤ t.span.start := row.1
    rw [endsOf_cons]
    generalize (t :: ts).getLast (cons_ne_nil t ts) = last at inside within tight
    have stop : (t.span.upTo last.span).stop = last.span.stop := by
      rw [Span.stop, Span.upTo]
      dsimp only
      omega
    dsimp only
    rw [stop]
    exact ⟨after, inside, within, tight⟩

end Derivation

/-! ## Phrases in their places -/

namespace Source.Phrase

variable {source : Octets} {span : Span} {parts : List Phrase} {phrase : Phrase}

theorem Composes.ne_token {r : Rule} (composes : Composes span parts r phrase) (t : Token) :
    phrase ≠ .token t := by
  cases composes <;> simp

/-- An identifier alone was composed from its token, or from an identifier alone. -/
theorem Composes.sole {r : Rule} (composes : Composes span parts r phrase) {i : Ident}
    (sole : phrase.sole? = some i) :
    (∃ t, parts = [.token t] ∧ t.kind ≠ .doc ∧ i.span = span) ∨ parts = [.ident i] := by
  cases composes with
  | ident same kind =>
    cases sole
    exact .inl ⟨_, same, by simp [kind], rfl⟩
  | @typeName absolute j js _ alone =>
    cases absolute with
    | true => cases sole
    | false =>
      cases js with
      | nil =>
        cases sole
        exact .inr (alone rfl rfl)
      | cons k ks => cases sole
  | _ => cases sole

/-- A token stands for itself, and an identifier alone has the span of its token. -/
structure Alone (d : Derivation) (p : Phrase) : Prop where
  token : ∀ t, p = .token t → d.leaves = [t]
  sole : ∀ i, p.sole? = some i → ∃ t, solid d.leaves = [t] ∧ i.span = t.span

/-- The text stands at the span, and is part of a name if it has to be. -/
def IsAt (source : Octets) (isIdent : Prop) (span : Span) (text : String) : Prop :=
  span.octets source = Octets.ofString text ∧ (isIdent → IsPart text)

/-- The phrases of derivations, in the places of these: their outlines are nested among the tokens,
and their spellings are found in the source. -/
structure Placed (source : Octets) (trees : List Derivation) (phrases : List Phrase) : Prop where
  nested : ∀ lo hi, Token.InRow lo hi (solid (leavesAll trees)) →
    NestedIn lo hi (phrases.flatMap outlines)
  spelled : ∀ s ∈ phrases.flatMap spellings, IsAt source (s.kind = .ident) s.span s.text
  alone : List.Forall₂ Alone trees phrases

theorem placed_nil : Placed source [] [] where
  nested _ _ row := nestedIn_nil.mpr row
  spelled := forall_mem_nil _
  alone := .nil

variable {trees : List Derivation}

theorem Placed.append {others : List Derivation} {phrases more : List Phrase}
    (first : Placed source trees phrases) (rest : Placed source others more) :
    Placed source (trees ++ others) (phrases ++ more) where
  nested lo hi row := by
    rw [leavesAll_append, solid_append] at row
    obtain ⟨mid, left, right⟩ := Token.inRow_append.mp row
    rw [flatMap_append]
    exact (first.nested lo mid left).append (rest.nested mid hi right)
  spelled := by
    rw [flatMap_append, forall_mem_append]
    exact ⟨first.spelled, rest.spelled⟩
  alone := rel_append first.alone rest.alone

theorem placed_leaf (t : Token) : Placed source [.leaf t] [.token t] where
  nested _ _ row := nestedIn_nil.mpr row.le
  spelled := forall_mem_nil _
  alone := .cons ⟨fun _ same => by cases same; rfl, fun _ absurd => by cases absurd⟩ .nil

/-- With tokens that are documentation only, nothing is outlined. -/
theorem Placed.solid_ne_nil (placed : Placed source trees parts)
    (some : parts.flatMap outlines ≠ []) : solid (leavesAll trees) ≠ [] := by
  intro none
  have row : Token.InRow 0 0 (solid (leavesAll trees)) := by
    rw [none]
    exact Nat.le_refl 0
  have nested := placed.nested 0 0 row
  cases outlined : parts.flatMap outlines with
  | nil => exact some outlined
  | cons o os =>
    rw [outlined] at nested
    obtain ⟨after, inside, -, rest⟩ := nestedIn_cons.mp nested
    have := rest.le
    omega

section Node

variable {r : Rule} {children : List Derivation}

/-- The only part of a production is the phrase of its only child. -/
theorem Placed.child {p : Phrase} (placed : Placed source children parts) (one : parts = [p]) :
    ∃ d, (node r children).leaves = d.leaves ∧ Alone d p := by
  subst one
  obtain _ | ⟨alone, _ | _⟩ := placed.alone
  exact ⟨_, by rw [leaves, leavesAll_singleton], alone⟩

theorem Placed.token_leaves {t : Token} (placed : Placed source children parts)
    (one : parts = [.token t]) : (node r children).leaves = [t] := by
  obtain ⟨d, same, alone⟩ := placed.child one
  rw [same, alone.token t rfl]

theorem solid_singleton {t : Token} (kind : t.kind ≠ .doc) : solid [t] = [t] := by
  simp [solid, kind]

section

variable (placed : Placed source children parts)

include placed

theorem Placed.node_nested {os : List Outline}
    (laid : Laid (node r children).span parts os) {lo hi : Nat}
    (row : Token.InRow lo hi (solid (node r children).leaves)) :
    NestedIn lo hi os := by
  have below : (node r children).leaves = leavesAll children := by rw [leaves]
  cases laid with
  | through all =>
    rw [below] at row
    rw [← all]
    exact placed.nested lo hi row
  | node all some kept =>
    have solid := placed.solid_ne_nil (by rwa [all])
    rw [← below] at solid
    obtain ⟨after, inside, within, tight⟩ := span_of_inRow row solid
    refine nestedIn_singleton.mpr ⟨after, inside, nested_iff.mpr ?_, within⟩
    rw [below] at tight
    rcases kept with rfl | rfl
    · rw [← all]
      exact placed.nested _ _ tight
    · exact nestedIn_nil.mpr inside.le
  | around all =>
    rw [below] at row
    have nested := placed.nested lo hi row
    rw [all] at nested
    obtain ⟨after, inside, nested, within⟩ := nestedIn_singleton.mp nested
    have self : NestedIn _ _ [_] :=
      nestedIn_singleton.mpr ⟨Nat.le_refl _, inside, nested, Nat.le_refl _⟩
    exact nestedIn_singleton.mpr ⟨after, inside, nested_iff.mpr self, within⟩
  | token one kind =>
    have some : solid (node r children).leaves ≠ [] := by
      rw [placed.token_leaves one, solid_singleton kind]
      exact cons_ne_nil _ _
    obtain ⟨after, inside, within, -⟩ := span_of_inRow row some
    exact nestedIn_singleton.mpr
      ⟨after, inside, nested_iff.mpr (nestedIn_nil.mpr inside.le), within⟩

theorem Placed.node_spelled (covered : ∀ t ∈ (node r children).leaves,
      IsAt source (t.kind = .ident) t.span t.text)
    {s : Spelling} (drawn : Drawn (node r children).span parts s) :
    IsAt source (s.kind = .ident) s.span s.text := by
  cases drawn with
  | part mem => exact placed.spelled s mem
  | @token kind t one solid isIdent =>
    have leaves := placed.token_leaves (r := r) one
    have here : t ∈ (node r children).leaves := by
      rw [leaves]
      exact mem_singleton_self t
    have same : (node r children).span = t.span := by
      apply span_of_sole
      rw [leaves, solid_singleton solid]
    rw [same]
    obtain ⟨octets, isPart⟩ := covered t here
    exact ⟨octets, fun same => isPart (isIdent same)⟩
  | @sole kind p i one sole mem =>
    obtain ⟨d, same, alone⟩ := placed.child (r := r) one
    obtain ⟨t, only, span⟩ := alone.sole i sole
    have same : (node r children).span = i.span := by
      rw [span]
      apply span_of_sole
      rw [same, only]
    rw [same]
    obtain ⟨octets, isPart⟩ := placed.spelled i.spelling (by rwa [one, flatMap_singleton])
    exact ⟨octets, fun _ => isPart rfl⟩

theorem Placed.node_alone (composes : Composes (node r children).span parts r phrase) :
    Alone (.node r children) phrase where
  token t same := absurd same (composes.ne_token t)
  sole i sole := by
    rcases composes.sole sole with ⟨t, one, kind, span⟩ | one
    · have only : solid (node r children).leaves = [t] := by
        rw [placed.token_leaves one, solid_singleton kind]
      exact ⟨t, only, span.trans (span_of_sole only)⟩
    · obtain ⟨d, same, alone⟩ := placed.child (r := r) one
      rw [same]
      exact alone.sole i rfl

theorem Placed.node (composes : Composes (node r children).span parts r phrase)
    (covered : ∀ t ∈ (node r children).leaves, IsAt source (t.kind = .ident) t.span t.text) :
    Placed source [.node r children] [phrase] where
  nested lo hi row := by
    rw [leavesAll_singleton] at row
    rw [flatMap_singleton]
    exact placed.node_nested composes.laid row
  spelled := by
    rw [flatMap_singleton]
    exact fun s mem => placed.node_spelled covered (composes.drawn s mem)
  alone := .cons (placed.node_alone composes) .nil

end

end Node

theorem mem_of_derives {ts : List Token} {p : Pattern} (derives : Derives ts p trees) :
    ∀ t ∈ leavesAll trees, t ∈ ts := by
  induction derives with
  | literal mem _ | token mem _ => exact forall_mem_singleton.mpr mem
  | rule _ ih =>
    rw [leavesAll_singleton, leaves]
    exact ih
  | seqCons _ _ ih ihRest | manyCons _ _ ih ihRest =>
    rw [leavesAll_append, forall_mem_append]
    exact ⟨ih, ihRest⟩
  | choice _ _ ih | present _ ih => exact ih
  | _ => exact forall_mem_nil _

/-- The phrases of derivations stand in the places of these. -/
theorem placed_of_derives {ts : List Token} {p : Pattern} {phrases : List Phrase}
    (covered : ∀ t ∈ ts, IsAt source (t.kind = .ident) t.span t.text) (derives : Derives ts p trees)
    (means : List.Forall₂ Means trees phrases) : Placed source trees phrases := by
  induction derives generalizing phrases with
  | literal | token =>
    obtain _ | ⟨⟨⟩, ⟨⟩⟩ := means
    exact placed_leaf _
  | rule body ih =>
    obtain _ | ⟨node, ⟨⟩⟩ := means
    obtain ⟨parts, each, composed⟩ := Means.node node
    have composes := composes_of_compose (shape_of_derives body each) composed
    refine (ih each).node composes ?_
    intro t mem
    rw [leaves] at mem
    exact covered t (mem_of_derives body t mem)
  | seqCons _ _ ih ihRest | manyCons _ _ ih ihRest =>
    obtain ⟨first, rest, rfl, left, right⟩ := forall₂_append_left means
    exact (ih left).append (ihRest right)
  | choice _ _ ih | present _ ih => exact ih means
  | _ =>
    cases means
    exact placed_nil

end Source.Phrase

/-! ## Sources -/

namespace Source

variable {file : String} {source : ByteArray} {schema : Schema}

/-- What is derived comes from the tokens. -/
theorem isFrom_of_derive {chars : List Char} {d : Derivation} (ok : derive file chars = .ok d) :
    ∃ ts last, Token.tokens file chars = .ok (ts ++ [last]) ∧ IsFrom .schema ts d := by
  obtain ⟨all, scanned, -⟩ := bind_ok_iff.mp ok
  have scanned := mapError_ok_iff.mp scanned
  obtain ⟨ts, last, rfl, lexemes, -⟩ := Token.lexemes_tokens scanned
  exact ⟨ts, last, scanned, isFrom_of_ofTokens lexemes ((derive_ok_iff scanned).mp ok)⟩

section

variable (ok : Schema.parse file source = .ok schema)

include ok

/-- A source that is read has a derivation that means its declarations, and the texts of the tokens
in it are found at their spans. -/
theorem derives_of_parse :
    ∃ chars ts last d, Octets.chars? source.toList = some chars ∧
      Token.tokens file chars = .ok (ts ++ [last]) ∧ Derives ts (.rule .schema) [d] ∧
      d.leaves = ts ∧ List.Forall₂ Phrase.Means [d] [.items schema.items] ∧
      schema.span = ⟨file, 0, source.size, 1, 1⟩ ∧
      ∀ t ∈ ts, Phrase.IsAt source.toList (t.kind = .ident) t.span t.text := by
  obtain ⟨-, chars, d, decoded, derived, read⟩ := parse_ok ok
  obtain ⟨ts, last, scanned, derives, leaves⟩ := isFrom_of_derive derived
  obtain ⟨_, _, same, lexemes, -⟩ := Token.lexemes_tokens scanned
  rw [← (append_inj' same rfl).1] at lexemes
  obtain ⟨phrase, means, ok⟩ := bind_ok_iff.mp read
  have each : List.Forall₂ Phrase.Means [d] [phrase] := .cons means .nil
  obtain ⟨_, same, is, rfl⟩ := Phrase.shape_of_derives derives each
  cases same
  cases ok
  refine ⟨chars, ts, last, d, decoded, scanned, derives, leaves, each, rfl, fun t mem => ?_⟩
  rw [← Octets.encode_chars decoded]
  exact ⟨Token.octets_tokens scanned mem, (lexemes t mem).isPart⟩

/-- The declarations of a source stand in it one after the other, and so do the spellings below
them. -/
theorem spelled_of_parse :
    schema.span = ⟨file, 0, source.size, 1, 1⟩ ∧
      NestedIn 0 source.size (schema.items.map Item.outline) ∧
      ∀ s ∈ schema.spellings, Phrase.IsAt source.toList (s.kind = .ident) s.span s.text := by
  obtain ⟨chars, ts, last, d, decoded, scanned, derives, leaves, means, span, covered⟩ :=
    derives_of_parse ok
  have row := Token.inRow_tokens scanned
  rw [Octets.encode_chars decoded, Octets.length_toList] at row
  have placed := Phrase.placed_of_derives covered derives means
  have nested := placed.nested 0 source.size
  rw [leavesAll_singleton, leaves, flatMap_singleton] at nested
  have spelled := placed.spelled
  rw [flatMap_singleton] at spelled
  exact ⟨span, nested (row.sublist filter_sublist), spelled⟩

/-- Declarations and spellings stand in the source where their spans say. -/
theorem placed_of_parse :
    schema.span = ⟨file, 0, source.size, 1, 1⟩ ∧
      NestedIn 0 source.size (schema.items.map Item.outline) ∧
      ∀ s ∈ schema.spellings, s.span.octets source.toList = Octets.ofString s.text := by
  obtain ⟨span, nested, spelled⟩ := spelled_of_parse ok
  exact ⟨span, nested, fun s mem => (spelled s mem).1⟩

end

/-- The spans of a source that is read.  Every node holds its children, one after the other; the
whole source is that of the schema; a walk, whatever it leaves out, never goes back; and the
identifiers, the built-in types and the integers that it comes to are found at their spans as they
are spelled. -/
theorem spans_of_parse {file : String} {source : ByteArray} {schema : Schema}
    (ok : Schema.parse file source = .ok schema) :
    (∀ o ∈ schema.outline.walk fun _ => false,
      (∀ child ∈ o.children, child.span.Within o.span) ∧
        o.children.Pairwise fun a b => a.span.stop ≤ b.span.start ∧ a.span.start < b.span.start) ∧
    schema.outline.span = ⟨file, 0, source.size, 1, 1⟩ ∧
    (∀ skip, (schema.outline.walk skip).Pairwise fun a b => a.span.start ≤ b.span.start) ∧
    marks [schema.outline] = schema.spellings.map Spelling.mark ∧
    ∀ s ∈ schema.spellings, s.span.octets source.toList = Octets.ofString s.text := by
  obtain ⟨span, inside, spelled⟩ := placed_of_parse ok
  have nested : schema.outline.Nested := by
    rw [nested_iff, Schema.outline, span, children, Outline.span, Span.stop, Nat.zero_add]
    exact inside
  refine ⟨?_, span, fun skip => (nested.walk _).1, marks_schema schema, spelled⟩
  intro o mem
  have below := nested_iff.mp ((nested.walk _).2 o mem).1
  refine ⟨?_, below.pairwise⟩
  intro child mem
  obtain ⟨after, -, within, -⟩ := below.forall child mem
  exact ⟨after, within⟩

/-- A documented map and a variant with an index, and comments with characters of two octets. -/
def commentedSource : ByteArray :=
  "/// Maße\nmessage M \x7b [string]a.K /* ä */ kinds; \x7d ".toUTF8 ++
    "enum E \x7b // ü\n 0x1: u8 on [bits(8)]; \x7d".toUTF8

theorem spans_of_parse_commented :
    ∃ schema, Schema.parse "use" commentedSource = .ok schema ∧
      schema.spellings.map Spelling.text =
        ["M", "string", "a", "K", "kinds", "E", "0x1", "u8", "on", "bits", "8"] ∧
      (∀ s ∈ schema.spellings, s.span.octets commentedSource.toList = Octets.ofString s.text) ∧
      schema.outline.span = ⟨"use", 0, commentedSource.size, 1, 1⟩ ∧
      ∀ o ∈ schema.outline.walk fun _ => false, ∀ child ∈ o.children, child.span.Within o.span := by
  have run : ∃ schema ∈ (Schema.parse "use" commentedSource).toOption,
      schema.spellings.map Spelling.text =
        ["M", "string", "a", "K", "kinds", "E", "0x1", "u8", "on", "bits", "8"] := by
    decide +kernel
  obtain ⟨schema, read, texts⟩ := run
  have ok := toOption_eq_some_iff.mp read
  obtain ⟨below, span, -, -, spelled⟩ := spans_of_parse ok
  exact ⟨schema, ok, texts, spelled, span, fun o mem => (below o mem).1⟩

end Source

end BitSchema
