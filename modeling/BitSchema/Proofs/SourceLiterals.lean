import BitSchema.Proofs.LiteralText
import BitSchema.Proofs.SourceSpans

/-!
# Literals of a source

A source that the grammar accepts is read if and only if its literals have values
(`Source.literals_of_parse`).  Parts are read from the left, in every production: what is reported
is the first fault among the tokens (`Phrase.Reads`).
-/

namespace BitSchema

open List BitSchema.Derivation

/-! ## Literals among tokens -/

namespace Token

open Source (LiteralFault IntLit)
open Source.Phrase (intValue? textValue?)

/-- The token is a literal that has a value, or no literal. -/
def hasValue (t : Token) : Bool :=
  match t.kind with
  | .int => (intValue? t.text).isSome
  | .string => (textValue? t.text).isSome
  | _ => true

/-- What is reported for a literal that has no value. -/
def fault (t : Token) : LiteralFault :=
  if t.kind = .int then .wideInt t.span t.text else .badEscape t.span

def fault? (t : Token) : Option LiteralFault := if t.hasValue then none else some t.fault

/-- The integer that a literal is read as. -/
def intLit? (t : Token) : Option IntLit :=
  if t.kind = .int then (intValue? t.text).map fun value => ⟨t.span, t.text, value⟩ else none

/-- The token is no literal. -/
def IsPlain (t : Token) : Prop := t.kind ≠ .int ∧ t.kind ≠ .string

theorem IsPlain.fault?_eq {t : Token} (plain : t.IsPlain) : t.fault? = none := by
  have value : t.hasValue = true := by
    unfold hasValue
    split
    next isInt => exact absurd isInt plain.1
    next isString => exact absurd isString plain.2
    next => rfl
  exact if_pos value

theorem IsPlain.intLit?_eq {t : Token} (plain : t.IsPlain) : t.intLit? = none := if_neg plain.1

end Token

/-! ## What a production asks for -/

namespace Pattern

mutual
/-- What a pattern asks of single tokens, productions aside. -/
def terminals : Pattern → List Terminal
  | .literal s => [.text s]
  | .token k => [.kind k]
  | .rule _ => []
  | .seq ps => terminalsOf ps
  | .choice ps => terminalsOf ps
  | .optional p => p.terminals
  | .many p => p.terminals
def terminalsOf : List Pattern → List Terminal
  | [] => []
  | p :: ps => p.terminals ++ terminalsOf ps
end

theorem mem_terminalsOf {p : Pattern} {ps : List Pattern} (mem : p ∈ ps) {x : Terminal}
    (asked : x ∈ p.terminals) : x ∈ terminalsOf ps := by
  induction ps with
  | nil => cases mem
  | cons q ps ih =>
    rw [terminalsOf, mem_append]
    rcases mem_cons.mp mem with rfl | later
    · exact .inl asked
    · exact .inr (ih later)

/-- The pattern asks for literals only by their productions. -/
def IsPlain (p : Pattern) : Prop :=
  ∀ x ∈ p.terminals, x.apart (.kind .int) = true ∧ x.apart (.kind .string) = true

theorem isPlain_body {r : Rule} (notInt : r ≠ .int) (notString : r ≠ .string) : r.body.IsPlain := by
  unfold IsPlain
  cases r with
  | int => exact absurd rfl notInt
  | string => exact absurd rfl notString
  | _ => decide

theorem IsPlain.token {p : Pattern} (plain : p.IsPlain) {x : Terminal} (asked : x ∈ p.terminals)
    {t : Token} (lexeme : t.IsLexeme) (accepted : x.Accepts t) : t.IsPlain := by
  have other : ∀ k, x.apart (.kind k) = true → t.kind ≠ k := by
    intro k apart same
    have kind : (Terminal.kind k).Accepts t := same
    exact Bool.eq_false_iff.mp (Terminal.apart_eq_false lexeme.isProper accepted kind) apart
  exact ⟨other _ (plain x asked).1, other _ (plain x asked).2⟩

end Pattern

/-! ## The integers of a schema -/

namespace Source

namespace Directive

mutual
def ints : Directive → List IntLit
  | ⟨_, _, none⟩ => []
  | ⟨_, _, some args⟩ => intsOf args
def intsOf : List Arg → List IntLit
  | [] => []
  | arg :: args => arg.ints ++ intsOf args
def Arg.ints : Arg → List IntLit
  | .int literal => [literal]
  | .call directive => directive.ints
end

theorem intsOf_eq (args : List Arg) : intsOf args = args.flatMap Arg.ints := by
  induction args with
  | nil => rfl
  | cons arg args ih => rw [intsOf, ih, flatMap_cons]

end Directive

def Field.ints (f : Field) : List IntLit := f.index.toList ++ f.directives.flatMap Directive.ints

def Variant.ints (v : Variant) : List IntLit :=
  v.index.toList ++
    match v.content with
    | .unit _ => []
    | .typed field => field.ints

def Enum.ints (e : Enum) : List IntLit := e.variants.flatMap Variant.ints

mutual
def Message.ints : Message → List IntLit
  | ⟨_, _, _, members⟩ => intsIn members
def intsIn : List Member → List IntLit
  | [] => []
  | m :: ms => m.ints ++ intsIn ms
def Member.ints : Member → List IntLit
  | .field f => f.ints
  | .message m => m.ints
  | .enum e => e.ints
end

theorem intsIn_eq (ms : List Member) : intsIn ms = ms.flatMap Member.ints := by
  induction ms with
  | nil => rfl
  | cons m ms ih => rw [intsIn, ih, flatMap_cons]

def Item.ints : Item → List IntLit
  | package _ => []
  | inclusion _ => []
  | message m => m.ints
  | enum e => e.ints

/-- The integers of a schema: the indices, and the arguments of directives. -/
def Schema.ints (s : Schema) : List IntLit := s.items.flatMap Item.ints

namespace Phrase

/-- The integers of what a phrase holds. -/
def ints : Phrase → List IntLit
  | .int i => [i]
  | .directive d => d.ints
  | .arg a => a.ints
  | .field f => f.ints
  | .variant v => v.ints
  | .member m => m.ints
  | .item i => i.ints
  | .items is => is.flatMap Item.ints
  | _ => []

theorem ints_documentItem (doc : Option String) (i : Item) :
    (documentItem doc i).ints = i.ints := by
  cases i with
  | message m => cases m; rfl
  | _ => rfl

theorem ints_documentMember (doc : Option String) (m : Member) :
    (documentMember doc m).ints = m.ints := by
  cases m with
  | message m => cases m; rfl
  | _ => rfl

theorem ints_asMember {p : Phrase} {m : Member} (same : p.asMember? = some m) :
    m.ints = p.ints := by
  unfold asMember? at same
  split at same <;> cases same <;> rfl

theorem ints_directive (span : Span) (name : Ident) (args : Option (List Directive.Arg)) :
    Directive.ints ⟨span, name, args⟩ = (args.getD []).flatMap Directive.Arg.ints := by
  cases args with
  | none => rfl
  | some args => rw [Directive.ints, Directive.intsOf_eq, Option.getD_some]

variable {span : Span} {parts : List Phrase} {phrase : Phrase}

/-- The integers of a phrase are those of its parts, unless it is an integer itself. -/
theorem Composes.ints_eq {r : Rule} (composes : Composes span parts r phrase) (other : r ≠ .int) :
    phrase.ints = parts.flatMap ints := by
  have read : ∀ ps, content parts = ps → parts.flatMap ints = ps.flatMap ints :=
    fun ps same => flatMap_of_content same fun _ => rfl
  cases composes with
  | schema same | typeName same => simp [read _ same, ints, flatMap_map]
  | decl same => simp [read _ same, ints, ints_documentItem]
  | package same => simp [read _ same, ints, Item.ints, flatMap_map]
  | inclusion same => simp [read _ same, ints, Item.ints]
  | message same =>
    simp [read _ same, ints, Item.ints, Message.ints, intsIn_eq, flatMap_map]
  | enum same => simp [read _ same, ints, Item.ints, Enum.ints, flatMap_map]
  | member same isMember => simp [read _ same, ints, ints_documentMember, ints_asMember isMember]
  | @field _ index _ _ _ _ same =>
    cases index <;> simp [read _ same, ints, Field.ints, flatMap_map]
  | @unitVariant _ index _ same => cases index <;> simp [read _ same, ints, Variant.ints]
  | @typedVariant _ index _ same =>
    cases index <;> simp [read _ same, ints, Variant.ints, Field.ints]
  | directive same => simp [read _ same, ints, ints_directive, flatMap_map]
  | intArg same | callArg same => simp [read _ same, ints, Directive.Arg.ints]
  | scalar same | ident same | string same => simp [same, ints]
  | int => exact absurd rfl other
  | array same | map same | named same | mapType same => simp [read _ same, ints]

end Phrase

end Source

/-! ## Reading derivations -/

/-- The error of a result. -/
def failure? {ε α : Type} : Except ε α → Option ε
  | .ok _ => none
  | .error e => some e

theorem failure?_eq_none_iff {ε α : Type} {x : Except ε α} :
    failure? x = none ↔ ∃ a, x = .ok a := by
  cases x <;> simp [failure?]

theorem failure?_eq_some_iff {ε α : Type} {x : Except ε α} {e : ε} :
    failure? x = some e ↔ x = .error e := by
  cases x <;> simp [failure?]

namespace Source.Phrase

theorem failure?_ofDerivations (done : List Phrase) (ds : List Derivation) :
    failure? (ofDerivations done ds) = ds.findSome? fun d => failure? (ofDerivation d) := by
  induction ds generalizing done with
  | nil => rfl
  | cons d ds ih =>
    rw [ofDerivations, findSome?_cons]
    cases ofDerivation d with
    | ok phrase => exact ih _
    | error fault => rfl

variable {r : Rule} {t : Token}

/-- Only the productions of literals can fail. -/
theorem failure?_compose (notInt : r ≠ .int) (notString : r ≠ .string) (span : Span)
    (parts : List Phrase) : failure? (compose r span parts) = none := by
  cases r with
  | int => exact absurd rfl notInt
  | string => exact absurd rfl notString
  | _ => rfl

/-- Derivations in a row fail with the first fault among their tokens, and the integers of their
phrases are those among their tokens. -/
structure Reads (trees : List Derivation) : Prop where
  fails : (trees.findSome? fun d => failure? (ofDerivation d)) =
    (leavesAll trees).findSome? Token.fault?
  ints : ∀ phrases, List.Forall₂ Means trees phrases →
    phrases.flatMap Phrase.ints = (leavesAll trees).filterMap Token.intLit?

theorem reads_nil : Reads [] where
  fails := rfl
  ints phrases means := by
    cases means
    rfl

theorem Reads.append {trees others : List Derivation} (first : Reads trees) (rest : Reads others) :
    Reads (trees ++ others) where
  fails := by
    rw [leavesAll_append, findSome?_append, findSome?_append, first.fails, rest.fails]
  ints phrases means := by
    obtain ⟨left, right, rfl, here, later⟩ := forall₂_append_left means
    rw [leavesAll_append, flatMap_append, filterMap_append,
      first.ints left here, rest.ints right later]

theorem reads_leaf (plain : t.IsPlain) : Reads [.leaf t] where
  fails := by
    simp [leavesAll, leaves, ofDerivation, failure?, plain.fault?_eq]
  ints phrases means := by
    obtain _ | ⟨⟨⟩, ⟨⟩⟩ := means
    simp [leavesAll, leaves, Phrase.ints, plain.intLit?_eq]

theorem Reads.node {children : List Derivation} {ts : List Token} (reads : Reads children)
    (derives : Derives ts r.body children) (notInt : r ≠ .int) (notString : r ≠ .string) :
    Reads [.node r children] where
  fails := by
    have inner := failure?_ofDerivations [] children
    rw [reads.fails] at inner
    rw [leavesAll_singleton, leaves, ← inner, findSome?_singleton, ofDerivation]
    cases ofDerivations [] children with
    | ok parts => exact failure?_compose notInt notString _ parts
    | error fault => rfl
  ints phrases means := by
    obtain _ | ⟨node, ⟨⟩⟩ := means
    obtain ⟨parts, each, composed⟩ := Means.node node
    have composes := composes_of_compose (shape_of_derives derives each) composed
    rw [leavesAll_singleton, leaves, flatMap_singleton,
      composes.ints_eq notInt, reads.ints parts each]

theorem leavesAll_literal (r : Rule) (t : Token) : leavesAll [.node r [.leaf t]] = [t] := by
  simp only [leavesAll, leaves, append_nil]

theorem reads_literal (kind : t.kind ≠ .doc)
    (fails : failure? (compose r t.span [.token t]) = t.fault?)
    (ints : ∀ p, compose r t.span [.token t] = .ok p → p.ints = t.intLit?.toList) :
    Reads [.node r [.leaf t]] := by
  have read : ofDerivation (.node r [.leaf t]) = compose r t.span [.token t] := by
    have sole : solid (node r [.leaf t]).leaves = [t] := by
      rw [← leavesAll_singleton, leavesAll_literal, solid_singleton kind]
    rw [← span_of_sole sole]
    rfl
  constructor
  · rw [leavesAll_literal, findSome?_singleton, findSome?_singleton, read, fails]
  · intro phrases means
    obtain _ | ⟨node, ⟨⟩⟩ := means
    rw [leavesAll_literal, flatMap_singleton, ints _ (read.symm.trans node)]
    cases found : t.intLit? <;> simp [found]

theorem reads_int (isInt : t.kind = .int) : Reads [.node .int [.leaf t]] := by
  apply reads_literal
  · simp [isInt]
  · rw [compose, Token.fault?, Token.hasValue, Token.fault, isInt]
    cases intValue? t.text <;> rfl
  · intro p ok
    obtain ⟨n, value, rfl⟩ := compose_int ok
    rw [Token.intLit?, if_pos isInt, value]
    rfl

theorem reads_string (isString : t.kind = .string) : Reads [.node .string [.leaf t]] := by
  apply reads_literal
  · simp [isString]
  · rw [compose, Token.fault?, Token.hasValue, Token.fault, isString]
    cases textValue? t.text <;> rfl
  · intro p ok
    obtain ⟨s, rfl⟩ := compose_string ok
    rw [Token.intLit?, if_neg (by simp [isString])]
    rfl

-- By induction on the derivation; literals stand below their own productions, and only there.
theorem reads_of_derives {ts : List Token} (lexemes : ∀ t ∈ ts, t.IsLexeme) {p : Pattern}
    {trees : List Derivation} (derives : Derives ts p trees) (plain : p.IsPlain) : Reads trees := by
  induction derives with
  | literal mem same | token mem same =>
    exact reads_leaf (plain.token (mem_singleton_self _) (lexemes _ mem) same)
  | @rule r trees body ih =>
    by_cases isInt : r = .int
    · subst isInt
      obtain _ | ⟨mem, kind⟩ := body
      exact reads_int kind
    · by_cases isString : r = .string
      · subst isString
        obtain _ | ⟨mem, kind⟩ := body
        exact reads_string kind
      · exact (ih (Pattern.isPlain_body isInt isString)).node body isInt isString
  | seqNil | absent | manyNil => exact reads_nil
  | seqCons _ _ ih ihRest =>
    refine (ih fun x asked => plain x ?_).append (ihRest fun x asked => plain x ?_)
    · exact mem_append_left _ asked
    · exact mem_append_right _ asked
  | choice mem _ ih => exact ih fun x asked => plain x (Pattern.mem_terminalsOf mem asked)
  | present _ ih => exact ih plain
  | manyCons _ _ ih ihRest => exact (ih plain).append (ihRest plain)

end Source.Phrase

/-! ## Sound literals -/

namespace Token

open Source (LiteralFault)
open Source.Phrase (intValue? textValue?)

/-- A literal stands for something: an integer for a number that fits in 64 bits, a string for text
with escapes that all are known. -/
structure IsSound (t : Token) : Prop where
  int : t.kind = .int → ∃ n, Numeral t.text.toList n ∧ n < 2 ^ 64
  string : t.kind = .string → ∃ body, t.text.toList = '"' :: (body ++ ['"']) ∧ Escaped body

variable {t : Token} {ts : List Token}

theorem isSome_intValue?_iff (lexeme : t.IsLexeme) (isInt : t.kind = .int) :
    (intValue? t.text).isSome = true ↔ ∃ n, Numeral t.text.toList n ∧ n < 2 ^ 64 := by
  constructor
  · intro found
    obtain ⟨n, numeral⟩ := numeral_of_lexeme lexeme isInt
    rw [intValue?_of_numeral numeral] at found
    exact ⟨n, numeral, by simpa using found⟩
  · rintro ⟨n, numeral, small⟩
    rw [intValue?_of_numeral numeral, if_pos small]
    rfl

theorem isSome_textValue?_iff (lexeme : t.IsLexeme) (isString : t.kind = .string) :
    (textValue? t.text).isSome = true ↔
      ∃ body, t.text.toList = '"' :: (body ++ ['"']) ∧ Escaped body := by
  have read : ∀ body, t.text.toList = '"' :: (body ++ ['"']) →
      textValue? t.text = Quoted.unescape body := by
    intro body text
    rw [textValue?, text, drop_one, tail_cons, dropLast_concat]
  constructor
  · intro found
    obtain ⟨body, text⟩ := quoted_of_lexeme lexeme isString
    rw [read body text] at found
    exact ⟨body, text, Quoted.isSome_unescape_iff.mp found⟩
  · rintro ⟨body, text, escaped⟩
    rw [read body text]
    exact Quoted.isSome_unescape_iff.mpr escaped

theorem hasValue_iff (lexeme : t.IsLexeme) : t.hasValue = true ↔ t.IsSound := by
  unfold hasValue
  split
  next isInt =>
    rw [isSome_intValue?_iff lexeme isInt]
    exact ⟨fun value => ⟨fun _ => value, by simp [isInt]⟩, fun sound => sound.int isInt⟩
  next isString =>
    rw [isSome_textValue?_iff lexeme isString]
    exact ⟨fun value => ⟨by simp [isString], fun _ => value⟩, fun sound => sound.string isString⟩
  next notInt notString =>
    have sound : t.IsSound :=
      ⟨fun isInt => absurd isInt notInt, fun isString => absurd isString notString⟩
    exact iff_of_true rfl sound

theorem numeral_of_intLit (lexeme : t.IsLexeme) {i : Source.IntLit} (found : t.intLit? = some i) :
    Numeral i.text.toList i.value.toNat := by
  obtain ⟨isInt, found⟩ := Option.ite_none_right_eq_some.mp found
  obtain ⟨value, read, rfl⟩ := Option.map_eq_some_iff.mp found
  obtain ⟨n, numeral⟩ := numeral_of_lexeme lexeme isInt
  rw [intValue?_of_numeral numeral] at read
  obtain ⟨small, same⟩ := Option.ite_none_right_eq_some.mp read
  cases same
  rw [UInt64.toNat_ofNat_of_lt' small]
  exact numeral

/-- If all literals have values, then all integers are read, at their places. -/
theorem places_of_hasValue (values : ∀ t ∈ ts, t.hasValue = true) :
    (ts.filterMap intLit?).map (fun i => (i.span, i.text)) =
      (ts.filter (·.kind = .int)).map fun t => (t.span, t.text) := by
  induction ts with
  | nil => rfl
  | cons t ts ih =>
    obtain ⟨here, others⟩ := forall_mem_cons.mp values
    by_cases isInt : t.kind = .int
    · rw [hasValue, isInt] at here
      obtain ⟨value, read⟩ := Option.isSome_iff_exists.mp here
      have found : t.intLit? = some ⟨t.span, t.text, value⟩ := by
        rw [intLit?, if_pos isInt, read]
        rfl
      simp [found, isInt, ih others]
    · have none : t.intLit? = none := if_neg isInt
      simp [none, isInt, ih others]

theorem InRow.le_start {lo hi : Nat} (row : InRow lo hi ts) : ∀ t ∈ ts, lo ≤ t.span.start := by
  intro t mem
  exact (row.sublist (singleton_sublist.mpr mem)).1

/-- The literal whose fault is found first, among tokens one after the other. -/
theorem first_of_fault {lo hi : Nat} (row : InRow lo hi ts) {f : LiteralFault}
    (found : ts.findSome? fault? = some f) :
    ∃ t ∈ ts, t.hasValue = false ∧ f = t.fault ∧
      ∀ u ∈ ts, u.span.start < t.span.start → u.hasValue = true := by
  obtain ⟨before, t, after, rfl, faulty, valued⟩ := findSome?_eq_some_iff.mp found
  obtain ⟨no, same⟩ := Option.ite_none_left_eq_some.mp faulty
  refine ⟨t, by simp, Bool.eq_false_iff.mpr no, (Option.some.inj same).symm, ?_⟩
  obtain ⟨mid, -, rest⟩ := inRow_append.mp row
  intro u mem earlier
  have notAfter : u ∉ t :: after := by
    obtain ⟨-, some, later⟩ := rest
    rintro (_ | ⟨_, here⟩)
    · exact Nat.lt_irrefl _ earlier
    · have := later.le_start u here
      omega
  have first := valued u ((mem_append.mp mem).resolve_right notAfter)
  by_contra no
  rw [fault?, if_neg no] at first
  cases first

end Token

namespace Source

theorem parse_eq {file : String} {source : ByteArray} {chars : List Char} {d : Derivation}
    (short : source.size ≤ maxLength) (decoded : Octets.chars? source.toList = some chars)
    (derived : derive file chars = .ok d) :
    Schema.parse file source =
      (Schema.ofDerivation ⟨file, 0, source.size, 1, 1⟩ d).mapError .literal := by
  unfold Schema.parse
  rw [if_neg (Nat.not_lt.mpr short)]
  simp only [decoded, derived]
  rfl

theorem failure?_ofDerivation (span : Span) (d : Derivation) :
    failure? (Schema.ofDerivation span d) = failure? (Phrase.ofDerivation d) := by
  unfold Schema.ofDerivation
  cases Phrase.ofDerivation d with
  | ok phrase => cases phrase <;> rfl
  | error fault => rfl

section

variable {ts : List Token} {d : Derivation}

theorem reads_of_isFrom (lexemes : ∀ t ∈ ts, t.IsLexeme) (isFrom : IsFrom .schema ts d) :
    Phrase.Reads [d] :=
  Phrase.reads_of_derives lexemes isFrom.1 (forall_mem_nil _)

theorem failure?_of_isFrom (lexemes : ∀ t ∈ ts, t.IsLexeme)
    (isFrom : IsFrom .schema ts d) (span : Span) :
    failure? (Schema.ofDerivation span d) = ts.findSome? Token.fault? := by
  have fails := (reads_of_isFrom lexemes isFrom).fails
  rw [leavesAll_singleton, isFrom.2, findSome?_singleton] at fails
  rw [failure?_ofDerivation, fails]

theorem ints_of_isFrom (lexemes : ∀ t ∈ ts, t.IsLexeme) (isFrom : IsFrom .schema ts d)
    {span : Span} {schema : Schema} (ok : Schema.ofDerivation span d = .ok schema) :
    schema.ints = ts.filterMap Token.intLit? := by
  obtain ⟨phrase, means, ok⟩ := bind_ok_iff.mp ok
  have each : List.Forall₂ Phrase.Means [d] [phrase] := .cons means .nil
  obtain ⟨_, same, is, rfl⟩ := Phrase.shape_of_derives isFrom.1 each
  cases same
  cases ok
  have ints := (reads_of_isFrom lexemes isFrom).ints _ each
  rw [leavesAll_singleton, isFrom.2, flatMap_singleton] at ints
  exact ints

end

/-- Literals of a source that the grammar accepts.  The source is read if and only if all of them
are sound.  The integers of the schema are then those of the source, in its order, and each has the
value that it denotes.  If not, the first literal that is unsound is reported. -/
theorem literals_of_parse {file : String} {source : ByteArray} {chars : List Char}
    {ts : List Token} {last : Token} (short : source.size ≤ maxLength)
    (decoded : Octets.chars? source.toList = some chars)
    (scanned : Token.tokens file chars = .ok (ts ++ [last]))
    (accepted : ∃ d, IsFrom .schema ts d) :
    ((∃ schema, Schema.parse file source = .ok schema) ↔ ∀ t ∈ ts, t.IsSound) ∧
    (∀ schema, Schema.parse file source = .ok schema →
      schema.ints.map (fun i => (i.span, i.text)) =
        (ts.filter (·.kind = .int)).map (fun t => (t.span, t.text)) ∧
      ∀ i ∈ schema.ints, Numeral i.text.toList i.value.toNat) ∧
    ∀ error, Schema.parse file source = .error error → ∃ t ∈ ts, ¬ t.IsSound ∧
      (∀ u ∈ ts, u.span.start < t.span.start → u.IsSound) ∧
      (error, error.code) =
        if t.kind = .int then (.literal (.wideInt t.span t.text), 1005)
        else (.literal (.badEscape t.span), 1006) := by
  obtain ⟨d, isFrom⟩ := accepted
  obtain ⟨all, ended, same, lexemes, isEnd⟩ := Token.lexemes_tokens scanned
  obtain ⟨rfl, tail⟩ := append_inj' same rfl
  cases tail
  have derived : derive file chars = .ok d :=
    (derive_ok_iff scanned).mpr (ofTokens_of_isFrom lexemes isEnd isFrom)
  have fails := failure?_of_isFrom lexemes isFrom ⟨file, 0, source.size, 1, 1⟩
  have valued : (∃ schema, Schema.ofDerivation ⟨file, 0, source.size, 1, 1⟩ d = .ok schema) ↔
      ∀ t ∈ ts, t.hasValue = true := by
    rw [← failure?_eq_none_iff, fails, findSome?_eq_none_iff]
    simp [Token.fault?]
  rw [parse_eq short decoded derived]
  simp only [mapError_ok_iff, mapError_error_iff]
  refine ⟨?_, ?_, ?_⟩
  · rw [valued]
    exact forall₂_congr fun t mem => Token.hasValue_iff (lexemes t mem)
  · intro schema ok
    rw [ints_of_isFrom lexemes isFrom ok]
    refine ⟨Token.places_of_hasValue (valued.mp ⟨schema, ok⟩), ?_⟩
    intro i mem
    obtain ⟨t, inside, found⟩ := mem_filterMap.mp mem
    exact Token.numeral_of_intLit (lexemes t inside) found
  · rintro error ⟨f, failed, rfl⟩
    rw [failure?_eq_some_iff.mpr failed] at fails
    obtain ⟨t, mem, no, rfl, first⟩ := Token.first_of_fault (Token.inRow_tokens scanned) fails.symm
    refine ⟨t, mem, ?_, ?_, ?_⟩
    · rw [← Token.hasValue_iff (lexemes t mem), no]
      simp
    · intro u inside earlier
      exact (Token.hasValue_iff (lexemes u inside)).mp (first u inside earlier)
    · rw [Token.fault]
      split <;> rfl

/-- Three literals that are unsound, the first of them an argument of a directive within another,
after sound ones of many spellings. -/
def faultySource : ByteArray :=
  "include \"\\x41\\101\\u00e9\"; ".toUTF8 ++
    "enum E \x7b 007: u8 on [f(0xFf, g(18446744073709551616))]; \x7d".toUTF8 ++
    " message M \x7b 99999999999999999999: u8 a; \x7d include \"\\q\";".toUTF8

theorem literals_of_parse_nested :
    ∃ chars ts last, faultySource.size ≤ maxLength ∧
      Octets.chars? faultySource.toList = some chars ∧
      Token.tokens "use" chars = .ok (ts ++ [last]) ∧
      (∃ d, IsFrom .schema ts d) ∧
      (¬ ∀ t ∈ ts, t.IsSound) ∧
      ∃ t ∈ ts, ¬ t.IsSound ∧ t.span = ⟨"use", 57, 20, 1, 58⟩ ∧
        (∀ u ∈ ts, u.span.start < t.span.start → u.IsSound) ∧
        Schema.parse "use" faultySource = .error (.literal (.wideInt t.span t.text)) := by
  have short : faultySource.size ≤ maxLength := by decide +kernel
  have run : ∃ chars ∈ Octets.chars? faultySource.toList,
      (derive "use" chars).toOption.isSome = true := by
    decide +kernel
  have fails : ∃ error ∈ failure? (Schema.parse "use" faultySource),
      error.code = 1005 ∧ error.span = ⟨"use", 57, 20, 1, 58⟩ := by
    decide +kernel
  obtain ⟨chars, decoded, found⟩ := run
  obtain ⟨d, found⟩ := Option.isSome_iff_exists.mp found
  obtain ⟨ts, last, scanned, isFrom⟩ := isFrom_of_derive (toOption_eq_some_iff.mp found)
  obtain ⟨error, failed, code, span⟩ := fails
  have failed := failure?_eq_some_iff.mp failed
  obtain ⟨-, -, reported⟩ := literals_of_parse short decoded scanned ⟨d, isFrom⟩
  obtain ⟨t, mem, unsound, first, same⟩ := reported error failed
  refine ⟨chars, ts, last, short, decoded, scanned, ⟨d, isFrom⟩,
    fun sound => unsound (sound t mem), t, mem, unsound, ?_⟩
  split at same
  next =>
      obtain ⟨rfl, -⟩ := Prod.mk.inj same
      exact ⟨span, first, failed⟩
  next =>
      obtain ⟨-, other⟩ := Prod.mk.inj same
      rw [code] at other
      cases other

end Source

end BitSchema
