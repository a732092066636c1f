import BitSchema.Proofs.Lexemes
import BitSchema.Source.Derivation

/-!
# Lookahead

A pattern takes whole sentences, or breaks off after the beginning of one (`Pattern.Takes`).  In
both cases the first few tokens are among its heads, which can be computed (`Pattern.heads`).

Keywords are identifiers too, and several alternatives of the grammar start alike.  Three tokens are
enough to tell them apart: `Pattern.givesWay` checks that by comparing heads, and
`Pattern.Takes.of_givesWay` says what follows for the tokens that an alternative takes in vain.
-/

namespace BitSchema

open List

/-! ## Terminals -/

/-- The texts that the grammar asks for, with the kind of the lexemes that have them. -/
def Token.literals : List (String × Token.Kind) :=
  [("package", .ident), ("include", .ident), ("message", .ident), ("enum", .ident),
    (".", .punct), (",", .punct), (";", .punct), (":", .punct), ("\x7b", .punct), ("\x7d", .punct),
    ("(", .punct), (")", .punct), ("[", .punct), ("]", .punct)]

/-- If the grammar asks for the text of this token, then the token has the kind of such lexemes. -/
def Token.IsProper (t : Token) : Prop := ∀ l ∈ literals, t.text = l.1 → t.kind = l.2

theorem Token.start_of_mem_literals {l : String × Kind} (mem : l ∈ literals) :
    l.1.toList.head?.bind kindOfStart = some l.2 := by
  revert l
  simp [literals, kindOfStart, isIdentStart, isPunct]

variable {t : Token}

theorem Token.IsLexeme.isProper (lexeme : t.IsLexeme) : t.IsProper := by
  intro l mem same
  have start := start_of_mem_literals mem
  rw [← same] at start
  obtain ⟨c, first, starts⟩ := Option.bind_eq_some_iff.mp start
  obtain ⟨cs, text⟩ := head?_eq_some_iff.mp first
  exact lexeme.kind_eq text starts

theorem Token.IsEnd.isProper (ended : t.IsEnd) : t.IsProper := by
  intro l mem same
  have start := start_of_mem_literals mem
  rw [← same, ended.2] at start
  cases start

/-- What a pattern asks of one token. -/
inductive Terminal where
  | text (text : String)
  | kind (kind : Token.Kind)
  deriving DecidableEq

namespace Terminal

def Accepts : Terminal → Token → Prop
  | text s, t => t.text = s
  | kind k, t => t.kind = k

/-- The lexemes of a kind do not have this text. -/
def differs (s : String) (k : Token.Kind) : Bool := Token.literals.any fun l => l.1 = s && l.2 ≠ k

/-- No token is accepted by both. -/
def apart : Terminal → Terminal → Bool
  | text s, text s' => s ≠ s'
  | kind k, kind k' => k ≠ k'
  | text s, kind k => differs s k
  | kind k, text s => differs s k

variable {t : Token}

theorem kind_ne_of_differs (proper : t.IsProper) {k : Token.Kind}
    (other : differs t.text k = true) : t.kind ≠ k := by
  obtain ⟨l, mem, both⟩ := any_eq_true.mp other
  simp only [Bool.and_eq_true, decide_eq_true_eq] at both
  rw [proper l mem both.1.symm]
  exact both.2

theorem apart_eq_false (proper : t.IsProper) {x y : Terminal} (left : x.Accepts t)
    (right : y.Accepts t) : x.apart y = false := by
  cases x with
  | text s =>
    cases left
    cases y with
    | text s' =>
      cases right
      simp [apart]
    | kind k =>
      rw [apart, Bool.eq_false_iff]
      exact fun other => kind_ne_of_differs proper other right
  | kind k =>
    cases y with
    | text s =>
      cases right
      rw [apart, Bool.eq_false_iff]
      exact fun other => kind_ne_of_differs proper other left
    | kind k' =>
      cases left
      cases right
      simp [apart]

end Terminal

/-! ## Heads -/

/-- How a run of tokens starts: with these terminals, and nothing after them if it is `whole`. -/
structure Head where
  terminals : List Terminal
  whole : Bool
  deriving DecidableEq

namespace Head

/-- Nothing is known of the run. -/
def unknown : Head := ⟨[], false⟩

/-- The run has no tokens. -/
def empty : Head := ⟨[], true⟩

/-- The heads of two runs in a row, as far as `k` terminals.  `next` gives the heads of the second,
as far as some number of terminals. -/
def before (h : Head) (k : Nat) (next : Nat → List Head) : List Head :=
  if h.whole then
    (next (k - h.terminals.length)).map fun h' => ⟨h.terminals ++ h'.terminals, h'.whole⟩
  else [h]

/-- The tokens start with these terminals, and end there if they are the `whole`. -/
def Opens (whole : Bool) : List Terminal → List Token → Prop
  | [], ts => whole = true → ts = []
  | _ :: _, [] => False
  | x :: xs, t :: ts => x.Accepts t ∧ Opens whole xs ts

/-- The tokens start as the head says. -/
def Fits (h : Head) (ts : List Token) : Prop := Opens h.whole h.terminals ts

variable {xs : List Terminal} {ts : List Token}

variable {whole : Bool} {ys : List Terminal} {us : List Token}

theorem opens_append (first : Opens true xs ts) (next : Opens whole ys us) :
    Opens whole (xs ++ ys) (ts ++ us) := by
  induction xs generalizing ts with
  | nil =>
    cases first rfl
    exact next
  | cons x xs ih =>
    cases ts with
    | nil => cases first
    | cons t ts => exact ⟨first.1, ih first.2⟩

theorem Opens.length_eq (opens : Opens true xs ts) : xs.length = ts.length := by
  induction xs generalizing ts with
  | nil =>
    cases opens rfl
    rfl
  | cons x xs ih =>
    cases ts with
    | nil => cases opens
    | cons t ts => rw [length_cons, length_cons, ih opens.2]

/-- What comes after a run does not change how it starts. -/
theorem Opens.extend (opens : Opens whole xs ts) (us : List Token) : Opens false xs (ts ++ us) := by
  induction xs generalizing ts with
  | nil =>
    intro absurd
    cases absurd
  | cons x xs ih =>
    cases ts with
    | nil => cases opens
    | cons t ts => exact ⟨opens.1, ih opens.2⟩

theorem fits_unknown (ts : List Token) : unknown.Fits ts := by
  intro absurd
  cases absurd

/-- The first run starts as `h` says, and so does the first run with the next one after it. -/
theorem Fits.before {h : Head} {k : Nat} {next : Nat → List Head} (fits : h.Fits ts)
    (rest : ∃ h' ∈ next (k - ts.length), h'.Fits us) :
    ∃ h' ∈ h.before k next, h'.Fits (ts ++ us) := by
  obtain ⟨terminals, whole⟩ := h
  cases whole with
  | false => exact ⟨_, mem_singleton_self _, Opens.extend fits us⟩
  | true =>
    obtain ⟨h', mem, fits'⟩ := rest
    rw [← Opens.length_eq fits] at mem
    exact ⟨_, mem_map_of_mem mem, opens_append fits fits'⟩

/-- Two heads differ in one of the terminals that both have. -/
def apart : List Terminal → List Terminal → Bool
  | x :: xs, y :: ys => x.apart y || apart xs ys
  | _, _ => false

theorem apart_eq_false {left right : Bool} (proper : ∀ t ∈ ts, t.IsProper)
    (opens : Opens left xs ts) (opens' : Opens right ys ts) : apart xs ys = false := by
  induction xs generalizing ys ts with
  | nil => rfl
  | cons x xs ih =>
    cases ys with
    | nil => rfl
    | cons y ys =>
      cases ts with
      | nil => cases opens
      | cons t ts =>
        rw [forall_mem_cons] at proper
        rw [apart, Terminal.apart_eq_false proper.1 opens.1 opens'.1, ih proper.2 opens.2 opens'.2]
        rfl

end Head

/-! ## Derivations -/

/-- Derivations in a row that a pattern allows, with leaves among the tokens. -/
inductive Derives (tokens : List Token) : Pattern → List Derivation → Prop where
  | literal {t : Token} {text : String} : t ∈ tokens → t.text = text →
    Derives tokens (.literal text) [.leaf t]
  | token {t : Token} {kind : Token.Kind} : t ∈ tokens → t.kind = kind →
    Derives tokens (.token kind) [.leaf t]
  | rule {r : Rule} {trees : List Derivation} : Derives tokens r.body trees →
    Derives tokens (.rule r) [.node r trees]
  | seqNil : Derives tokens (.seq []) []
  | seqCons {p : Pattern} {ps : List Pattern} {first rest : List Derivation} :
    Derives tokens p first → Derives tokens (.seq ps) rest →
    Derives tokens (.seq (p :: ps)) (first ++ rest)
  | choice {p : Pattern} {ps : List Pattern} {trees : List Derivation} : p ∈ ps →
    Derives tokens p trees → Derives tokens (.choice ps) trees
  | absent {p : Pattern} : Derives tokens (.optional p) []
  | present {p : Pattern} {trees : List Derivation} : Derives tokens p trees →
    Derives tokens (.optional p) trees
  | manyNil {p : Pattern} : Derives tokens (.many p) []
  | manyCons {p : Pattern} {first rest : List Derivation} : Derives tokens p first →
    Derives tokens (.many p) rest → Derives tokens (.many p) (first ++ rest)

@[simp]
theorem Derivation.leavesAll_append (ds es : List Derivation) :
    leavesAll (ds ++ es) = leavesAll ds ++ leavesAll es := by
  induction ds with
  | nil => rfl
  | cons d ds ih => rw [cons_append, leavesAll, leavesAll, ih, append_assoc]

@[simp]
theorem Derivation.leavesAll_singleton (d : Derivation) : leavesAll [d] = d.leaves := by
  rw [leavesAll, leavesAll, append_nil]

namespace Pattern

/-! ## The tokens that a pattern takes -/

/-- The tokens that a pattern may take: all of a sentence if it is `whole`, and otherwise those
before the place where it breaks off. -/
inductive Takes : Pattern → List Token → Bool → Prop where
  | nothing {p : Pattern} : Takes p [] false
  | literal {t : Token} : Takes (.literal t.text) [t] true
  | token {t : Token} : Takes (.token t.kind) [t] true
  | rule {r : Rule} {ts : List Token} {whole : Bool} : Takes r.body ts whole →
    Takes (.rule r) ts whole
  | seqNil : Takes (.seq []) [] true
  | seqStop {p : Pattern} {ps : List Pattern} {ts : List Token} : Takes p ts false →
    Takes (.seq (p :: ps)) ts false
  | seqCons {p : Pattern} {ps : List Pattern} {ts us : List Token} {whole : Bool} :
    Takes p ts true → Takes (.seq ps) us whole → Takes (.seq (p :: ps)) (ts ++ us) whole
  | choice {p : Pattern} {ps : List Pattern} {ts : List Token} {whole : Bool} : p ∈ ps →
    Takes p ts whole → Takes (.choice ps) ts whole
  | absent {p : Pattern} : Takes (.optional p) [] true
  | present {p : Pattern} {ts : List Token} {whole : Bool} : Takes p ts whole →
    Takes (.optional p) ts whole
  | manyNil {p : Pattern} : Takes (.many p) [] true
  | manyStop {p : Pattern} {ts : List Token} : Takes p ts false → Takes (.many p) ts false
  | manyCons {p : Pattern} {ts us : List Token} {whole : Bool} :
    Takes p ts true → Takes (.many p) us whole → Takes (.many p) (ts ++ us) whole

variable {p : Pattern} {ts us : List Token} {k : Nat} {hs : List Head}

theorem takes_of_derives {tokens : List Token} {trees : List Derivation}
    (derives : Derives tokens p trees) : Takes p (Derivation.leavesAll trees) true := by
  induction derives with
  | literal _ same =>
    cases same
    exact .literal
  | token _ same =>
    cases same
    exact .token
  | rule _ ih =>
    rw [Derivation.leavesAll_singleton, Derivation.leaves]
    exact .rule ih
  | seqNil => exact .seqNil
  | seqCons _ _ first rest =>
    rw [Derivation.leavesAll_append]
    exact .seqCons first rest
  | choice mem _ ih => exact .choice mem ih
  | absent => exact .absent
  | present _ ih => exact .present ih
  | manyNil => exact .manyNil
  | manyCons _ _ first rest =>
    rw [Derivation.leavesAll_append]
    exact .manyCons first rest

/-! ## The heads of a pattern -/

/-- The heads of what a pattern takes, as far as `k` terminals.  Nothing is known of what stands
more than `depth` patterns deep. -/
def heads : Nat → Nat → Pattern → List Head
  | 0, _, _ => [.unknown]
  | _, 0, _ => [.unknown]
  | _ + 1, _ + 1, literal text => [⟨[.text text], true⟩]
  | _ + 1, _ + 1, token kind => [⟨[.kind kind], true⟩]
  | depth + 1, k + 1, rule r => heads depth (k + 1) r.body
  | _ + 1, _ + 1, seq [] => [.empty]
  | depth + 1, k + 1, seq (p :: ps) =>
    (heads depth (k + 1) p).flatMap (·.before (k + 1) fun j => heads depth j (seq ps))
  | depth + 1, k + 1, choice ps => ps.flatMap (heads depth (k + 1))
  | depth + 1, k + 1, optional p => .empty :: heads depth (k + 1) p
  | depth + 1, k + 1, many p =>
    .empty :: (heads depth (k + 1) p).flatMap (·.before (k + 1) fun j => heads depth j (many p))

/-- The tokens start like one of the heads. -/
def StartsIn (hs : List Head) (ts : List Token) : Prop := ∃ h ∈ hs, h.Fits ts

theorem startsIn_heads_of_succ {depth : Nat}
    (step : ∀ depth' k', depth = depth' + 1 → k = k' + 1 → StartsIn (heads (depth' + 1) (k' + 1) p)
      ts) : StartsIn (heads depth k p) ts := by
  cases depth with
  | zero =>
    rw [heads]
    exact ⟨_, mem_singleton_self _, Head.fits_unknown ts⟩
  | succ depth =>
    cases k with
    | zero =>
      rw [heads]
      · exact ⟨_, mem_singleton_self _, Head.fits_unknown ts⟩
      · simp
    | succ k => exact step depth k rfl rfl

variable {next : Nat → List Head} {whole : Bool} {follow : List Head}

theorem startsIn_before (first : StartsIn hs ts) (rest : StartsIn (next (k - ts.length)) us) :
    StartsIn (hs.flatMap (·.before k next)) (ts ++ us) := by
  obtain ⟨h, mem, fits⟩ := first
  obtain ⟨h', mem', fits'⟩ := fits.before rest
  exact ⟨h', mem_flatMap.mpr ⟨h, mem, mem'⟩, fits'⟩

theorem StartsIn.cons (h : Head) (starts : StartsIn hs ts) : StartsIn (h :: hs) ts := by
  obtain ⟨h', mem, fits⟩ := starts
  exact ⟨h', mem_cons_of_mem h mem, fits⟩

/-- A pattern broke off after `k` tokens or more, so what comes after it is not asked for. -/
theorem startsIn_before_stopped (first : StartsIn hs ts) (long : k ≤ ts.length)
    (unknown : .unknown ∈ next 0) : StartsIn (hs.flatMap (·.before k next)) ts := by
  have rest : StartsIn (next (k - ts.length)) [] := by
    rw [Nat.sub_eq_zero_of_le long]
    exact ⟨_, unknown, Head.fits_unknown []⟩
  have both := startsIn_before first rest
  rwa [append_nil] at both

theorem unknown_mem_heads (depth : Nat) (p : Pattern) : .unknown ∈ heads depth 0 p := by
  cases depth with
  | zero =>
    rw [heads]
    exact mem_singleton_self _
  | succ depth =>
    rw [heads]
    · exact mem_singleton_self _
    · simp

/-- What a pattern takes starts like one of its heads, unless it broke off before `k` tokens. -/
theorem startsIn_heads (takes : Takes p ts whole) (depth k : Nat)
    (long : whole = true ∨ k ≤ ts.length) : StartsIn (heads depth k p) ts := by
  -- With no depth or no tokens asked for, every sentence fits the unknown head.
  induction takes generalizing depth k with
    (apply startsIn_heads_of_succ; rintro depth k rfl rfl)
  | nothing =>
    simp at long
  | literal =>
    exact ⟨_, mem_singleton_self _, rfl, fun _ => rfl⟩
  | token =>
    exact ⟨_, mem_singleton_self _, rfl, fun _ => rfl⟩
  | rule _ ih =>
    exact ih depth (k + 1) long
  | seqNil =>
    exact ⟨_, mem_singleton_self _, fun _ => rfl⟩
  | seqStop _ ih =>
    rcases long with absurd | long
    · cases absurd
    · exact startsIn_before_stopped (ih depth (k + 1) (.inr long)) long (unknown_mem_heads _ _)
  | @seqCons p ps ts us whole _ _ first rest =>
    refine startsIn_before (first depth (k + 1) (.inl rfl)) (rest depth _ (long.imp_right ?_))
    rw [length_append]
    omega
  | choice mem _ ih =>
    obtain ⟨h, memHeads, fits⟩ := ih depth (k + 1) long
    exact ⟨h, mem_flatMap.mpr ⟨_, mem, memHeads⟩, fits⟩
  | absent =>
    exact ⟨_, mem_cons_self, fun _ => rfl⟩
  | present _ ih =>
    exact (ih depth (k + 1) long).cons .empty
  | manyNil =>
    exact ⟨_, mem_cons_self, fun _ => rfl⟩
  | manyStop _ ih =>
    rcases long with absurd | long
    · cases absurd
    · refine StartsIn.cons .empty ?_
      exact startsIn_before_stopped (ih depth (k + 1) (.inr long)) long (unknown_mem_heads _ _)
  | @manyCons p ts us whole _ _ first rest =>
    refine StartsIn.cons .empty ?_
    refine startsIn_before (first depth (k + 1) (.inl rfl)) (rest depth _ (long.imp_right ?_))
    rw [length_append]
    omega

/-- The patterns of the grammar are known to this depth. -/
def depth : Nat := 32

/-- A sentence of the pattern may be empty. -/
def isNullable (p : Pattern) : Bool := (heads depth 1 p).any (·.terminals.isEmpty)

theorem Takes.isNullable (takes : Takes p [] true) : p.isNullable = true := by
  obtain ⟨⟨terminals, whole⟩, mem, fits⟩ := startsIn_heads takes depth 1 (.inl rfl)
  rw [Pattern.isNullable, any_eq_true]
  refine ⟨_, mem, ?_⟩
  cases terminals with
  | nil => rfl
  | cons x xs => cases fits

/-! ## Telling patterns apart -/

/-- The heads of a sentence together with what follows it. -/
def followed (k : Nat) (follow : List Head) (p : Pattern) : List Head :=
  (heads depth k p).flatMap (·.before k fun j => if j = 0 then [.unknown] else follow)

theorem startsIn_followed (sentence : Takes p ts true) (next : StartsIn follow us) (k : Nat) :
    StartsIn (followed k follow p) (ts ++ us) := by
  apply startsIn_before (startsIn_heads sentence depth k (.inl rfl))
  split
  · exact ⟨_, mem_singleton_self _, Head.fits_unknown us⟩
  · exact next

/-- What `p` takes differs within three tokens from the sentences of `q` and what follows them. -/
def givesWay (follow : List Head) (p q : Pattern) : Bool :=
  [1, 2, 3].any fun k => (heads depth k p).all fun h =>
    (followed k follow q).all fun h' => Head.apart h.terminals h'.terminals

/-- Before a sentence of `q`, the pattern `p` does not match, and it breaks off soon. -/
theorem Takes.of_givesWay {q : Pattern} {vs : List Token} (takes : Takes p vs whole)
    (gives : givesWay follow p q = true) (sentence : Takes q ts true) (next : StartsIn follow us)
    (proper : ∀ t ∈ ts ++ us, t.IsProper) (starts : vs <+: ts ++ us) :
    whole = false ∧ vs.length < 3 := by
  obtain ⟨k, mem, apart⟩ := any_eq_true.mp gives
  have small : ∀ k ∈ [1, 2, 3], k ≤ 3 := by decide
  by_contra other
  have long : whole = true ∨ k ≤ vs.length := by
    rw [not_and_or, Bool.not_eq_false, Nat.not_lt] at other
    exact other.imp_right (Nat.le_trans (small k mem))
  obtain ⟨h, memHead, fits⟩ := startsIn_heads takes depth k long
  obtain ⟨h', memHead', fits'⟩ := startsIn_followed sentence next k
  obtain ⟨rest, same⟩ := starts
  have opens : Head.Opens false h.terminals (ts ++ us) := by
    rw [← same]
    exact Head.Opens.extend fits rest
  have differ := all_eq_true.mp (all_eq_true.mp apart h memHead) h' memHead'
  rw [Head.apart_eq_false proper opens fits'] at differ
  cases differ

end Pattern

end BitSchema
