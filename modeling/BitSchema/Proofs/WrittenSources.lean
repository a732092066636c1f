import BitSchema.Proofs.OrderedChoice
import BitSchema.Proofs.PhraseShapes

/-!
# Sources that are written down

What is scanned and read of a source is put together from what is scanned and read of its parts.
`Takes` says which words a scan takes from the front of some characters, wherever they stand, and
`Parsed` says which phrases the tokens of a pattern stand for.  Both leave open where tokens stand.
-/

namespace BitSchema

open List

/-! ## Scanning in stretches -/

namespace Token

/-- A token without its place. -/
def word (t : Token) : Kind × String := (t.kind, t.text)

/-- The words of the lexemes that a scan has come past; `done` holds the last one first. -/
def wordsOf (done : List Token) : List (Kind × String) := (done.reverse.filter isKept).map word

/-- From `cs` on, a scan takes these words in `n` lexemes and leaves `rest`. -/
def Takes (n : Nat) (cs : List Char) (words : List (Kind × String)) (rest : List Char) : Prop :=
  ∀ file fuel done p, ∃ done' p',
    scanFrom file (fuel + n) done p cs = scanFrom file fuel done' p' rest ∧
      wordsOf done' = wordsOf done ++ words

variable {rest w : List Char} {kind : Kind}

theorem Takes.trans {n m : Nat} {cs mid : List Char} {words more : List (Kind × String)}
    (first : Takes n cs words mid) (second : Takes m mid more rest) :
    Takes (m + n) cs (words ++ more) rest := by
  intro file fuel done p
  obtain ⟨done', p', scanned, same⟩ := first file (fuel + m) done p
  obtain ⟨done'', p'', scanned', same'⟩ := second file fuel done' p'
  refine ⟨done'', p'', ?_, ?_⟩
  · rw [← Nat.add_assoc, scanned, scanned']
  · rw [same', same, append_assoc]

theorem scanFrom_lexeme (found : lexeme? (w ++ rest) = some (kind, w.length)) (file : String)
    (fuel : Nat) (done : List Token) (p : Position) :
    scanFrom file (fuel + 1) done p (w ++ rest) =
      scanFrom file fuel (⟨kind, String.ofList w, p.span file w⟩ :: done) (p.advance w) rest := by
  rw [scanFrom]
  · simp [found]
  · intro none
    rw [none] at found
    cases found

theorem takes_word (found : lexeme? (w ++ rest) = some (kind, w.length))
    (kept : kind ≠ .blank ∧ kind ≠ .comment) :
    Takes 1 (w ++ rest) [(kind, String.ofList w)] rest := by
  intro file fuel done p
  refine ⟨_, _, scanFrom_lexeme found file fuel done p, ?_⟩
  have keep : isKept ⟨kind, String.ofList w, p.span file w⟩ = true := by simp [isKept, kept]
  rw [wordsOf, reverse_cons, filter_append, map_append, filter_cons_of_pos keep]
  rfl

theorem takes_blank (found : lexeme? (w ++ rest) = some (.blank, w.length)) :
    Takes 1 (w ++ rest) [] rest := by
  intro file fuel done p
  refine ⟨_, _, scanFrom_lexeme found file fuel done p, ?_⟩
  rw [wordsOf, reverse_cons, filter_append, map_append]
  rfl

end Token

/-! ## Reading what was scanned -/

namespace Source.Phrase

/-- The tokens are derived from a pattern, and their derivations stand for these phrases. -/
def Parsed (p : Pattern) (ts : List Token) (phrases : List Phrase) : Prop :=
  ∃ trees, Derivation.leavesAll trees = ts ∧ Derives ts p trees ∧ List.Forall₂ Means trees phrases

theorem ofDerivations_of_means {ds : List Derivation} {own : List Phrase}
    (means : List.Forall₂ Means ds own) (done : List Phrase) :
    ofDerivations done ds = .ok (done.reverse ++ own) := by
  induction means generalizing done with
  | nil => rw [ofDerivations, append_nil]
  | @cons d p ds own here _ ih =>
    have here : ofDerivation d = .ok p := here
    rw [ofDerivations, here]
    simp [ih]

namespace Parsed

variable {p : Pattern} {ps : List Pattern} {ts us : List Token} {phrases more : List Phrase}

variable {t : Token}

theorem literal {text : String} (same : t.text = text) : Parsed (.literal text) [t] [.token t] :=
  ⟨[.leaf t], rfl, .literal mem_cons_self same, .cons rfl .nil⟩

theorem token {kind : Token.Kind} (same : t.kind = kind) : Parsed (.token kind) [t] [.token t] :=
  ⟨[.leaf t], rfl, .token mem_cons_self same, .cons rfl .nil⟩

theorem append {q r : Pattern} (join : ∀ {ts : List Token} {first rest : List Derivation},
      Derives ts p first → Derives ts q rest → Derives ts r (first ++ rest))
    (first : Parsed p ts phrases) (rest : Parsed q us more) :
    Parsed r (ts ++ us) (phrases ++ more) := by
  obtain ⟨trees, rfl, derives, means⟩ := first
  obtain ⟨others, rfl, derives', means'⟩ := rest
  refine ⟨trees ++ others, Derivation.leavesAll_append _ _, join ?_ ?_,
    rel_append means means'⟩
  · exact derives.of_leaves fun t => mem_append_left _
  · exact derives'.of_leaves fun t => mem_append_right _

theorem cons (first : Parsed p ts phrases) (rest : Parsed (.seq ps) us more) :
    Parsed (.seq (p :: ps)) (ts ++ us) (phrases ++ more) :=
  append .seqCons first rest

theorem last (parsed : Parsed p ts phrases) : Parsed (.seq [p]) ts phrases := by
  have none : Parsed (.seq []) [] [] := ⟨[], rfl, .seqNil, .nil⟩
  simpa using parsed.cons none

theorem choice (parsed : Parsed p ts phrases) (mem : p ∈ ps) : Parsed (.choice ps) ts phrases := by
  obtain ⟨trees, leaves, derives, means⟩ := parsed
  exact ⟨trees, leaves, .choice mem derives, means⟩

theorem absent (p : Pattern) : Parsed (.optional p) [] [] := ⟨[], rfl, .absent, .nil⟩

theorem never (p : Pattern) : Parsed (.many p) [] [] := ⟨[], rfl, .manyNil, .nil⟩

theorem again (first : Parsed p ts phrases) (rest : Parsed (.many p) us more) :
    Parsed (.many p) (ts ++ us) (phrases ++ more) :=
  append .manyCons first rest

/-- What a production stands for is composed of what its body does. -/
theorem rule {r : Rule} (body : Parsed r.body ts phrases) :
    ∃ span, ∀ phrase, compose r span phrases = .ok phrase → Parsed (.rule r) ts [phrase] := by
  obtain ⟨trees, leaves, derives, means⟩ := body
  refine ⟨(Derivation.node r trees).span, fun phrase composed =>
    ⟨[.node r trees], ?_, .rule derives, .cons ?_ .nil⟩⟩
  · rw [Derivation.leavesAll_singleton, Derivation.leaves, leaves]
  · rw [Means, ofDerivation, ofDerivations_of_means means]
    exact composed

end Parsed

end Source.Phrase

end BitSchema
