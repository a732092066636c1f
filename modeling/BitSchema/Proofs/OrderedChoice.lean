import BitSchema.Proofs.MatchedTokens
import BitSchema.Source.Parse

/-!
# Ordered choice and the grammar

Matching is by ordered choice with greedy repetition, and a branch is given up only within
`Cursor.lookahead` tokens.  The grammar itself knows nothing of this: a derivation of it may take
any alternative, and repeat a pattern as often as it likes (`Derives`).

Both come to the same.  Wherever there is a choice, the patterns that are tried in vain differ from
the sentence ahead within three tokens (`Pattern.isDecided`, which is checked for all productions),
so matching finds every derivation (`Pattern.found_of_derives`).
-/

namespace BitSchema

open List
open BitSchema.Derivation (leavesAll)

/-! ## What follows a production -/

/-- The heads of what starts with a production, one terminal each. -/
def Rule.starts (r : Rule) : List Head := Pattern.followed 1 [] (.rule r)

def Head.text (s : String) : Head := ⟨[.text s], false⟩

def Head.kind (k : Token.Kind) : Head := ⟨[.kind k], false⟩

open Head in
/-- The heads of what may follow a production. -/
def Rule.follow : Rule → List Head
  | .schema => [kind .eof]
  | .decl | .package | .inclusion => starts .decl ++ [kind .eof]
  | .message | .enum => starts .decl ++ starts .member ++ [kind .eof, text "\x7d"]
  | .member | .field => starts .member ++ [text "\x7d"]
  | .variant => starts .variant ++ [text "\x7d"]
  | .typedVariant => [text ";"]
  | .typeExpr | .mapType | .typeName => [kind .ident, text "]"]
  | .directive => [text ",", text "]", text ")"]
  | .directiveArg => [text ",", text ")"]
  | .ident =>
    [kind .ident, text ".", text ";", text "\x7b", text "[", text "]", text "(", text ",", text ")"]
  | .int => [text ":", text ",", text ")"]
  | .string => [text ";"]

namespace Pattern

mutual
/-- With such tokens after the pattern, each choice in it is decided by the tokens ahead. -/
def isDecided (follow : List Head) : Pattern → Bool
  | literal _ => true
  | token _ => true
  | rule r => follow.all r.follow.contains
  | seq ps => isDecidedSeq follow ps
  | choice ps => isDecidedChoice follow ps
  | optional p => givesWay follow p (seq []) && isDecided follow p
  | many p => givesWay follow p (seq []) && isDecided (followed 1 follow (many p)) p
def isDecidedSeq (follow : List Head) : List Pattern → Bool
  | [] => true
  | p :: ps => isDecided (followed 1 follow (seq ps)) p && isDecidedSeq follow ps
def isDecidedChoice (follow : List Head) : List Pattern → Bool
  | [] => true
  | p :: ps => ps.all (givesWay follow p) && isDecided follow p && isDecidedChoice follow ps
end

theorem isDecided_body (r : Rule) : isDecided r.follow r.body = true := by
  cases r <;> decide +kernel

/-! ## Patterns tried in vain -/

variable {tokens : Array Token}

/-- The tokens ahead are these, with others after them that start in one of these ways. -/
def Ahead (tokens : Array Token) (c : Cursor) (ts : List Token) (follow : List Head) : Prop :=
  ∃ us, tokens.toList.drop c.next = ts ++ us ∧ StartsIn follow us

variable {c c' : Cursor} {ts us : List Token} {follow : List Head} {fuel n : Nat} {p : Pattern}
  {ps : List Pattern} {trees : List Derivation}

theorem Ahead.of_next (ahead : Ahead tokens c ts follow) (same : c'.next = c.next) :
    Ahead tokens c' ts follow := by
  unfold Ahead
  rw [same]
  exact ahead

theorem Enough.of_next (enough : Enough tokens fuel n c) (same : c'.next = c.next) :
    Enough tokens fuel n c' := by
  unfold Enough
  rw [same]
  exact enough

/-- Matching does not get far before it is known that the pattern is not here. -/
def IsVain (c : Cursor) (result : Outcome × Cursor) : Prop :=
  (∃ branch, result = (.absent, branch) ∧ branch.next = c.next) ∨
    ∃ m branch, result = (.failed m, branch) ∧ branch.next < c.next + Cursor.lookahead

/-- What gives way to the tokens ahead takes none, or fails early. -/
theorem isVain_eval {q : Pattern} (proper : ∀ t ∈ tokens.toList, t.IsProper)
    (gives : givesWay follow p q = true) (within : runsWithin n p = true)
    (enough : Enough tokens fuel n c) (sentence : Takes q ts true)
    (ahead : Ahead tokens c ts follow) : IsVain c (eval tokens fuel p c) := by
  obtain ⟨us, input, next⟩ := ahead
  have proper' : ∀ t ∈ ts ++ us, t.IsProper := by
    intro t mem
    rw [← input] at mem
    exact proper t (mem_of_mem_drop mem)
  have reads := reads_eval fuel n p c within enough
  generalize eval tokens fuel p c = result at reads ⊢
  obtain ⟨vs, starts, here, took⟩ := reads
  rw [input] at starts
  rcases result with ⟨trees | _ | m, branch⟩
  · obtain ⟨own, -, rfl, derives⟩ := took
    have vain := (takes_of_derives derives).of_givesWay gives sentence next proper' starts
    cases vain.1
  · obtain ⟨rfl, -⟩ := took
    exact .inl ⟨branch, rfl, here⟩
  · have vain := Takes.of_givesWay took gives sentence next proper' starts
    refine .inr ⟨m, branch, rfl, ?_⟩
    rw [Cursor.lookahead]
    dsimp only at here
    omega

theorem isCommitted_of_lt {branch : Cursor} (near : branch.next < c.next + Cursor.lookahead) :
    c.isCommitted branch = false := by
  rw [Cursor.isCommitted, decide_eq_false_iff_not]
  omega

/-! ## Results that are passed along -/

/-- The patterns of a sequence that matched give the same derivations after any others. -/
theorem evalSeq_after {taken : Option (List Derivation)}
    (matched : evalSeq tokens fuel taken ps c = (.matched trees, c')) :
    ∃ own, trees = taken.getD [] ++ own ∧
      ∀ before, evalSeq tokens fuel (some before) ps c = (.matched (before ++ own), c') := by
  induction ps generalizing fuel taken c with
  | nil =>
    cases fuel with
    | zero =>
      rw [evalSeq] at matched
      cases matched
    | succ fuel =>
      rw [evalSeq] at matched
      · cases matched
        refine ⟨[], (append_nil _).symm, fun before => ?_⟩
        rw [evalSeq, append_nil, Option.getD_some]
        simp
      · simp
  | cons p ps ih =>
    cases fuel with
    | zero =>
      rw [evalSeq] at matched
      cases matched
    | succ fuel =>
      rw [evalSeq] at matched
      rcases inner : eval tokens fuel p c with ⟨first | _ | m, c₁⟩
      · rw [inner] at matched
        obtain ⟨own, rfl, others⟩ := ih matched
        refine ⟨first ++ own, by simp, fun before => ?_⟩
        rw [evalSeq, inner, ← append_assoc]
        exact others (before ++ first)
      · rw [inner] at matched
        dsimp only at matched
        split at matched <;> cases matched
      · rw [inner] at matched
        cases matched

/-- A repetition that matched gives the same derivations after any others. -/
theorem evalRepeat_after {once : Bool} {taken : List Derivation}
    (matched : evalRepeat tokens fuel once p taken c = (.matched trees, c')) :
    ∃ own, trees = taken.reverse ++ own ∧
      ∀ before, evalRepeat tokens fuel once p before c =
        (.matched (before.reverse ++ own), c') := by
  induction fuel generalizing taken c with
  | zero =>
    rw [evalRepeat] at matched
    cases matched
  | succ fuel ih =>
    rw [evalRepeat] at matched
    rcases inner : eval tokens fuel p c with ⟨first | _ | m, branch⟩
    · rw [inner] at matched
      cases once with
      | true =>
        cases matched
        refine ⟨first, by simp, fun before => ?_⟩
        rw [evalRepeat, inner]
        simp
      | false =>
        obtain ⟨own, rfl, others⟩ := ih matched
        refine ⟨first ++ own, by simp, fun before => ?_⟩
        rw [evalRepeat, inner]
        have found := others (first.reverse ++ before)
        simpa using found
    · rw [inner] at matched
      cases matched
      refine ⟨[], by simp, fun before => ?_⟩
      rw [evalRepeat, inner, append_nil]
    · rw [inner] at matched
      dsimp only at matched
      split at matched
      next => cases matched
      next open' =>
        cases matched
        refine ⟨[], by simp, fun before => ?_⟩
        rw [evalRepeat, inner, append_nil]
        exact if_neg open'

/-! ## Derivations are found -/

/-- Where the tokens ahead are the leaves of these derivations, the pattern matches and gives them.
-/
def Found (tokens : Array Token) (p : Pattern) (trees : List Derivation) : Prop :=
  ∀ ⦃follow : List Head⦄ ⦃fuel n : Nat⦄ ⦃c : Cursor⦄, isDecided follow p = true →
    runsWithin n p = true → Enough tokens fuel n c → Ahead tokens c (leavesAll trees) follow →
    ∃ c', eval tokens fuel p c = (.matched trees, c') ∧ c'.next = c.next + (leavesAll trees).length

theorem exists_fuel (enough : Enough tokens fuel n c) (some : 0 < n) :
    ∃ fuel', fuel = fuel' + 1 := by
  cases fuel with
  | zero => exact absurd enough (not_enough_zero some)
  | succ fuel => exact ⟨fuel, rfl⟩

theorem Enough.succ (enough : Enough tokens fuel n c) : Enough tokens (fuel + 1) (n + 1) c := by
  unfold Enough at enough ⊢
  omega

theorem Ahead.getElem? {t : Token} (ahead : Ahead tokens c (leavesAll [.leaf t]) follow) :
    tokens[c.next]? = some t := by
  obtain ⟨us, input, -⟩ := ahead
  rw [← Array.getElem?_toList, ← head?_drop, input]
  rfl

theorem found_leaf {t : Token} {p : Pattern} (same : p = .literal t.text ∨ p = .token t.kind) :
    Found tokens p [.leaf t] := by
  intro follow fuel n c _ within enough ahead
  rcases same with rfl | rfl <;>
  · simp only [runsWithin, decide_eq_true_eq] at within
    obtain ⟨fuel, rfl⟩ := exists_fuel enough within
    refine ⟨{ c with next := c.next + 1 }, ?_, rfl⟩
    rw [eval, ahead.getElem?]
    exact if_pos rfl

theorem Found.rule {r : Rule} (found : Found tokens r.body trees) :
    Found tokens (.rule r) [.node r trees] := by
  intro follow fuel n c decided within enough ahead
  obtain ⟨us, input, h, mem, fits⟩ := ahead
  simp only [runsWithin, decide_eq_true_eq] at within
  obtain ⟨fuel, rfl⟩ := exists_fuel enough (Nat.zero_lt_of_lt within)
  have allowed : h ∈ r.follow := contains_iff_mem.mp (all_eq_true.mp decided h mem)
  rw [Derivation.leavesAll_singleton, Derivation.leaves] at input ⊢
  obtain ⟨c', matched, next⟩ := found (isDecided_body r) (runsWithin_body r) (enough.less within)
    ⟨us, input, h, allowed, fits⟩
  refine ⟨c', ?_, next⟩
  rw [eval, matched]

theorem found_seqNil : Found tokens (.seq []) [] := by
  intro follow fuel n c _ within enough _
  simp only [runsWithin, runsWithinSeq, Bool.and_eq_true, decide_eq_true_eq] at within
  obtain ⟨fuel, rfl⟩ := exists_fuel enough within.1
  obtain ⟨fuel, rfl⟩ := exists_fuel (enough.less (Nat.sub_lt within.1 Nat.one_pos)) within.2
  refine ⟨c, ?_, rfl⟩
  rw [eval, evalSeq]
  · rfl
  · simp

section

variable (ahead : Ahead tokens c (ts ++ us) follow)

include ahead

/-- The tokens ahead of one run after the other. -/
theorem Ahead.first {q : Pattern}
    (takes : Takes q us true) : Ahead tokens c ts (followed 1 follow q) := by
  obtain ⟨vs, input, next⟩ := ahead
  rw [append_assoc] at input
  exact ⟨us ++ vs, input, startsIn_followed takes next 1⟩

theorem Ahead.rest (here : c'.next = c.next + ts.length) : Ahead tokens c' us follow := by
  obtain ⟨vs, input, next⟩ := ahead
  refine ⟨vs, ?_, next⟩
  rw [here, ← drop_drop, input, append_assoc, drop_left]

theorem Ahead.starts : ts <+: tokens.toList.drop c.next := by
  obtain ⟨vs, input, -⟩ := ahead
  rw [input, append_assoc]
  exact prefix_append ts _

end

theorem runsWithin_seq (within : runsWithinSeq n ps = true) :
    runsWithin (n + 1) (.seq ps) = true := by
  simp only [runsWithin, Bool.and_eq_true, decide_eq_true_eq]
  exact ⟨Nat.succ_pos n, within⟩

theorem Found.seqCons {first rest : List Derivation} (found : Found tokens p first)
    (foundRest : Found tokens (.seq ps) rest) (takes : Takes p (leavesAll first) true)
    (takesRest : Takes (.seq ps) (leavesAll rest) true) :
    Found tokens (.seq (p :: ps)) (first ++ rest) := by
  intro follow fuel n c decided within enough ahead
  simp only [runsWithin, runsWithinSeq, Bool.and_eq_true, decide_eq_true_eq] at within
  obtain ⟨deep, ⟨deep', withinFirst⟩, withinRest⟩ := within
  simp only [isDecided, isDecidedSeq, Bool.and_eq_true] at decided
  rw [Derivation.leavesAll_append] at ahead ⊢
  obtain ⟨fuel, rfl⟩ := exists_fuel enough deep
  have enough := enough.less (Nat.sub_lt deep Nat.one_pos)
  obtain ⟨fuel, rfl⟩ := exists_fuel enough deep'
  obtain ⟨c₁, matched, here⟩ := found decided.1 withinFirst (enough.less (by omega))
    (ahead.first takesRest)
  have enoughRest := enough.seqRest ahead.starts here takes deep'
  obtain ⟨c', matchedRest, next⟩ := foundRest decided.2 (runsWithin_seq withinRest) enoughRest.succ
    (ahead.rest here)
  rw [eval] at matchedRest
  obtain ⟨own, rfl, others⟩ := evalSeq_after matchedRest
  refine ⟨c', ?_, ?_⟩
  · rw [eval, evalSeq, matched]
    exact others first
  · rw [next, here, length_append, Nat.add_assoc]

section

variable (proper : ∀ t ∈ tokens.toList, t.IsProper)

include proper

theorem found_choice (found : Found tokens p trees)
    (takes : Takes p (leavesAll trees) true) (mem : p ∈ ps) : Found tokens (.choice ps) trees := by
  have tried : ∀ {follow : List Head} {best : Option (Mismatch × Nat)} {fuel n : Nat} {c : Cursor},
      isDecidedChoice follow ps = true → runsWithinChoice n ps = true → Enough tokens fuel n c →
      Ahead tokens c (leavesAll trees) follow →
      ∃ c', evalChoice tokens fuel best ps c = (.matched trees, c') ∧
        c'.next = c.next + (leavesAll trees).length := by
    induction ps with
    | nil => cases mem
    | cons q ps ih =>
      intro follow best fuel n c decided within enough ahead
      simp only [runsWithinChoice, Bool.and_eq_true, decide_eq_true_eq] at within
      obtain ⟨⟨deep, withinFirst⟩, withinRest⟩ := within
      simp only [isDecidedChoice, Bool.and_eq_true] at decided
      obtain ⟨⟨gives, decidedFirst⟩, decidedRest⟩ := decided
      obtain ⟨fuel, rfl⟩ := exists_fuel enough deep
      have enough := enough.less (Nat.sub_lt deep Nat.one_pos)
      rw [evalChoice]
      rcases mem_cons.mp mem with rfl | later
      · obtain ⟨c', matched, next⟩ := found decidedFirst withinFirst enough ahead
        rw [matched]
        exact ⟨_, rfl, (Cursor.next_accept c c').trans next⟩
      · have vain := isVain_eval proper (all_eq_true.mp gives p later) withinFirst enough takes
          ahead
        rcases vain with ⟨branch, absent, -⟩ | ⟨m, branch, failed, near⟩
        · rw [absent]
          exact ih later decidedRest withinRest enough ahead
        · have same := Cursor.next_noteBranch c branch m
          rw [failed]
          dsimp only
          rw [isCommitted_of_lt (by rwa [same]), ← same]
          exact ih later decidedRest withinRest (enough.of_next same) (ahead.of_next same)
  intro follow fuel n c decided within enough ahead
  simp only [runsWithin, Bool.and_eq_true, decide_eq_true_eq] at within
  obtain ⟨fuel, rfl⟩ := exists_fuel enough within.1
  rw [eval]
  exact tried decided within.2 (enough.less (Nat.sub_lt within.1 Nat.one_pos)) ahead

/-- Where something else follows, a repetition ends. -/
theorem evalRepeat_ended {once : Bool}
    (gives : givesWay follow p (.seq []) = true) (within : runsWithin n p = true)
    (enough : Enough tokens fuel (n + 1) c) (ahead : Ahead tokens c [] follow) :
    ∃ c', evalRepeat tokens fuel once p [] c = (.matched [], c') ∧ c'.next = c.next := by
  obtain ⟨fuel, rfl⟩ := exists_fuel enough (Nat.succ_pos n)
  have vain := isVain_eval proper gives within (enough.less (Nat.lt_succ_self n)) .seqNil ahead
  rw [evalRepeat]
  rcases vain with ⟨branch, absent, here⟩ | ⟨m, branch, failed, near⟩
  · rw [absent]
    exact ⟨_, rfl, (Cursor.next_accept c branch).trans here⟩
  · have same : ((c.note m).noteBranch m branch).next = c.next := by
      rw [Cursor.next_noteBranch, Cursor.next_note]
    rw [failed]
    dsimp only
    rw [isCommitted_of_lt (by rwa [same])]
    exact ⟨_, rfl, same⟩

theorem found_absent : Found tokens (.optional p) [] := by
  intro follow fuel n c decided within enough ahead
  simp only [runsWithin, Bool.and_eq_true, decide_eq_true_eq] at within
  simp only [isDecided, Bool.and_eq_true] at decided
  obtain ⟨fuel, rfl⟩ := exists_fuel enough (Nat.zero_lt_of_lt within.1)
  rw [eval]
  exact evalRepeat_ended proper decided.1 within.2 (enough.less (by omega)) ahead

theorem found_manyNil : Found tokens (.many p) [] := by
  intro follow fuel n c decided within enough ahead
  simp only [runsWithin, Bool.and_eq_true, decide_eq_true_eq] at within
  simp only [isDecided, Bool.and_eq_true] at decided
  obtain ⟨fuel, rfl⟩ := exists_fuel enough (Nat.zero_lt_of_lt within.1.1)
  rw [eval]
  exact evalRepeat_ended proper decided.1 within.1.2 (enough.less (by omega)) ahead

end

theorem Found.present (found : Found tokens p trees) : Found tokens (.optional p) trees := by
  intro follow fuel n c decided within enough ahead
  simp only [runsWithin, Bool.and_eq_true, decide_eq_true_eq] at within
  simp only [isDecided, Bool.and_eq_true] at decided
  obtain ⟨fuel, rfl⟩ := exists_fuel enough (Nat.zero_lt_of_lt within.1)
  have enough : Enough tokens fuel (n - 1) c := enough.less (by omega)
  obtain ⟨fuel, rfl⟩ := exists_fuel enough (by omega)
  obtain ⟨c', matched, next⟩ := found decided.2 within.2 (enough.less (by omega)) ahead
  refine ⟨c.accept c', ?_, (Cursor.next_accept c c').trans next⟩
  rw [eval, evalRepeat, matched]
  simp

theorem Found.manyCons {first rest : List Derivation} (found : Found tokens p first)
    (foundRest : Found tokens (.many p) rest) (takes : Takes p (leavesAll first) true)
    (takesRest : Takes (.many p) (leavesAll rest) true) :
    Found tokens (.many p) (first ++ rest) := by
  intro follow fuel n c decided within enough ahead
  have decided' := decided
  have within' := within
  simp only [runsWithin, Bool.and_eq_true, decide_eq_true_eq, Bool.not_eq_true'] at within
  simp only [isDecided, Bool.and_eq_true] at decided
  rw [Derivation.leavesAll_append] at ahead ⊢
  obtain ⟨fuel, rfl⟩ := exists_fuel enough (Nat.zero_lt_of_lt within.1.1)
  have enough₁ : Enough tokens fuel (n - 1) c := enough.less (by omega)
  obtain ⟨fuel, rfl⟩ := exists_fuel enough₁ (by omega)
  obtain ⟨c₁, matched, here⟩ := found decided.2 within.1.2 (enough₁.less (by omega))
    (ahead.first takesRest)
  have here' := (Cursor.next_accept c c₁).trans here
  have some := ne_nil_of_takes within.2 takes
  obtain ⟨c', matchedRest, next⟩ := foundRest decided' within'
    (enough.advance ahead.starts here' (.inr ⟨by omega, some⟩)) (ahead.rest here')
  rw [eval] at matchedRest
  obtain ⟨own, rfl, others⟩ := evalRepeat_after matchedRest
  refine ⟨c', ?_, ?_⟩
  · rw [eval, evalRepeat, matched]
    have both := others (first.reverse ++ [])
    simpa using both
  · rw [next, here', length_append, Nat.add_assoc]

/-- Matching finds every derivation of the tokens ahead. -/
theorem found_of_derives (proper : ∀ t ∈ tokens.toList, t.IsProper) (derives : Derives ts p trees) :
    Found tokens p trees := by
  induction derives with
  | literal _ same | token _ same =>
    cases same
    exact found_leaf (by simp)
  | rule _ ih => exact ih.rule
  | seqNil => exact found_seqNil
  | seqCons first rest ih ihRest =>
    exact ih.seqCons ihRest (takes_of_derives first) (takes_of_derives rest)
  | choice mem derives ih => exact found_choice proper ih (takes_of_derives derives) mem
  | absent => exact found_absent proper
  | present _ ih => exact ih.present
  | manyNil => exact found_manyNil proper
  | manyCons first rest ih ihRest =>
    exact ih.manyCons ihRest (takes_of_derives first) (takes_of_derives rest)

end Pattern

/-! ## Whole sources -/

/-- The leaves of a derivation tell which tokens it needs. -/
theorem Derives.of_leaves {ts us : List Token} {p : Pattern} {trees : List Derivation}
    (derives : Derives ts p trees) (among : ∀ t ∈ leavesAll trees, t ∈ us) :
    Derives us p trees := by
  induction derives with
  | literal _ same => exact .literal (among _ mem_cons_self) same
  | token _ same => exact .token (among _ mem_cons_self) same
  | rule _ ih =>
    rw [Derivation.leavesAll_singleton, Derivation.leaves] at among
    exact .rule (ih among)
  | seqNil => exact .seqNil
  | seqCons _ _ ih ihRest =>
    rw [Derivation.leavesAll_append, forall_mem_append] at among
    exact .seqCons (ih among.1) (ihRest among.2)
  | choice mem _ ih => exact .choice mem (ih among)
  | absent => exact .absent
  | present _ ih => exact .present (ih among)
  | manyNil => exact .manyNil
  | manyCons _ _ ih ihRest =>
    rw [Derivation.leavesAll_append, forall_mem_append] at among
    exact .manyCons (ih among.1) (ihRest among.2)

theorem Token.IsLexeme.kind_ne_eof {t : Token} (lexeme : t.IsLexeme) : t.kind ≠ .eof := by
  obtain ⟨rest, found⟩ := lexeme
  obtain ⟨rule, mem, taken⟩ := exists_of_findSome?_eq_some found
  have others : ∀ rule ∈ rules, rule.1 ≠ .eof := by simp [rules]
  dsimp only at taken
  split at taken
  next => cases taken
  next =>
    obtain ⟨same, -⟩ := Prod.mk.inj (Option.some.inj taken)
    rw [← same]
    exact others rule mem

namespace Derivation

/-- The derivation is one of these tokens from a production of the grammar. -/
def IsFrom (start : Rule) (ts : List Token) (d : Derivation) : Prop :=
  Derives ts (.rule start) [d] ∧ d.leaves = ts

variable {ts : List Token} {last : Token}

/-- The tokens before a token of the kind `eof` are all of the source. -/
theorem eq_of_ended (lexemes : ∀ t ∈ ts, t.IsLexeme) {us : List Token} {t : Token}
    (starts : us <+: ts ++ [last]) (next : (ts ++ [last])[us.length]? = some t)
    (ended : t.kind = .eof) : us = ts := by
  have long : ts.length ≤ us.length := by
    by_contra short
    rw [getElem?_append_left (by omega)] at next
    exact (lexemes t (mem_of_getElem? next)).kind_ne_eof ended
  have inside : us.length < (ts ++ [last]).length := (List.getElem?_eq_some_iff.mp next).1
  rw [length_append, length_singleton] at inside
  have same : us.length = ts.length := by omega
  exact (prefix_of_prefix_length_le starts (prefix_append ts _) same.le).eq_of_length same

variable {d : Derivation}

/-- A derivation that is found covers the tokens up to the end. -/
theorem isFrom_of_ofTokens (lexemes : ∀ t ∈ ts, t.IsLexeme)
    (ok : ofTokens .schema (ts ++ [last]).toArray = .ok d) : IsFrom .schema ts d := by
  obtain ⟨derives, starts, t, found, ended⟩ := derives_ofTokens ok
  rw [getElem?_toArray] at found
  have same : d.leaves = ts := eq_of_ended lexemes starts found ended
  refine ⟨derives.of_leaves ?_, same⟩
  rw [leavesAll_singleton, same]
  exact fun t mem => mem

/-- Every derivation of the tokens is found. -/
theorem ofTokens_of_isFrom (lexemes : ∀ t ∈ ts, t.IsLexeme) (ended : last.IsEnd)
    (isFrom : IsFrom .schema ts d) : ofTokens .schema (ts ++ [last]).toArray = .ok d := by
  obtain ⟨derives, leaves⟩ := isFrom
  have proper : ∀ t ∈ (ts ++ [last]).toArray.toList, t.IsProper := by
    rw [toList_toArray, forall_mem_append, forall_mem_singleton]
    exact ⟨fun t mem => (lexemes t mem).isProper, ended.isProper⟩
  have ahead : Pattern.Ahead (ts ++ [last]).toArray {} (leavesAll [d]) Rule.schema.follow := by
    refine ⟨[last], ?_, _, mem_singleton_self _, ended.1, fun absurd => ?_⟩
    · rw [leavesAll_singleton, leaves]
      rfl
    · cases absurd
  obtain ⟨c, matched, next⟩ := Pattern.found_of_derives proper derives (by decide) (by decide)
    (enough_start (ts ++ [last]).toArray) ahead
  rw [leavesAll_singleton, leaves] at next
  have here : (ts ++ [last]).toArray[c.next]? = some last := by
    rw [next, getElem?_toArray]
    simp
  unfold ofTokens
  rw [matched]
  dsimp only
  rw [here]
  exact if_pos ended.1

theorem derive_ok_iff {file : String} {source : List Char} {all : List Token}
    (scanned : Token.tokens file source = .ok all) :
    Source.derive file source = .ok d ↔ ofTokens .schema all.toArray = .ok d := by
  unfold Source.derive
  rw [scanned]
  exact mapError_ok_iff

/-- The parser accepts exactly the sentences of the grammar: it finds a derivation of the tokens if
there is one, and a sequence of lexemes has at most one.  The tokens of a source are such a
sequence, by `Token.lexemes_tokens`. -/
theorem ofTokens_schema (lexemes : ∀ t ∈ ts, t.IsLexeme) (ended : last.IsEnd) :
    (∀ d, ofTokens .schema (ts ++ [last]).toArray = .ok d ↔ IsFrom .schema ts d) ∧
      (∀ d d', IsFrom .schema ts d → IsFrom .schema ts d' → d = d') ∧
      ∀ file source, Token.tokens file source = .ok (ts ++ [last]) →
        ∀ d, Source.derive file source = .ok d ↔ IsFrom .schema ts d := by
  have exact : ∀ d, ofTokens .schema (ts ++ [last]).toArray = .ok d ↔ IsFrom .schema ts d :=
    fun d => ⟨isFrom_of_ofTokens lexemes, ofTokens_of_isFrom lexemes ended⟩
  refine ⟨exact, ?_, ?_⟩
  · intro d d' first second
    have found := (exact d).mpr first
    rw [(exact d').mpr second] at found
    exact (Except.ok.inj found).symm
  · intro file source scanned d
    rw [derive_ok_iff scanned]
    exact exact d

/-- The tokens of a message with one field, whose type has the name `message`. -/
def keywordTokens : List Token :=
  [⟨.ident, "message", .none⟩, ⟨.ident, "a", .none⟩, ⟨.punct, "\x7b", .none⟩,
    ⟨.ident, "message", .none⟩, ⟨.ident, "b", .none⟩, ⟨.punct, ";", .none⟩, ⟨.punct, "\x7d", .none⟩]

/-- The end of the source after them. -/
def keywordEnd : Token := ⟨.eof, "", .none⟩

/-- Their derivation, in which the second `message` is the name of a type. -/
def keywordTree : Derivation :=
  let word (text : String) : Derivation := .leaf ⟨.ident, text, .none⟩
  let sign (text : String) : Derivation := .leaf ⟨.punct, text, .none⟩
  let name (text : String) : Derivation := .node .ident [word text]
  .node .schema [.node .decl [.node .message [word "message", name "a", sign "\x7b",
    .node .member [.node .field [.node .typeExpr [.node .typeName [name "message"]], name "b",
      sign ";"]],
    sign "\x7d"]]]

theorem ofTokens_schema_keyword :
    (∀ t ∈ keywordTokens, t.IsLexeme) ∧ keywordEnd.IsEnd ∧
      ofTokens .schema (keywordTokens ++ [keywordEnd]).toArray = .ok keywordTree ∧
      IsFrom .schema keywordTokens keywordTree ∧
      ∀ d, IsFrom .schema keywordTokens d → d = keywordTree := by
  have lexemes : ∀ t ∈ keywordTokens, t.IsLexeme := by
    simp only [keywordTokens, forall_mem_cons]
    refine ⟨⟨[], ?_⟩, ⟨[], ?_⟩, ⟨[], ?_⟩, ⟨[], ?_⟩, ⟨[], ?_⟩, ⟨[], ?_⟩, ⟨[], ?_⟩,
      forall_mem_nil _⟩ <;> cbv
  have ended : keywordEnd.IsEnd := ⟨rfl, rfl⟩
  have found : ofTokens .schema (keywordTokens ++ [keywordEnd]).toArray =
      .ok keywordTree := by
    rfl
  obtain ⟨exact, unique, -⟩ := ofTokens_schema lexemes ended
  have isFrom := (exact keywordTree).mp found
  exact ⟨lexemes, ended, found, isFrom, fun d other => unique d keywordTree other isFrom⟩

end Derivation

end BitSchema
