import BitSchema.Proofs.Lookahead

/-!
# The tokens that matching takes

With enough fuel, matching a pattern takes the tokens between the cursor where it starts and the one
where it ends (`Pattern.reads_eval`): a whole sentence if it matches, with these tokens as leaves of
a derivation that follows the grammar, none if the pattern is absent, and otherwise what the pattern
takes before it breaks off.

A repetition goes wrong if the fuel ends within it, so `Pattern.runsWithin` bounds what is needed:
the grammar has no left recursion and repeats nothing empty, so each token is reached within `64`
steps.
-/

namespace BitSchema

open List
open BitSchema.Derivation (leavesAll)

namespace Cursor

variable (c branch : Cursor) (m : Mismatch)

@[simp]
theorem next_note : (c.note m).next = c.next := by
  unfold note
  split <;> rfl

@[simp]
theorem next_accept : (c.accept branch).next = branch.next := by
  unfold accept
  split <;> rfl

@[simp]
theorem next_noteBranch : (c.noteBranch m branch).next = c.next := by
  unfold noteBranch
  split
  · rfl
  · split <;> rfl

end Cursor

/-! ## Fuel -/

/-- The depth of recursion that the body of a production needs before it takes a token. -/
def Rule.budget : Rule → Nat
  | .ident | .int | .string => 1
  | .package | .inclusion | .message | .enum | .directive | .typeName => 10
  | .typeExpr => 16
  | .directiveArg | .mapType | .typedVariant => 20
  | .field => 24
  | .decl | .variant => 30
  | .member => 34
  | .schema => 40

namespace Pattern

mutual
/-- The recursion goes at most `n` deep before it takes a token, and each further token adds at most
`64` to its depth. -/
def runsWithin : Nat → Pattern → Bool
  | n, literal _ => 0 < n
  | n, token _ => 0 < n
  | n, rule r => r.budget < n
  | n, seq ps => 0 < n && runsWithinSeq (n - 1) ps
  | n, choice ps => 0 < n && runsWithinChoice (n - 1) ps
  | n, optional p => 1 < n && runsWithin (n - 2) p
  | n, many p => 1 < n && runsWithin (n - 2) p && !p.isNullable
def runsWithinSeq : Nat → List Pattern → Bool
  | n, [] => 0 < n
  | n, p :: ps =>
    0 < n && runsWithin (n - 1) p && runsWithinSeq (if p.isNullable then n - 1 else n + 63) ps
def runsWithinChoice : Nat → List Pattern → Bool
  | n, [] => 0 < n
  | n, p :: ps => 0 < n && runsWithin (n - 1) p && runsWithinChoice (n - 1) ps
end

theorem runsWithin_body (r : Rule) : runsWithin r.budget r.body = true := by
  cases r <;> decide +kernel

end Pattern

/-! ## What matching takes -/

/-- The tokens that a pattern took, after `before` if it went on from there. -/
def Outcome.Took (tokens : List Token) (p : Pattern) (before : Option (List Derivation))
    (ts : List Token) : Outcome → Prop
  | .matched trees =>
    ∃ own, trees = before.getD [] ++ own ∧ leavesAll own = ts ∧ Derives tokens p own
  | .absent => ts = [] ∧ before = none
  | .failed _ => p.Takes ts false

namespace Outcome.Took

variable {tokens ts us : List Token} {p : Pattern} {ps : List Pattern} {trees : List Derivation}
  {o : Outcome}

theorem seqCons {taken : Option (List Derivation)}
    (took : o.Took tokens (.seq ps) (some (taken.getD [] ++ trees)) us)
    (leaves : leavesAll trees = ts) (derives : Derives tokens p trees) :
    o.Took tokens (.seq (p :: ps)) taken (ts ++ us) := by
  subst leaves
  cases o with
  | matched all =>
    obtain ⟨own, rfl, rfl, rest⟩ := took
    exact ⟨trees ++ own, by simp, by simp, .seqCons derives rest⟩
  | absent => cases took.2
  | failed m => exact Pattern.Takes.seqCons (Pattern.takes_of_derives derives) took

theorem manyCons {taken : List Derivation}
    (took : o.Took tokens (.many p) (some (taken ++ trees)) us) (leaves : leavesAll trees = ts)
    (derives : Derives tokens p trees) : o.Took tokens (.many p) (some taken) (ts ++ us) := by
  subst leaves
  cases o with
  | matched all =>
    obtain ⟨own, rfl, rfl, rest⟩ := took
    exact ⟨trees ++ own, by simp, by simp, .manyCons derives rest⟩
  | absent => cases took.2
  | failed m => exact Pattern.Takes.manyCons (Pattern.takes_of_derives derives) took

theorem choiceCons {before : Option (List Derivation)} (took : o.Took tokens (.choice ps) before ts)
    (p : Pattern) : o.Took tokens (.choice (p :: ps)) before ts := by
  cases o with
  | matched trees =>
    obtain ⟨own, same, leaves, derives⟩ := took
    obtain _ | _ | _ | _ | _ | ⟨mem, derives⟩ := derives
    exact ⟨own, same, leaves, .choice (mem_cons_of_mem p mem) derives⟩
  | absent => exact took
  | failed m =>
    cases took with
    | nothing => exact Pattern.Takes.nothing
    | choice mem takes => exact Pattern.Takes.choice (mem_cons_of_mem p mem) takes

end Outcome.Took

namespace Pattern

variable {tokens : Array Token}

/-- Matching takes the tokens between the two cursors. -/
def Reads (tokens : Array Token) (p : Pattern) (before : Option (List Derivation)) (c : Cursor)
    (result : Outcome × Cursor) : Prop :=
  ∃ ts, ts <+: tokens.toList.drop c.next ∧ result.2.next = c.next + ts.length ∧
    result.1.Took tokens.toList p before ts

/-- The fuel is enough for a pattern that runs within `n`. -/
def Enough (tokens : Array Token) (fuel n : Nat) (c : Cursor) : Prop :=
  n + 64 * (tokens.size - c.next) ≤ fuel

variable {p : Pattern} {c c' : Cursor} {ts : List Token} {fuel n : Nat}

variable {before : Option (List Derivation)} {result : Outcome × Cursor} {k : Nat}

theorem reads_nothing {o : Outcome} (same : c'.next = c.next)
    (took : o.Took tokens.toList p before []) : Reads tokens p before c (o, c') :=
  ⟨[], nil_prefix, same, took⟩

/-- What went on from nothing is what started. -/
theorem Reads.restart (reads : Reads tokens p (some []) c result) :
    Reads tokens p none c result := by
  obtain ⟨ts, starts, next, took⟩ := reads
  refine ⟨ts, starts, next, ?_⟩
  rcases result with ⟨trees | _ | m, c'⟩
  · exact took
  · cases took.2
  · exact took

theorem prefix_append_of_drop {α : Type} {l ts us : List α} (first : ts <+: l)
    (next : us <+: l.drop ts.length) : ts ++ us <+: l := by
  obtain ⟨rest, rfl⟩ := first
  rw [drop_left] at next
  exact (prefix_append_right_inj ts).mpr next

/-- One run after the other. -/
theorem Reads.append {q : Pattern} {before' : Option (List Derivation)}
    (first : ts <+: tokens.toList.drop c.next) (here : c'.next = c.next + ts.length)
    (reads : Reads tokens q before' c' result)
    (step : ∀ us, result.1.Took tokens.toList q before' us → result.1.Took tokens.toList p before
      (ts ++ us)) : Reads tokens p before c result := by
  obtain ⟨us, starts, next, took⟩ := reads
  rw [here, ← drop_drop] at starts
  refine ⟨ts ++ us, prefix_append_of_drop first starts, ?_, step us took⟩
  rw [next, here, length_append, Nat.add_assoc]

theorem reads_leaf {accepts : Token → Prop} [DecidablePred accepts]
    (allowed : ∀ t ∈ tokens.toList, accepts t → Derives tokens.toList p [.leaf t]) :
    Reads tokens p none c (match tokens[c.next]? with
      | some t => if accepts t then (Outcome.matched [.leaf t], { c with next := c.next + 1 })
        else (.absent, c)
      | none => (.absent, c)) := by
  split
  next t found =>
    split
    next accepted =>
      have mem : t ∈ tokens.toList := Array.mem_toList_iff.mpr (Array.mem_of_getElem? found)
      refine ⟨[t], ?_, rfl, _, rfl, rfl, allowed t mem accepted⟩
      rw [← Array.getElem?_toList, ← head?_drop, head?_eq_some_iff] at found
      obtain ⟨rest, same⟩ := found
      rw [same]
      exact ⟨rest, rfl⟩
    next => exact reads_nothing rfl ⟨rfl, rfl⟩
  next => exact reads_nothing rfl ⟨rfl, rfl⟩

theorem Enough.less (enough : Enough tokens (fuel + 1) n c) (less : k < n) :
    Enough tokens fuel k c := by
  unfold Enough at enough ⊢
  omega

theorem not_enough_zero (some : 0 < n) : ¬ Enough tokens 0 n c := by
  unfold Enough
  omega

/-- A token taken leaves more fuel for each of the others. -/
theorem Enough.advance (enough : Enough tokens (fuel + 1) n c)
    (starts : ts <+: tokens.toList.drop c.next) (here : c'.next = c.next + ts.length)
    (more : k < n ∨ k < n + 64 ∧ ts ≠ []) : Enough tokens fuel k c' := by
  have inside := starts.length_le
  have size : tokens.toList.length = tokens.size := Array.length_toList
  rw [length_drop] at inside
  unfold Enough at enough ⊢
  rcases more with less | ⟨less, some⟩
  · omega
  · have some := length_pos_iff.mpr some
    omega

/-- What a repetition stands for. -/
def repeated (once : Bool) (p : Pattern) : Pattern := if once then .optional p else .many p

theorem derives_repeated_nil (once : Bool) (p : Pattern) :
    Derives tokens.toList (repeated once p) [] := by
  cases once with
  | true => exact .absent
  | false => exact .manyNil

theorem Takes.repeated_stop (takes : Takes p ts false) (once : Bool) :
    Takes (repeated once p) ts false := by
  cases once with
  | true => exact .present takes
  | false => exact .manyStop takes

theorem ne_nil_of_takes (solid : p.isNullable = false) (takes : Takes p ts true) : ts ≠ [] := by
  rintro rfl
  rw [takes.isNullable] at solid
  cases solid

/-- After a pattern of a sequence, the fuel is enough for the others. -/
theorem Enough.seqRest (enough : Enough tokens (fuel + 1) n c)
    (starts : ts <+: tokens.toList.drop c.next) (here : c'.next = c.next + ts.length)
    (takes : Takes p ts true) (deep : 0 < n) :
    Enough tokens fuel (if p.isNullable then n - 1 else n + 63) c' := by
  apply enough.advance starts here
  cases nullable : p.isNullable with
  | true => exact .inl (Nat.sub_lt deep Nat.one_pos)
  | false => exact .inr ⟨Nat.add_lt_add_left (by decide) n, ne_nil_of_takes nullable takes⟩

-- By induction on the fuel, with one statement for each function of the parser.
mutual
theorem reads_eval (fuel n : Nat) (p : Pattern) (c : Cursor) (within : runsWithin n p = true)
    (enough : Enough tokens fuel n c) : Reads tokens p none c (eval tokens fuel p c) := by
  cases fuel with
  | zero =>
    have some : 0 < n := by cases p <;> simp [runsWithin] at within <;> omega
    exact absurd enough (not_enough_zero some)
  | succ fuel =>
    cases p with
    | literal text =>
      rw [eval]
      exact reads_leaf fun t mem same => .literal mem same
    | token kind =>
      rw [eval]
      exact reads_leaf fun t mem same => .token mem same
    | rule r =>
      simp only [runsWithin, decide_eq_true_eq] at within
      have body := reads_eval fuel r.budget r.body c (runsWithin_body r) (enough.less within)
      rw [eval]
      rcases inner : eval tokens fuel r.body c with ⟨trees | _ | m, c'⟩ <;> rw [inner] at body
      · obtain ⟨ts, starts, next, _, rfl, rfl, derives⟩ := body
        refine ⟨_, starts, next, _, rfl, ?_, .rule derives⟩
        rw [Derivation.leavesAll_singleton, Derivation.leaves]
      · exact body
      · obtain ⟨ts, starts, next, takes⟩ := body
        exact ⟨ts, starts, (Cursor.next_note c' m).trans next, .rule takes⟩
    | seq ps =>
      simp only [runsWithin, Bool.and_eq_true, decide_eq_true_eq] at within
      rw [eval]
      exact reads_evalSeq fuel (n - 1) none ps c within.2 (enough.less (by omega))
    | choice ps =>
      simp only [runsWithin, Bool.and_eq_true, decide_eq_true_eq] at within
      rw [eval]
      exact reads_evalChoice fuel (n - 1) none ps c within.2 (enough.less (by omega))
    | optional p =>
      simp only [runsWithin, Bool.and_eq_true, decide_eq_true_eq] at within
      rw [eval]
      exact (reads_evalRepeat fuel (n - 2) true p [] c within.2 (.inl rfl)
        (enough.less (by omega))).restart
    | many p =>
      simp only [runsWithin, Bool.and_eq_true, decide_eq_true_eq, Bool.not_eq_true'] at within
      rw [eval]
      exact (reads_evalRepeat fuel (n - 2) false p [] c within.1.2 (.inr within.2)
        (enough.less (by omega))).restart
termination_by fuel
decreasing_by all_goals omega
theorem reads_evalSeq (fuel n : Nat) (taken : Option (List Derivation)) (ps : List Pattern)
    (c : Cursor) (within : runsWithinSeq n ps = true) (enough : Enough tokens fuel n c) :
    Reads tokens (.seq ps) taken c (evalSeq tokens fuel taken ps c) := by
  cases fuel with
  | zero =>
    have some : 0 < n := by cases ps <;> simp [runsWithinSeq] at within <;> omega
    exact absurd enough (not_enough_zero some)
  | succ fuel =>
    cases ps with
    | nil =>
      rw [evalSeq]
      · exact reads_nothing rfl ⟨[], (append_nil _).symm, rfl, .seqNil⟩
      · simp
    | cons p ps =>
      simp only [runsWithinSeq, Bool.and_eq_true, decide_eq_true_eq] at within
      obtain ⟨⟨deep, withinFirst⟩, withinRest⟩ := within
      have first := reads_eval fuel (n - 1) p c withinFirst (enough.less (by omega))
      rw [evalSeq]
      rcases inner : eval tokens fuel p c with ⟨trees | _ | m, c'⟩ <;> rw [inner] at first
      · obtain ⟨ts, starts, here, _, rfl, rfl, derives⟩ := first
        have enough' := enough.seqRest starts here (takes_of_derives derives) deep
        have rest := reads_evalSeq fuel _ (some (taken.getD [] ++ trees)) ps c' withinRest enough'
        exact rest.append starts here fun us took => took.seqCons rfl derives
      · obtain ⟨_, starts, here, rfl, -⟩ := first
        cases taken with
        | none => exact reads_nothing here ⟨rfl, rfl⟩
        | some taken => exact reads_nothing here .nothing
      · obtain ⟨ts, starts, here, takes⟩ := first
        exact ⟨ts, starts, here, .seqStop takes⟩
termination_by fuel
decreasing_by all_goals omega
theorem reads_evalChoice (fuel n : Nat) (best : Option (Mismatch × Nat)) (ps : List Pattern)
    (c : Cursor) (within : runsWithinChoice n ps = true) (enough : Enough tokens fuel n c) :
    Reads tokens (.choice ps) none c (evalChoice tokens fuel best ps c) := by
  cases fuel with
  | zero =>
    have some : 0 < n := by cases ps <;> simp [runsWithinChoice] at within <;> omega
    exact absurd enough (not_enough_zero some)
  | succ fuel =>
    cases ps with
    | nil =>
      rcases best with _ | ⟨m, place⟩
      · rw [evalChoice]
        · exact reads_nothing rfl ⟨rfl, rfl⟩
        · simp
      · rw [evalChoice]
        · exact reads_nothing (Cursor.next_note c m) .nothing
        · simp
    | cons p ps =>
      simp only [runsWithinChoice, Bool.and_eq_true, decide_eq_true_eq] at within
      obtain ⟨⟨deep, withinFirst⟩, withinRest⟩ := within
      have first := reads_eval fuel (n - 1) p c withinFirst (enough.less (by omega))
      have others : ∀ best c', c'.next = c.next →
          Reads tokens (.choice (p :: ps)) none c (evalChoice tokens fuel best ps c') := by
        intro best c' same
        have enough' : Enough tokens fuel (n - 1) c' := by
          unfold Enough
          rw [same]
          exact enough.less (by omega)
        have reads := reads_evalChoice fuel (n - 1) best ps c' withinRest enough'
        exact reads.append nil_prefix same fun us took => took.choiceCons p
      rw [evalChoice]
      rcases inner : eval tokens fuel p c with ⟨trees | _ | m, branch⟩ <;> rw [inner] at first
      · obtain ⟨ts, starts, here, own, same, leaves, derives⟩ := first
        exact ⟨ts, starts, (Cursor.next_accept c branch).trans here, own, same, leaves,
          .choice mem_cons_self derives⟩
      · exact others best c rfl
      · obtain ⟨ts, starts, here, takes⟩ := first
        dsimp only
        split
        next =>
          exact ⟨ts, starts, (Cursor.next_accept _ branch).trans here, .choice mem_cons_self takes⟩
        next => exact others _ _ (Cursor.next_noteBranch c branch m)
termination_by fuel
decreasing_by all_goals omega
theorem reads_evalRepeat (fuel n : Nat) (once : Bool) (p : Pattern) (taken : List Derivation)
    (c : Cursor) (within : runsWithin n p = true) (solid : once = true ∨ p.isNullable = false)
    (enough : Enough tokens fuel (n + 1) c) :
    Reads tokens (repeated once p) (some taken.reverse) c
      (evalRepeat tokens fuel once p taken c) := by
  cases fuel with
  | zero => exact absurd enough (not_enough_zero (Nat.succ_pos n))
  | succ fuel =>
    have first := reads_eval fuel n p c within (enough.less (Nat.lt_succ_self n))
    have ended : ∀ c', c'.next = c.next → Reads tokens (repeated once p)
        (some taken.reverse) c (.matched taken.reverse, c') := by
      intro c' same
      exact reads_nothing same ⟨[], (append_nil _).symm, rfl, derives_repeated_nil once p⟩
    rw [evalRepeat]
    rcases inner : eval tokens fuel p c with ⟨trees | _ | m, branch⟩ <;> rw [inner] at first
    · obtain ⟨ts, starts, here, _, rfl, rfl, derives⟩ := first
      cases once with
      | true =>
        refine ⟨_, starts, (Cursor.next_accept c branch).trans here, trees, ?_, rfl,
          .present derives⟩
        rw [reverse_append, reverse_reverse]
        rfl
      | false =>
        have here' := (Cursor.next_accept c branch).trans here
        have some := ne_nil_of_takes (solid.resolve_left Bool.false_ne_true)
          (takes_of_derives derives)
        have rest := reads_evalRepeat fuel n false p (trees.reverse ++ taken) _ within solid
          (enough.advance starts here' (.inr ⟨by omega, some⟩))
        rw [reverse_append, reverse_reverse] at rest
        exact rest.append starts here' fun us took => took.manyCons rfl derives
    · obtain ⟨_, -, here, rfl, -⟩ := first
      exact ended _ ((Cursor.next_accept c branch).trans here)
    · obtain ⟨ts, starts, here, takes⟩ := first
      dsimp only
      split
      next =>
        exact ⟨ts, starts, (Cursor.next_accept _ branch).trans here, takes.repeated_stop once⟩
      next =>
        apply ended
        rw [Cursor.next_noteBranch, Cursor.next_note]
termination_by fuel
decreasing_by all_goals omega
end

end Pattern

namespace Derivation

theorem enough_start (tokens : Array Token) :
    Pattern.Enough tokens (Pattern.fuelFor tokens.size) 64 {} := by
  unfold Pattern.Enough Pattern.fuelFor
  simp only [Nat.sub_zero]
  omega

variable {start : Rule} {tokens : Array Token} {d : Derivation}

/-- A derivation ends where the tokens do. -/
theorem matched_of_ofTokens (ok : ofTokens start tokens = .ok d) :
    ∃ c t, (Pattern.rule start).eval tokens (Pattern.fuelFor tokens.size) {} = (.matched [d], c) ∧
      tokens[c.next]? = some t ∧ t.kind = .eof := by
  unfold ofTokens at ok
  split at ok
  next => cases ok
  next => cases ok
  next trees c matched =>
    split at ok
    next t tree found =>
      split at ok
      next ended =>
        cases ok
        exact ⟨c, t, matched, found, ended⟩
      next => split at ok <;> cases ok
    next => cases ok

/-- A derivation that is found follows the grammar, and covers the tokens before one of the kind
`eof`. -/
theorem derives_ofTokens (ok : ofTokens start tokens = .ok d) :
    Derives tokens.toList (.rule start) [d] ∧ d.leaves <+: tokens.toList ∧
      ∃ t, tokens[d.leaves.length]? = some t ∧ t.kind = .eof := by
  obtain ⟨c, t, matched, found, ended⟩ := matched_of_ofTokens ok
  have within : Pattern.runsWithin 64 (.rule start) = true := by cases start <;> decide
  have reads := Pattern.reads_eval _ 64 (.rule start) {} within (enough_start tokens)
  rw [matched] at reads
  obtain ⟨_, starts, here, _, rfl, rfl, derives⟩ := reads
  rw [leavesAll_singleton] at starts here
  refine ⟨derives, starts, t, ?_, ended⟩
  rw [← found, show c.next = d.leaves.length from here.trans (Nat.zero_add _)]

end Derivation

end BitSchema
