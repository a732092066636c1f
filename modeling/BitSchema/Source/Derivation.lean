import BitSchema.Source.Grammar

/-!
# Derivations

Tokens are matched against a pattern by ordered choice with greedy repetition.  The result is a
derivation: the tree of productions whose leaves are the tokens taken.

An alternative or a repetition may fail and be given up, as long as it took at most
`lookahead` tokens.  The cursor remembers the deepest mismatch met on the way, and that is the one
reported when the source as a whole does not match.

A repetition goes on as long as its pattern matches.  Sources are taken to repeat nothing a million
times in one place, where a parser may stop with an error of its own.
-/

namespace BitSchema

/-- A run of tokens, with the productions that matched it. -/
inductive Derivation where
  | leaf (token : Token)
  | node (rule : Rule) (children : List Derivation)
  deriving Repr, Inhabited

/-- The token at `place` is not what the patterns `expected` ask for. -/
structure Mismatch where
  place : Nat
  expected : List Pattern
  deriving Repr, Inhabited

/-- Where matching stands: the next token, and the deepest mismatch so far with its depth. -/
structure Cursor where
  next : Nat := 0
  depth : Nat := 0
  deepest : Option Mismatch := none
  deriving Repr, Inhabited

/-- What became of a pattern. -/
inductive Outcome where
  /-- It matched, and these derivations cover the tokens taken. -/
  | matched (trees : List Derivation)
  /-- It does not start here. -/
  | absent
  /-- It starts here and breaks off. -/
  | failed (mismatch : Mismatch)
  deriving Repr, Inhabited

namespace Cursor

/-- The number of tokens a branch may take and still be given up. -/
def lookahead : Nat := 8

/-- Note a mismatch that is at least as deep as the one known. -/
def note (c : Cursor) (m : Mismatch) : Cursor :=
  if c.depth ≤ c.next then { c with deepest := some m, depth := c.next } else c

/-- Go on where a branch stands. -/
def accept (c branch : Cursor) : Cursor :=
  if c.depth ≤ branch.depth then branch else { c with next := branch.next }

/-- Note what a failed branch saw. -/
def noteBranch (c : Cursor) (m : Mismatch) (branch : Cursor) : Cursor :=
  if c.depth < branch.depth then { c with deepest := branch.deepest, depth := branch.depth }
  else if c.depth ≤ branch.next then
    { c with deepest := some m, depth := max branch.next branch.depth }
  else c

/-- A failed branch went too far to be given up. -/
def isCommitted (c branch : Cursor) : Bool := c.next + lookahead < branch.next

end Cursor

namespace Pattern

/-- The failure of a choice so far: the mismatch of the alternative that came furthest. -/
def further (best : Option (Mismatch × Nat)) (m : Mismatch) (place : Nat) :
    Option (Mismatch × Nat) :=
  match best with
  | none => some (m, place)
  | some (_, reached) => if reached ≤ place then some (m, place) else best

mutual
/-- Match one pattern.  `fuel` bounds the depth of the recursion. -/
def eval (tokens : Array Token) : Nat → Pattern → Cursor → Outcome × Cursor
  | 0, _, c => (.absent, c)
  | fuel + 1, p, c =>
    match p with
    | literal text =>
      match tokens[c.next]? with
      | some t => if t.text = text then (.matched [.leaf t], { c with next := c.next + 1 })
        else (.absent, c)
      | none => (.absent, c)
    | token kind =>
      match tokens[c.next]? with
      | some t => if t.kind = kind then (.matched [.leaf t], { c with next := c.next + 1 })
        else (.absent, c)
      | none => (.absent, c)
    | rule r =>
      match eval tokens fuel r.body c with
      | (.matched trees, c') => (.matched [.node r trees], c')
      | (.absent, c') => (.absent, c')
      | (.failed m, c') => (.failed m, c'.note m)
    | seq items => evalSeq tokens fuel none items c
    | choice items => evalChoice tokens fuel none items c
    | optional item => evalRepeat tokens fuel true item [] c
    | many item => evalRepeat tokens fuel false item [] c
/-- Match the patterns of a sequence after those that gave `taken`; nothing was tried yet if that is
`none`, and then a sequence whose first pattern is absent is absent itself. -/
def evalSeq (tokens : Array Token) :
    Nat → Option (List Derivation) → List Pattern → Cursor → Outcome × Cursor
  | 0, _, _, c => (.absent, c)
  | _, taken, [], c => (.matched (taken.getD []), c)
  | fuel + 1, taken, p :: ps, c =>
    match eval tokens fuel p c with
    | (.matched trees, c') => evalSeq tokens fuel (some (taken.getD [] ++ trees)) ps c'
    | (.absent, c') =>
      if taken.isSome then (.failed ⟨c'.next, p :: ps⟩, c') else (.absent, c')
    | (.failed m, c') => (.failed m, c')
/-- Match the first of the alternatives that matches; `best` is how the earlier ones failed. -/
def evalChoice (tokens : Array Token) :
    Nat → Option (Mismatch × Nat) → List Pattern → Cursor → Outcome × Cursor
  | 0, _, _, c => (.absent, c)
  | _, best, [], c =>
    match best with
    | some (m, _) => (.failed m, c.note m)
    | none => (.absent, c)
  | fuel + 1, best, p :: ps, c =>
    match eval tokens fuel p c with
    | (.matched trees, branch) => (.matched trees, c.accept branch)
    | (.absent, _) => evalChoice tokens fuel best ps c
    | (.failed m, branch) =>
      let c' := c.noteBranch m branch
      if c'.isCommitted branch then (.failed m, c'.accept branch)
      else evalChoice tokens fuel (further best m branch.next) ps c'
/-- Match a pattern as often as it goes, or at most once; `taken` is what matched so far, the last
derivation first. -/
def evalRepeat (tokens : Array Token) :
    Nat → Bool → Pattern → List Derivation → Cursor → Outcome × Cursor
  | 0, _, _, _, c => (.absent, c)
  | fuel + 1, once, p, taken, c =>
    match eval tokens fuel p c with
    | (.matched trees, branch) =>
      let taken := trees.reverse ++ taken
      if once then (.matched taken.reverse, c.accept branch)
      else evalRepeat tokens fuel once p taken (c.accept branch)
    | (.absent, branch) => (.matched taken.reverse, c.accept branch)
    | (.failed m, branch) =>
      let c' := (c.note m).noteBranch m branch
      if c'.isCommitted branch then (.failed m, c'.accept branch) else (.matched taken.reverse, c')
end

/-- Enough fuel to match any pattern of the grammar against this many tokens. -/
def fuelFor (tokens : Nat) : Nat := 64 * (tokens + 1)

end Pattern

namespace Derivation

/-- Derive the whole of a token sequence, which ends in its end token, from a production. -/
def ofTokens (start : Rule) (tokens : Array Token) : Except Mismatch Derivation :=
  match (Pattern.rule start).eval tokens (Pattern.fuelFor tokens.size) {} with
  | (.failed m, _) => .error m
  | (.absent, c) => .error ⟨c.next, []⟩
  | (.matched trees, c) =>
    match tokens[c.next]?, trees with
    | some t, [tree] =>
      if t.kind = .eof then .ok tree
      else match c.deepest with
        | some m => .error (if c.depth ≤ c.next then ⟨c.next, []⟩ else m)
        | none => .error ⟨c.next, []⟩
    | _, _ => .error ⟨c.next, []⟩

mutual
/-- The tokens of a derivation, in order. -/
def leaves : Derivation → List Token
  | leaf t => [t]
  | node _ children => leavesAll children
/-- The tokens of derivations in a row. -/
def leavesAll : List Derivation → List Token
  | [] => []
  | d :: ds => d.leaves ++ leavesAll ds
end

/-- The ends of two runs in a row. -/
def joinEnds : Option (Token × Token) → Option (Token × Token) → Option (Token × Token)
  | some (first, _), some (_, last) => some (first, last)
  | none, ends => ends
  | ends, none => ends

mutual
/-- The first and the last token of a derivation, documentation aside. -/
def ends? : Derivation → Option (Token × Token)
  | leaf t => if t.kind = .doc then none else some (t, t)
  | node _ children => endsAfter none children
/-- The first and the last token of derivations in a row, after a run with known ends. -/
def endsAfter (known : Option (Token × Token)) : List Derivation → Option (Token × Token)
  | [] => known
  | d :: ds => endsAfter (joinEnds known d.ends?) ds
end

/-- The span of a derivation: from its first token to its last, documentation aside. -/
def span (d : Derivation) : Span :=
  match d.ends? with
  | some (first, last) => first.span.upTo last.span
  | none => .none

end Derivation

end BitSchema
