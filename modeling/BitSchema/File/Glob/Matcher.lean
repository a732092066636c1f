import BitSchema.Text.Octets

/-!
# Matching paths

A matcher tells whether it takes a whole text, and where in a text it finds a part that it takes.
Texts are octets here: places and lengths count octets, while the length of a matcher counts
characters.  A text may be cut within a character; what is left of it then counts octet by octet.

Some matchers take more or less than the pattern they are made from says, which is part of what the
patterns of a project file mean:

* `one`, `set` and `range` take a text without characters as if it were a single character that
  cannot be read;
* `row` hands every part the text up to the first octet of its last character, and the next part
  starts right after that octet;
* `startsEnds` lets its two texts overlap;
* `lacks` looks for its characters in a row;
* `split` tries the places its pivot is found at, and a pivot that is a `split` is never found.
-/

namespace BitSchema.Glob

/-- A part of no length was to be tried after the end of a text, where there is nothing to try. -/
inductive Overrun where
  | pastEnd
  deriving DecidableEq, Repr

/-- A test for texts. -/
inductive Matcher where
  /-- The place before the first part or after the last one of a pattern. -/
  | edge
  | nothing
  | text (octets : Octets)
  | run
  | anyRun
  | one
  | set (chars : List Char) (negated : Bool)
  | range (low high : Char) (negated : Bool)
  /-- Texts with others in them. -/
  | holds (needle : Octets)
  | lacks (needle : Octets)
  | atLeast (count : Nat)
  | atMost (count : Nat)
  /-- A text, then any run. -/
  | starts (first : Octets)
  /-- A text, then a run without a slash. -/
  | startsPlain (first : Octets)
  | ends (last : Octets)
  | endsPlain (last : Octets)
  | startsEnds (first last : Octets)
  | anyOf (matchers : List Matcher)
  | everyOf (matchers : List Matcher)
  /-- Parts of known lengths, one after the other. -/
  | row (parts : List Matcher)
  /-- A pivot, what comes before it and what comes after it. -/
  | split (pivot left right : Matcher)
  deriving Repr, Inhabited

/-! ## Lengths -/

/-- The length of alternatives, where one of unknown length gives way to the next. -/
def commonLength? (length? : Option Nat) : List (Option Nat) → Option Nat
  | [] => length?
  | next? :: rest =>
    match length?, next? with
    | none, _ => commonLength? next? rest
    | some n, some k => if n = k then commonLength? length? rest else none
    | some _, none => none

mutual
/-- The number of characters that a matcher takes, if it is known. -/
def Matcher.length? : Matcher → Option Nat
  | .edge => some 0
  | .nothing => some 0
  | .text octets => some octets.pieces.length
  | .one => some 1
  | .set _ _ => some 1
  | .range _ _ _ => some 1
  | .anyOf ms => commonLength? none (lengthsOf ms)
  | .row parts => (lengthsOf parts).foldr (fun a b => do return (← a) + (← b)) (some 0)
  | .split pivot left right => do return (← left.length?) + (← pivot.length?) + (← right.length?)
  | _ => none
def lengthsOf : List Matcher → List (Option Nat)
  | [] => []
  | m :: ms => m.length? :: lengthsOf ms
end

/-! ## Texts -/

/-- The characters of a text with the places they start at. -/
def charsFrom (start : Nat) : List Octets.Piece → List (Nat × Char)
  | [] => []
  | piece :: pieces => (start, piece.toChar) :: charsFrom (start + piece.size) pieces

def placedChars (s : Octets) : List (Nat × Char) := charsFrom 0 s.pieces

/-- The places before, between and after the characters of a text. -/
def gaps (s : Octets) : List Nat := (placedChars s).map Prod.fst ++ [s.length]

/-- The places after the characters of a text, if they all could be read. -/
def charEnds (s : Octets) : List Nat := (placedChars s).map fun (i, c) => i + c.utf8Size

def indexOf? (needle : Octets) : Octets → Option Nat
  | [] => if needle.isEmpty then some 0 else none
  | b :: bs =>
    if needle.isPrefixOf (b :: bs) then some 0 else (indexOf? needle bs).map (· + 1)

/-- The place where a text is found last. -/
def lastIndexOf? (needle s : Octets) : Option Nat :=
  (indexOf? needle.reverse s.reverse).map fun i => s.length - i - needle.length

/-- The ends of all places where a text is found, from the last one on, which do not overlap. -/
def endsOf (needle : Octets) : Nat → Octets → List Nat
  | 0, _ => []
  | fuel + 1, s =>
    match lastIndexOf? needle s with
    | some i => (i + needle.length) :: endsOf needle fuel (s.take i)
    | none => []

def isSlash (b : UInt8) : Bool := b == 0x2F

def hasSlash (s : Octets) : Bool := s.any isSlash

/-- The text before the first slash. -/
def beforeSlash (s : Octets) : Octets := s.takeWhile fun b => !isSlash b

/-! ## Finding -/

/-- Where something is found in a text: its start, and all lengths it may have. -/
structure Hit where
  start : Nat
  lengths : List Nat

abbrev Test : Type := Octets → Except Overrun Bool

abbrev Finder : Type := Octets → Except Overrun (Option Hit)

/-- The text is a single character of a kind. -/
def takesOne (accepts : Char → Bool) (s : Octets) : Bool :=
  match s.pieces with
  | [] => accepts '�'
  | [piece] => accepts piece.toChar
  | _ => false

def findOne (accepts : Char → Bool) (s : Octets) : Option Hit :=
  ((placedChars s).find? fun (_, c) => accepts c).map fun (i, c) => ⟨i, [c.utf8Size]⟩

/-- A text, and a run after it. -/
def findStart (first : Octets) (cut : Octets → Octets) (s : Octets) : Option Hit :=
  (indexOf? first s).map fun i =>
    let n := first.length
    ⟨i, n :: (charEnds (cut (s.drop (i + n)))).map (n + ·)⟩

/-- The run without a slash before a text, and the text. -/
def findPlainEnd (last s : Octets) : Option Hit :=
  (indexOf? last s).map fun i =>
    let start := i - ((s.take i).reverse.takeWhile fun b => !isSlash b).length
    ⟨start, [i + last.length - start]⟩

def findStartEnd (first last s : Octets) : Option Hit := do
  let i ← indexOf? first s
  if last.isEmpty then return ⟨i, [s.length - i]⟩
  let found := endsOf last (s.length + 1) (s.drop i)
  guard (!found.isEmpty)
  return ⟨i, found.reverse⟩

def findHolding (needle s : Octets) : Option Hit :=
  (indexOf? needle s).map fun i =>
    let offset := i + needle.length
    ⟨0, (gaps (s.drop offset)).map (offset + ·)⟩

/-- The text before the first place where something is found. -/
def cutAt (needle s : Octets) : Octets :=
  match indexOf? needle s with
  | some i => s.take i
  | none => s

def findAtLeast (count : Nat) (s : Octets) : Option Hit :=
  let found := (charEnds s).drop (count - 1)
  if s.length < count ∨ found.isEmpty then none else some ⟨0, found⟩

/-- Two ascending lists as one. -/
def mergeLengths : List Nat → List Nat → List Nat
  | [], bs => bs
  | as, [] => as
  | a :: as, b :: bs =>
    if a = b then a :: mergeLengths as bs
    else if a < b then a :: mergeLengths as (b :: bs)
    else b :: mergeLengths (a :: as) bs
termination_by as bs => as.length + bs.length

/-- The earlier of two hits; of two at one place, both. -/
def joinHits : Option Hit → Option Hit → Option Hit
  | none, b => b
  | a, none => a
  | some a, some b =>
    if b.start < a.start then some b
    else if a.start < b.start then some a
    else some ⟨a.start, mergeLengths a.lengths b.lengths⟩

/-- Hits of all finders at the start of a text. -/
def findEvery (s : Octets) : List Nat → List Finder → Except Overrun (Option Hit)
  | lengths, [] => .ok (some ⟨0, lengths⟩)
  | lengths, find :: finders => do
    match ← find s with
    | none => return none
    | some hit =>
      let both := lengths.flatMap fun n => hit.lengths.filter (· == n)
      if both.isEmpty then return none
      findEvery s both finders

def findFirstOf (s : Octets) : Option Hit → List Finder → Except Overrun (Option Hit)
  | hit?, [] => .ok hit?
  | hit?, find :: finders => do findFirstOf s (joinHits hit? (← find s)) finders

def testAny (s : Octets) : List Test → Except Overrun Bool
  | [] => .ok false
  | test :: tests => do if ← test s then return true else testAny s tests

def testAll (s : Octets) : List Test → Except Overrun Bool
  | [] => .ok true
  | test :: tests => do if ← test s then testAll s tests else return false

/-- The text starts with parts of known lengths. -/
def testRow : List (Nat × Test) → Test
  | [], _ => .ok true
  | (length, test) :: parts, s =>
    let places := (placedChars s).map Prod.fst
    if places.length < length then .ok false
    else
      let last := if length = 0 then places.getLast?.getD 0 else places.getD (length - 1) 0
      if s.length < last + 1 then .error .pastEnd
      else do if ← test (s.take (last + 1)) then testRow parts (s.drop (last + 1)) else return false

/-- The first place where parts of known lengths are found. -/
def findRow (length : Nat) (parts : List (Nat × Test)) (s : Octets) :
    List Nat → Except Overrun (Option Hit)
  | [] => .ok none
  | place :: places => do
    let rest := s.drop place
    if rest.length < length then return none
    if ← testRow parts rest then return some ⟨place, [length]⟩ else findRow length parts s places

/-- Some of the lengths leave a text that is all right, the greatest one first. -/
def testAfter (right : Test) (s : Octets) : List Nat → Except Overrun Bool
  | [] => .ok false
  | length :: lengths => do
    if ← right (s.drop length) then return true else testAfter right s lengths

/-- Try the places of a pivot from an offset on. -/
def testSplit (find : Finder) (left right : Test) (limit : Nat) (s : Octets) :
    Nat → Nat → Except Overrun Bool
  | 0, _ => .ok false
  | fuel + 1, offset => do
    if limit ≤ offset then return false
    match ← find ((s.take limit).drop offset) with
    | none => return false
    | some hit =>
      let place := offset + hit.start
      let rest : Octets := s.drop place
      if ← left (s.take place) then
        if ← testAfter right rest hit.lengths.reverse then return true
      let step := (rest.pieces.head?.map (·.size)).getD 0
      testSplit find left right limit s fuel (place + step)

/-! ## Matching -/

def inSet (chars : List Char) (negated : Bool) (c : Char) : Bool := chars.contains c != negated

def inRange (low high : Char) (negated : Bool) (c : Char) : Bool :=
  (low ≤ c && c ≤ high) != negated

def knownLengths (lengths : List (Option Nat)) : List Nat := lengths.map (·.getD 0)

mutual
/-- The matcher takes a whole text. -/
def Matcher.takes : Matcher → Octets → Except Overrun Bool
  | .edge, s => .ok s.isEmpty
  | .nothing, s => .ok s.isEmpty
  | .text octets, s => .ok (octets == s)
  | .run, s => .ok (!hasSlash s)
  | .anyRun, _ => .ok true
  | .one, s => .ok (takesOne (· != '/') s)
  | .set chars negated, s => .ok (takesOne (inSet chars negated) s)
  | .range low high negated, s => .ok (takesOne (inRange low high negated) s)
  | .holds needle, s => .ok (indexOf? needle s).isSome
  | .lacks needle, s => .ok (indexOf? needle s).isNone
  | .atLeast count, s => .ok (0 < s.pieces.length && count ≤ s.pieces.length)
  | .atMost count, s => .ok (s.pieces.length ≤ count)
  | .starts first, s => .ok (first.isPrefixOf s)
  | .startsPlain first, s => .ok (first.isPrefixOf s && !hasSlash (s.drop first.length))
  | .ends last, s => .ok (last.isSuffixOf s)
  | .endsPlain last, s =>
    .ok (last.isSuffixOf s && !hasSlash (s.take (s.length - last.length)))
  | .startsEnds first last, s => .ok (first.isPrefixOf s && last.isSuffixOf s)
  | .anyOf ms, s => testAny s (testsOf ms)
  | .everyOf ms, s => testAll s (testsOf ms)
  | .row parts, s =>
    let lengths := knownLengths (lengthsOf parts)
    if s.pieces.length = lengths.foldr (· + ·) 0 then testRow (lengths.zip (testsOf parts)) s
    else .ok false
  | .split pivot left right, s =>
    if (Matcher.split pivot left right).length?.any (s.length < ·) then .ok false
    else testSplit pivot.find left.takes right.takes (s.length - right.length?.getD 0) s
      (s.length + 1) (left.length?.getD 0)
def testsOf : List Matcher → List Test
  | [] => []
  | m :: ms => m.takes :: testsOf ms
/-- Where a matcher finds a part of a text that it takes. -/
def Matcher.find : Matcher → Octets → Except Overrun (Option Hit)
  | .edge, _ => .ok (some ⟨0, [0]⟩)
  | .nothing, _ => .ok (some ⟨0, [0]⟩)
  | .text octets, s => .ok ((indexOf? octets s).map fun i => ⟨i, [octets.length]⟩)
  | .run, s => .ok (some ⟨0, gaps (beforeSlash s)⟩)
  | .anyRun, s => .ok (some ⟨0, gaps s⟩)
  | .one, s => .ok (findOne (· != '/') s)
  | .set chars negated, s => .ok (findOne (inSet chars negated) s)
  | .range low high negated, s => .ok (findOne (inRange low high negated) s)
  | .holds needle, s => .ok (findHolding needle s)
  | .lacks needle, s => .ok (some ⟨0, gaps (cutAt needle s)⟩)
  | .atLeast count, s => .ok (findAtLeast count s)
  | .atMost count, s => .ok (some ⟨0, 0 :: (charEnds s).take count⟩)
  | .starts first, s => .ok (findStart first id s)
  | .startsPlain first, s => .ok (findStart first beforeSlash s)
  | .ends last, s => .ok ((indexOf? last s).map fun i => ⟨0, [i + last.length]⟩)
  | .endsPlain last, s => .ok (findPlainEnd last s)
  | .startsEnds first last, s => .ok (findStartEnd first last s)
  | .anyOf ms, s => findFirstOf s none (findersOf ms)
  | .everyOf ms, s =>
    match findersOf ms with
    | [] => .ok (some ⟨0, []⟩)
    | find :: finders => do
      match ← find s with
      | none => return none
      | some hit => findEvery s hit.lengths finders
  | .row parts, s =>
    let lengths := knownLengths (lengthsOf parts)
    findRow (lengths.foldr (· + ·) 0) (lengths.zip (testsOf parts)) s
      ((placedChars s).map Prod.fst)
  | .split _ _ _, _ => .ok none
def findersOf : List Matcher → List Finder
  | [] => []
  | m :: ms => m.find :: findersOf ms
end

end BitSchema.Glob
