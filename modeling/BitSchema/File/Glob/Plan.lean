import BitSchema.File.Glob.Matcher
import BitSchema.File.Glob.Pattern

/-!
# From patterns to matchers

How the parts of a pattern are put together into a matcher.

Parts that all alternatives of a choice start or end with are taken out of it.  Neighbours that make
a single test are glued, the longest run of them first.  Of what is left the longest part of known
length becomes the pivot, and what stands before and after it is put together in the same way.  A
text with a run beside it has a test of its own.
-/

namespace BitSchema.Glob

/-! ## Choices -/

/-- How far the search for common parts has come: what is common on either side, and whether the
search there is over. -/
structure Common where
  left : Nat := 0
  right : Nat := 0
  leftOver : Bool := false
  rightOver : Bool := false

def partsOf : Part → List Part
  | .sequence parts => parts
  | _ => []

/-- Compare the `i`th parts from both ends of the shortest alternative with those of the others.
The search from the right is over where the two meet. -/
def Common.compare (shortest : List Part) (i : Nat) (c : Common) : List (List Part) → Common
  | [] => c
  | other :: others =>
    if c.leftOver && c.rightOver then c
    else
      let same := fun (a b : List Part) => (a.getD i .nothing).same (b.getD i .nothing)
      let leftOver := c.leftOver || !same shortest other
      let meet := !leftOver && shortest.length - 1 - i ≤ i
      let rightOver := c.rightOver || meet || !same shortest.reverse other.reverse
      compare shortest i { c with leftOver, rightOver } others

/-- Count the common parts from the `i`th ones on. -/
def Common.count (shortest : List Part) (others : List (List Part)) : Nat → Nat → Common → Common
  | 0, _, c => c
  | fuel + 1, i, c =>
    if shortest.length ≤ c.left + c.right || (c.leftOver && c.rightOver) then c
    else
      let c := c.compare shortest i others
      count shortest others fuel (i + 1)
        { c with
          left := if c.leftOver then c.left else c.left + 1
          right := if c.rightOver then c.right else c.right + 1 }

/-- The place of the first shortest list. -/
def shortestIndex (lists : List (List Part)) : Nat :=
  let least := (lists.map List.length).min?.getD 0
  lists.findIdx (·.length == least)

/-- The numbers of parts that all alternatives start with and end with. -/
def commonParts (alternatives : List (List Part)) : Nat × Nat :=
  if alternatives.length ≤ 1 then (0, 0)
  else
    let place := shortestIndex alternatives
    let shortest := alternatives.getD place []
    let c := Common.count shortest (alternatives.eraseIdx place) shortest.length 0 {}
    (c.left, c.right)

/-- The parts without the first that are the same. -/
def distinct (parts : List Part) : List Part :=
  (parts.foldl (fun done part => if done.any part.same then done else part :: done) []).reverse

/-- Take common parts out of alternatives; `none` if there are none. -/
def factor? (alternatives : List Part) : Option Part :=
  let lists := alternatives.map partsOf
  let isSequence := fun | Part.sequence _ => true | _ => false
  let (left, right) := commonParts lists
  if !alternatives.all isSequence || left + right = 0 then none
  else
    let first := lists.head?.getD []
    let rests := distinct (lists.map fun parts =>
      let rest := (parts.drop left).take (parts.length - left - right)
      if rest.isEmpty then .nothing else .sequence rest)
    let middle := match rests with
      | [.nothing] => []
      | [rest] => [rest]
      | _ => [.choice rests]
    let side := fun parts => if parts.isEmpty then [] else [Part.sequence parts]
    some (.sequence (side (first.take left) ++ middle ++ side (first.drop (first.length - right))))

/-! ## Gluing -/

/-- The characters that a part of a run refuses. -/
def refused? : Matcher → Option (List Char)
  | .anyRun => some []
  | .run => some ['/']
  | .one => some ['/']
  | .set chars true => some chars
  | _ => none

def isRun : Matcher → Bool
  | .run => true
  | _ => false

def isAnyRun : Matcher → Bool
  | .anyRun => true
  | _ => false

/-- Runs and single characters that refuse the same as one test. -/
def glueRuns? (ms : List Matcher) : Option Matcher := do
  let refused ← ms.mapM refused?
  let chars ← refused.head?
  guard (refused.all (· == chars))
  let ones := (ms.filter fun m => !isRun m && !isAnyRun m).length
  let hasRun := ms.any isRun
  let hasAnyRun := ms.any isAnyRun
  return if ones = 0 && !hasRun then .anyRun
    else if ones = 0 && !hasAnyRun then .run
    else if (hasRun || hasAnyRun) && chars.isEmpty then .atLeast ones
    else .everyOf <|
      (if ones = 0 then [] else [Matcher.atLeast ones]) ++
      (if ones = 0 || hasRun || hasAnyRun then [] else [Matcher.atMost ones]) ++
      (if chars.isEmpty then [] else [Matcher.lacks (Octets.ofString (String.ofList chars))])

/-- Parts of known lengths as one test. -/
def glueRow? (ms : List Matcher) : Option Matcher :=
  if ms.all (·.length?.isSome) then some (.row ms) else none

def glue? (ms : List Matcher) : Option Matcher :=
  if ms.length ≤ 1 then none else (glueRuns? ms).or (glueRow? ms)

/-- Neighbours that are glued. -/
structure Glued where
  first : Nat
  count : Nat
  matcher : Matcher

/-- The second is better: it is longer, or more are glued. -/
def Glued.isBetter (old new : Glued) : Bool :=
  (match old.matcher.length?, new.matcher.length? with
    | some a, some b => decide (a < b)
    | _, _ => false) || decide (old.count < new.count)

/-- The best neighbours to glue, if any can be. -/
def bestGlued? (ms : List Matcher) : Option Glued :=
  let spans := (List.range ms.length).flatMap fun first =>
    ((List.range (ms.length - first)).map fun n => (first, n + 1)).reverse
  spans.foldl (fun best? (first, count) =>
    match glue? ((ms.drop first).take count), best? with
    | none, _ => best?
    | some m, none => some ⟨first, count, m⟩
    | some m, some best =>
      if best.isBetter ⟨first, count, m⟩ then some ⟨first, count, m⟩ else best?) none

/-- Glue neighbours until none can be. -/
def glueAll : Nat → List Matcher → List Matcher
  | 0, ms => ms
  | fuel + 1, ms =>
    match bestGlued? ms with
    | none => ms
    | some g => glueAll fuel (ms.take g.first ++ g.matcher :: ms.drop (g.first + g.count))

/-! ## Putting together -/

/-- The place of the longest matcher of known length, of several the last. -/
def pivotIndex? (ms : List Matcher) : Option Nat :=
  (ms.zipIdx.foldl (fun best? (m, i) =>
    match m.length?, best? with
    | none, _ => best?
    | some n, none => some (n, i)
    | some n, some (k, _) => if k ≤ n then some (n, i) else best?) none).map Prod.snd

/-- Matchers one after the other. -/
def chain : Nat → List Matcher → Matcher
  | 0, _ => .edge
  | _, [] => .edge
  | _, [m] => m
  | fuel + 1, m :: ms =>
    match glue? (m :: ms), pivotIndex? (m :: ms) with
    | some glued, _ => glued
    | none, none => .split m .edge (chain fuel ms)
    | none, some i =>
      .split ((m :: ms).getD i m) (chain fuel ((m :: ms).take i))
        (chain fuel ((m :: ms).drop (i + 1)))

/-- A text between two neighbours, which has a test of its own beside some. -/
def besideText (octets : Octets) (left right : Matcher) : Matcher :=
  match left, right with
  | .edge, .edge => .text octets
  | .anyRun, .anyRun => .holds octets
  | .anyRun, .edge => .ends octets
  | .edge, .anyRun => .starts octets
  | .edge, .ends last => .startsEnds octets last
  | .starts first, .edge => .startsEnds first octets
  | .run, .edge => .endsPlain octets
  | .edge, .run => .startsPlain octets
  | _, _ => .split (.text octets) left right

/-- The same matcher in a simpler form. -/
def simplify : Matcher → Matcher
  | .anyOf [m] => m
  | .set [c] false => .text (Octets.ofString c.toString)
  | .split pivot left right =>
    match pivot with
    | .text octets => besideText octets (simplify left) (simplify right)
    | _ => .split pivot (simplify left) (simplify right)
  | m => m

mutual
/-- The matcher of a part. -/
def planPart : Nat → Part → Matcher
  | 0, _ => .nothing
  | fuel + 1, part =>
    match part with
    | .text chars => .text (Octets.ofString (String.ofList chars))
    | .run => .run
    | .anyRun => .anyRun
    | .one => .one
    | .range low high negated => .range low high negated
    | .set chars negated => simplify (.set chars negated)
    | .nothing => .nothing
    | .sequence [] => .nothing
    | .sequence parts =>
      let ms := glueAll parts.length (planParts fuel parts)
      simplify (chain ms.length ms)
    | .choice alternatives =>
      match factor? alternatives with
      | some part => planPart fuel part
      | none => .anyOf (planParts fuel alternatives)
/-- The matchers of parts in a row. -/
def planParts : Nat → List Part → List Matcher
  | 0, _ => []
  | _, [] => []
  | fuel + 1, part :: parts => simplify (planPart fuel part) :: planParts fuel parts
end

mutual
/-- The number of parts in a part, itself counted. -/
def Part.size : Part → Nat
  | .choice alternatives => 1 + sizes alternatives
  | .sequence parts => 1 + sizes parts
  | _ => 1
def sizes : List Part → Nat
  | [] => 0
  | part :: parts => part.size + sizes parts
end

/-- The matcher of a pattern.  Taking parts out of a choice at most doubles the depth, and leaves
fewer of them in it each time. -/
def plan (parts : List Part) : Matcher := planPart (8 * sizes parts + 8) (.sequence parts)

end BitSchema.Glob
