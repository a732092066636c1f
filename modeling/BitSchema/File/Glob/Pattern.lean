/-!
# Path patterns as they are written

`*` is any run without a slash, `**` any run, `?` one character other than a slash, `[a-c]` and
`[!abc]` one character in or out of a set, `{x,y}` one of several patterns, and a backslash takes
the next character as it is.  A choice that is not closed ends with the pattern.

A null ends a pattern where a part could start, and a text where it stands in one.
-/

namespace BitSchema.Glob

/-- A part of a pattern.  `nothing` is what is left of an alternative that is all taken away. -/
inductive Part where
  | text (chars : List Char)
  | run
  | anyRun
  | one
  | range (low high : Char) (negated : Bool)
  | set (chars : List Char) (negated : Bool)
  | choice (alternatives : List Part)
  | sequence (parts : List Part)
  | nothing
  deriving Repr, Inhabited

/-- Why a text is no pattern. -/
inductive Fault where
  | unreadable
  | unfinished
  | unclosed
  | emptySet
  | reversed (low high : Char)
  deriving DecidableEq, Repr

def Fault.message : Fault → String
  | unreadable => "could not read rune"
  | unfinished => "unexpected end of input"
  | unclosed => "expected close range character"
  | emptySet => "could not parse range"
  | reversed low high =>
    "hi character '" ++ high.toString ++ "' should be greater than lo '" ++ low.toString ++ "'"

/-- The character that stands for what cannot be read. -/
def isUnreadable (c : Char) : Bool := c == '�'

def isNull (c : Char) : Bool := c == '\x00'

/-- The text up to a character that ends it, with its escapes undone, and the rest.  What cannot be
read ends it too; a null ends it and is dropped. -/
def plainText (stops : List Char) (escaped : Bool) : List Char → List Char × List Char
  | [] => ([], [])
  | c :: cs =>
    if isNull c then ([], cs)
    else if isUnreadable c then ([], c :: cs)
    else if !escaped && c == '\\' then plainText stops true cs
    else if !escaped && stops.contains c then ([], c :: cs)
    else
      let (text, rest) := plainText stops false cs
      (c :: text, rest)

/-- There is a character that can be read. -/
def canRead (cs : List Char) : Bool := cs.head?.any fun c => !isNull c && !isUnreadable c

/-- The text after a closing bracket. -/
def closeBracket (cs : List Char) : Except Fault (List Char) :=
  if !canRead cs then .error .unfinished
  else if cs.head? = some ']' then .ok (cs.drop 1)
  else .error .unclosed

/-- What stands in brackets, after the opening one and the mark of negation. -/
def bracketBody (negated : Bool) (cs : List Char) : Except Fault (Part × List Char) :=
  match cs with
  | [] => .error .unfinished
  | low :: after =>
    if !canRead cs then .error .unfinished
    else match after with
      | '-' :: more => do
        if !canRead more then throw .unfinished
        let rest ← closeBracket (more.drop 1)
        let high := more.head?.getD low
        if high < low then throw (.reversed low high)
        return (.range low high negated, rest)
      | _ => do
        let (chars, rest) := plainText [']'] false cs
        let rest ← closeBracket rest
        if chars.isEmpty then throw .emptySet
        return (.set chars negated, rest)

def bracket : List Char → Except Fault (Part × List Char)
  | '!' :: rest => bracketBody true rest
  | cs => bracketBody false cs

/-- The characters that end a text, outside of a choice and in it. -/
def textStops (inChoice : Bool) : List Char :=
  ['?', '*', '[', '\x7b'] ++ if inChoice then ['\x7d', ','] else []

mutual
/-- The parts of a pattern up to the end of it or of the alternative it stands in. -/
def readParts (inChoice : Bool) : Nat → List Char → Except Fault (List Part × List Char)
  | 0, cs => .ok ([], cs)
  | fuel + 1, cs =>
    match cs with
    | [] => .ok ([], [])
    | '\x7b' :: rest => do
      let (alternatives, rest) ← readAlternatives fuel rest
      readMore inChoice fuel (.choice alternatives) rest
    | '[' :: rest => do
      let (part, rest) ← bracket rest
      readMore inChoice fuel part rest
    | '?' :: rest => readMore inChoice fuel .one rest
    | '*' :: '*' :: rest => readMore inChoice fuel .anyRun rest
    | '*' :: rest => readMore inChoice fuel .run rest
    | c :: _ =>
      if isNull c then .ok ([], [])
      else if isUnreadable c then .error .unreadable
      else if inChoice && (c == ',' || c == '\x7d') then .ok ([], cs)
      else
        let (chars, rest) := plainText (textStops inChoice) false cs
        if rest.head?.any isUnreadable then .error .unreadable
        else if chars.isEmpty then readParts inChoice fuel rest
        else readMore inChoice fuel (.text chars) rest
/-- The parts after one that is read. -/
def readMore (inChoice : Bool) : Nat → Part → List Char → Except Fault (List Part × List Char)
  | 0, part, cs => .ok ([part], cs)
  | fuel + 1, part, cs => do
    let (parts, rest) ← readParts inChoice fuel cs
    return (part :: parts, rest)
/-- The alternatives of a choice. -/
def readAlternatives : Nat → List Char → Except Fault (List Part × List Char)
  | 0, cs => .ok ([], cs)
  | fuel + 1, cs => do
    let (first, rest) ← readParts true fuel cs
    match rest with
    | ',' :: rest =>
      let (more, rest) ← readAlternatives fuel rest
      return (.sequence first :: more, rest)
    | _ :: rest => return ([.sequence first], rest)
    | [] => return ([.sequence first], [])
end

/-- The parts of a pattern. -/
def parse (pattern : String) : Except Fault (List Part) := do
  let cs := pattern.toList
  let (parts, _) ← readParts false (4 * cs.length + 4) cs
  return parts

mutual
/-- Two parts are the same. -/
def Part.same : Part → Part → Bool
  | .text a, .text b => a == b
  | .run, .run => true
  | .anyRun, .anyRun => true
  | .one, .one => true
  | .range l h n, .range l' h' n' => l == l' && h == h' && n == n'
  | .set c n, .set c' n' => c == c' && n == n'
  | .choice a, .choice b => samePairs a b
  | .sequence a, .sequence b => samePairs a b
  | .nothing, .nothing => true
  | _, _ => false
def samePairs : List Part → List Part → Bool
  | [], [] => true
  | a :: as, b :: bs => a.same b && samePairs as bs
  | _, _ => false
end

end BitSchema.Glob
