import BitSchema.Text.Octets

/-!
# Slash paths

Paths as text, with a slash between two elements.  A path is taken apart into its elements, worked
on, and put together again; none of this looks at files.

A path that may not be UTF-8 is worked on octet by octet.
-/

namespace BitSchema.Path

def isAbsolute (path : String) : Bool := path.toList.head? == some '/'

/-- The elements between slashes, empty ones among them. -/
def elements (path : String) : List String := (path.toList.splitOn '/').map String.ofList

/-- One more element on top of those cleaned so far, which stand innermost first. -/
def pushElement (rooted : Bool) (done : List String) (element : String) : List String :=
  if element = "" ∨ element = "." then done
  else if element = ".." then
    match done with
    | [] => if rooted then [] else [".."]
    | top :: rest => if top = ".." then ".." :: done else rest
  else element :: done

/-- The elements of a path without empty ones, single dots, and what double dots undo. -/
def cleanElements (path : String) : List String :=
  ((elements path).foldl (pushElement (isAbsolute path)) []).reverse

/-- A path from its elements. -/
def ofElements (rooted : Bool) (elements : List String) : String :=
  let joined := "/".intercalate elements
  if rooted then "/" ++ joined else if elements.isEmpty then "." else joined

/-- The shortest path that means the same. -/
def clean (path : String) : String := ofElements (isAbsolute path) (cleanElements path)

/-- Parts put together and cleaned; empty ones are left out. -/
def join (parts : List String) : String :=
  let parts := parts.filter (· != "")
  if parts.isEmpty then "" else clean ("/".intercalate parts)

def endsInSlash (path : String) : Bool := path.toList.getLast? == some '/'

/-- A path without the slashes at its end. -/
def dropSlashes (path : String) : String :=
  String.ofList (path.toList.reverse.dropWhile (· == '/')).reverse

/-- What stands after the last slash. -/
def lastElement (path : String) : String := (elements path).getLast?.getD ""

/-- The last element of a path; trailing slashes do not count. -/
def base (path : String) : String :=
  if path = "" then "."
  else
    let trimmed := dropSlashes path
    if trimmed = "" then "/" else lastElement trimmed

/-- All but the last element, cleaned. -/
def dir (path : String) : String :=
  let cut := (path.toList.reverse.dropWhile (· != '/')).reverse
  clean (String.ofList cut)

/-- The last dot of the last element and what follows it; nothing if there is no dot. -/
def ext (path : String) : String :=
  let chars := (lastElement path).toList
  let after := (chars.reverse.takeWhile (· != '.')).reverse
  if after.length = chars.length then "" else String.ofList ('.' :: after)

/-- The start that two lists share is dropped from both. -/
def dropCommon : List String → List String → List String × List String
  | a :: as, b :: bs => if a = b then dropCommon as bs else (a :: as, b :: bs)
  | as, bs => (as, bs)

/-- The path from `root` to `target`; `none` if there is no telling. -/
def rel? (root target : String) : Option String :=
  if isAbsolute root != isAbsolute target then none
  else
    let (up, down) := dropCommon (cleanElements root) (cleanElements target)
    if up.head? = some ".." then none
    else some (ofElements false (up.map (fun _ => "..") ++ down))

/-- `target` is `root` or lies below it. -/
def within (root target : String) : Bool :=
  match rel? root target with
  | none => false
  | some rel => rel != ".." && !"../".toList.isPrefixOf rel.toList && !isAbsolute rel

/-- A path that names something inside a tree: no element is empty or made of dots alone. -/
def isLocal (path : String) : Bool :=
  path = "." || (elements path).all fun e => e != "" && e != "." && e != ".."

/-! ## Paths that may not be text -/

def cleanOctets (path : Octets) : Octets := .ofOctetwise (clean path.octetwise)

def joinOctets (parts : List Octets) : Octets := .ofOctetwise (join (parts.map Octets.octetwise))

end BitSchema.Path
