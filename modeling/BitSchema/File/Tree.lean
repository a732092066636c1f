import BitSchema.File.Error
import BitSchema.File.Path

/-!
# File trees

A file system as a value: what stands at each place, and the directory that relative paths start
from.

A place is the list of names on the way to it from the root.  `place?` finds the place that a path
means, through the symbolic links on the way; every operation on a path starts there.  `canonical`
is the same for paths that have to exist, and gives the place without links as a path again.
-/

namespace BitSchema

/-- What stands at a place. -/
inductive FileNode where
  | file (content : ByteArray) (executable : Bool)
  | directory
  | link (target : String)

namespace FileNode

def isDirectory : FileNode → Bool
  | directory => true
  | _ => false

def isRegular : FileNode → Bool
  | file .. => true
  | _ => false

def isExecutable : FileNode → Bool
  | file _ executable => executable
  | _ => false

end FileNode

/-- The names on the way from the root. -/
abbrev Place : Type := List String

/-- A file system.  The root is always there; `here` is where relative paths start. -/
structure FileTree where
  nodes : List (Place × FileNode) := []
  here : Place := []

namespace FileTree

/-- What stands at a place itself, links not followed. -/
def node? (t : FileTree) (place : Place) : Option FileNode :=
  if place = [] then some .directory else (t.nodes.find? (·.1 == place)).map Prod.snd

def isDirectoryAt (t : FileTree) (place : Place) : Bool :=
  (t.node? place).any FileNode.isDirectory

/-- Put a node at a place, over what stands there. -/
def put (t : FileTree) (place : Place) (node : FileNode) : FileTree :=
  { t with nodes := (place, node) :: t.nodes.filter (·.1 != place) }

/-- Put a node at a place, and directories on the way to it.  A directory takes nothing away. -/
def plant (t : FileTree) (place : Place) (node : FileNode) : FileTree :=
  let t := (List.range place.length).foldl (fun t n =>
    let above := place.take n
    if (t.node? above).isSome then t else t.put above .directory) t
  match node, t.node? place with
  | .directory, some _ => t
  | _, _ => t.put place node

/-- Take away what stands at a place. -/
def erase (t : FileTree) (place : Place) : FileTree :=
  { t with nodes := t.nodes.filter (·.1 != place) }

/-- The names in a directory, in order. -/
def names (t : FileTree) (place : Place) : List String :=
  (t.nodes.filterMap fun (p, _) =>
    if p.dropLast = place then p.getLast? else none).mergeSort (· ≤ ·)

/-! ## Paths -/

def startOf (t : FileTree) (path : String) : Place := if Path.isAbsolute path then [] else t.here

/-- The path of a place. -/
def pathOf (place : Place) : String := Path.ofElements true place

/-- A path made absolute and cleaned. -/
def absolute (t : FileTree) (path : String) : String :=
  if Path.isAbsolute path then Path.clean path else Path.join [pathOf t.here, path]

/-- How many links are followed on the way to one place. -/
def linkLimit : Nat := 40

/-- How many octets a name may have. -/
def nameLimit : Nat := 255

/-- No path has a null in it. -/
def hasNull (path : String) : Bool := path.toList.contains '\x00'

/-- The place that names lead to from a directory.  Only the last name may be of nothing.  A link is
followed if names come after it, or if `follow` says so. -/
def walk (t : FileTree) (follow : Bool) (links : Nat) (dir : Place) (names : List String) :
    Except FileReason Place :=
  match names with
  | [] => .ok dir
  | name :: rest =>
    if !t.isDirectoryAt dir then .error .notDirectory
    else if name = "" ∨ name = "." then walk t follow links dir rest
    else if name = ".." then walk t follow links dir.dropLast rest
    else if nameLimit < name.utf8ByteSize then .error .nameTooLong
    else
      let next := dir ++ [name]
      match t.node? next with
      | none => if rest.isEmpty then .ok next else .error .notExist
      | some (.link target) =>
        if rest.isEmpty && !follow then .ok next
        else match links with
          | 0 => .error .tooManyLinks
          | links + 1 =>
            let start := if Path.isAbsolute target then [] else dir
            walk t follow links start (Path.elements target ++ rest)
      | some _ => walk t follow links next rest
termination_by (links, names.length)

/-- The place that a path means. -/
def place? (t : FileTree) (follow : Bool) (path : String) : Except FileReason Place :=
  if path = "" then .error .notExist
  else if hasNull path then .error .invalid
  else t.walk follow linkLimit (t.startOf path) (Path.elements path)

/-- What a path means, with its place. -/
def look (t : FileTree) (follow : Bool) (path : String) : Except FileReason (Place × FileNode) :=
  match t.place? follow path with
  | .error reason => .error reason
  | .ok place =>
    match t.node? place with
    | none => .error .notExist
    | some node => .ok (place, node)

/-- What a path means, links followed. -/
def stat (t : FileTree) (path : String) : Except FileError FileNode :=
  match t.look true path with
  | .ok (_, node) => .ok node
  | .error reason => .error (.on "stat" path reason)

/-- Why a path leads nowhere that is not text: no directory holds the first name that is none. -/
def strayReason (t : FileTree) (path : Octets) : FileReason :=
  let names := path.splitOn 0x2F
  let before := names.takeWhile Octets.isUtf8
  let stray := (names.drop before.length).headD []
  if path.contains 0 then .invalid
  else match t.walk true linkLimit (t.startOf path.octetwise)
      (before.map Octets.toString ++ [""]) with
    | .error reason => reason
    | .ok _ => if nameLimit < stray.length then .nameTooLong else .notExist

/-- What a path means that may not be text, links followed. -/
def statOctets (t : FileTree) (path : Octets) : Except FileError FileNode :=
  match path.toString? with
  | some text => t.stat text
  | none => .error (.on "stat" path.toString (t.strayReason path))

/-- What a path means; a link stands for itself. -/
def linkStat (t : FileTree) (path : String) : Except FileError (Place × FileNode) :=
  match t.look false path with
  | .ok found => .ok found
  | .error reason => .error (.on "lstat" path reason)

def isRegular (t : FileTree) (path : String) : Bool :=
  match t.stat path with
  | .ok node => node.isRegular
  | .error _ => false

def isExecutable (t : FileTree) (path : String) : Bool :=
  match t.stat path with
  | .ok node => node.isExecutable
  | .error _ => false

/-- The contents of a file. -/
def readFile (t : FileTree) (path : String) : Except FileError ByteArray :=
  match t.look true path with
  | .error reason => .error (.on "open" path reason)
  | .ok (_, .file content _) => .ok content
  | .ok (_, _) => .error (.on "read" path .isDirectory)

/-- The contents at a path, if there is a file. -/
def content? (t : FileTree) (path : String) : Option ByteArray := (t.readFile path).toOption

/-! ## What lies below a place -/

/-- Something in a tree, with the path it was reached by. -/
structure Entry where
  place : Place
  path : String
  node : FileNode

/-- All that lies at a place and below it, a directory before what is in it and names in order.
Directories with names that `skip` tells are left out with all they hold; links are not followed. -/
def entriesAt (t : FileTree) (skip : String → Bool) : Nat → Place → String → List Entry
  | 0, _, _ => []
  | fuel + 1, place, path =>
    match t.node? place with
    | none => []
    | some .directory =>
      ⟨place, path, .directory⟩ :: (t.names place).flatMap fun name =>
        let below := place ++ [name]
        if skip name && t.isDirectoryAt below then []
        else entriesAt t skip fuel below (Path.join [path, name])
    | some node => [⟨place, path, node⟩]

/-- All that lies at a path and below it.  No place is deeper than there are nodes. -/
def entries (t : FileTree) (skip : String → Bool) (path : String) :
    Except FileError (List Entry) := do
  let (place, _) ← t.linkStat path
  return t.entriesAt skip (t.nodes.length + 1) place path

/-- The name of a hidden file or directory. -/
def isHidden (name : String) : Bool := name.toList.head? == some '.'

/-! ## Canonical paths -/

/-- How many links are followed on the way to a canonical path. -/
def canonicalLinkLimit : Nat := 255

/-- The place of something that exists, all links followed. -/
def canonicalPlace (t : FileTree) (links : Nat) (dir : Place) (names : List String) :
    Except FileError Place :=
  match names with
  | [] => .ok dir
  | name :: rest =>
    if name = "" ∨ name = "." then canonicalPlace t links dir rest
    else if name = ".." then canonicalPlace t links dir.dropLast rest
    else
      let next := dir ++ [name]
      if hasNull name then .error (.on "lstat" (pathOf next) .invalid)
      else if nameLimit < name.utf8ByteSize then .error (.on "lstat" (pathOf next) .nameTooLong)
      else match t.node? next with
      | none => .error (.on "lstat" (pathOf next) .notExist)
      | some (.link target) =>
        match links with
        | 0 => .error ⟨none, .linkLimit⟩
        | links + 1 =>
          let start := if Path.isAbsolute target then [] else dir
          canonicalPlace t links start (Path.elements target ++ rest)
      | some .directory => canonicalPlace t links next rest
      | some (.file ..) =>
        if rest.isEmpty then .ok next else .error ⟨none, .notDirectory⟩
termination_by (links, names.length)

/-- The absolute path without links of something that exists. -/
def canonical (t : FileTree) (path : String) : Except FileError String :=
  (t.canonicalPlace canonicalLinkLimit [] (Path.elements (t.absolute path))).map pathOf

/-! ## Changes -/

/-- The place that a path means for a file that is written.  With a slash at its end it means a
directory, if the way to it can be gone at all. -/
def writePlace? (t : FileTree) (path : String) : Except FileReason Place :=
  if Path.endsInSlash path then
    match t.place? false (Path.dropSlashes path) with
    | .error reason => if Path.dropSlashes path = "" then .error .isDirectory else .error reason
    | .ok _ => .error .isDirectory
  else t.place? true path

/-- Write a file, new or over an old one. -/
def writeFile (t : FileTree) (path : String) (content : ByteArray) : Except FileError FileTree :=
  match t.writePlace? path with
  | .error reason => .error (.on "open" path reason)
  | .ok place =>
    match t.node? place with
    | some (.file _ executable) => .ok (t.put place (.file content executable))
    | some _ => .error (.on "open" path .isDirectory)
    | none => .ok (t.put place (.file content false))

/-- Make one directory whose parent exists. -/
def makeDirectory (t : FileTree) (path : String) : Except FileError FileTree :=
  match t.look true path with
  | .ok (_, .directory) => .ok t
  | .ok (_, _) => .error (.on "mkdir" path .notDirectory)
  | .error _ =>
    match t.place? false (Path.dropSlashes path) with
    | .error reason => .error (.on "mkdir" path reason)
    | .ok place =>
      match t.node? place with
      | some _ => .error (.on "mkdir" path .exists)
      | none => .ok (t.put place .directory)

/-- The directories on the way to a path, each but the last with a slash at its end. -/
def parents (path : String) : List String :=
  let names := Path.cleanElements path
  let root := if Path.isAbsolute path then "/" else ""
  let inner := (List.range (names.length - 1)).map fun i =>
    root ++ "/".intercalate (names.take (i + 1)) ++ "/"
  inner ++ [Path.ofElements (Path.isAbsolute path) names]

/-- A change that may fail; what it did before it failed stays. -/
abbrev Action (α : Type) : Type := ExceptT FileError (StateM FileTree) α

/-- A change that does nothing if it fails. -/
def Action.ofStep (step : FileTree → Except FileError FileTree) : Action Unit := do
  match step (← get) with
  | .ok t => set t
  | .error e => throw e

/-- Make directories one after the other. -/
def makeEach : List String → Action Unit
  | [] => pure ()
  | path :: rest => do
    Action.ofStep (makeDirectory · path)
    makeEach rest

/-- Make a directory and all that it lies in. -/
def makeDirectories (path : String) : Action Unit := makeEach (parents path)

end FileTree

end BitSchema
