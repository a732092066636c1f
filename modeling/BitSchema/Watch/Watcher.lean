import BitSchema.File.Change
import BitSchema.Log.Record

/-!
# Watching directories

A watcher collects the paths of changed files and gives them out in batches.

Its state holds the directories it is told about, the paths that wait for the next batch, and
whether the timer of that batch is running.  A step of it handles one event, lets the timer fire, or
takes note of an error; a batch is everything that waited, in order and each path once.
-/

namespace BitSchema

inductive WatchEventKind where
  | create
  | write
  | remove
  | rename
  | mode
  deriving DecidableEq, Repr

/-- Something happened to the file at a path.  One event may be of several kinds. -/
structure WatchEvent where
  kinds : List WatchEventKind
  path : String
  deriving DecidableEq, Repr

namespace WatchEvent

def has (e : WatchEvent) (kind : WatchEventKind) : Bool := e.kinds.contains kind

/-- More than the mode of the file has changed. -/
def isChange (e : WatchEvent) : Bool :=
  e.has .create || e.has .write || e.has .remove || e.has .rename

end WatchEvent

/-- A watched directory and the path it is watched by. -/
abbrev WatchedDirectory : Type := Place × String

structure Watcher where
  /-- The paths that are reported. -/
  accepts : String → Bool := fun _ => true
  watched : List WatchedDirectory := []
  pending : List String := []
  armed : Bool := false

namespace Watcher

/-! ## Watched directories -/

def watches (w : Watcher) (place : Place) : Bool := w.watched.any (·.1 == place)

def watchesPath (w : Watcher) (path : String) : Bool := w.watched.any (·.2 == path)

/-- Watch a directory.  The first path it is given counts, and a path means the last directory that
it was given for. -/
def watch (w : Watcher) (dir : WatchedDirectory) : Watcher :=
  if w.watches dir.1 then w
  else { w with watched := w.watched.filter (·.2 != dir.2) ++ [dir] }

def unwatch (w : Watcher) (place : Place) : Watcher :=
  { w with watched := w.watched.filter (·.1 != place) }

/-- Watch the directory at a path, which is cleaned first. -/
def watchPath (w : Watcher) (tree : FileTree) (path : String) : Except FileError Watcher :=
  let cleaned := Path.clean path
  match tree.look true cleaned with
  | .error reason => .error ⟨none, reason⟩
  | .ok (place, _) => .ok (w.watch (place, cleaned))

/-- The directories at and below a path, without hidden ones below it. -/
def directories (tree : FileTree) (root : String) : Except FileError (List String) := do
  let found ← tree.entries FileTree.isHidden root
  return (found.filter (·.node.isDirectory)).map (·.path)

def watchRecord (path : String) : Log.Record := ⟨.debug, "watching directory", [("path", path)]⟩

/-- A watcher that has been told of directories, what it logged, and why it stopped if it did. -/
structure Addition where
  watcher : Watcher
  log : List Log.Record := []
  error? : Option FileError := none

/-- Watch directories in order, up to the first that cannot be watched. -/
def addEach (w : Watcher) (tree : FileTree) : List String → Addition
  | [] => { watcher := w }
  | path :: rest =>
    match w.watchPath tree path with
    | .error cause => { watcher := w, log := [watchRecord path], error? := some cause }
    | .ok w =>
      let more := addEach w tree rest
      { more with log := watchRecord path :: more.log }

/-- Watch a directory and all directories below it. -/
def add (w : Watcher) (tree : FileTree) (root : String) : Addition :=
  match directories tree root with
  | .error cause => { watcher := w, error? := some cause }
  | .ok paths => w.addEach tree paths

/-! ## Events -/

/-- Let a path wait for the next batch, if it is one to report. -/
def enqueue (w : Watcher) (path : String) : Watcher × Bool :=
  if !w.accepts path then (w, false)
  else if w.pending.contains path then (w, true)
  else ({ w with pending := w.pending ++ [path] }, true)

/-- Let paths wait; `true` if there is one to report. -/
def enqueueAll : Watcher → List String → Watcher × Bool
  | w, [] => (w, false)
  | w, path :: rest =>
    let (w, first) := w.enqueue path
    let (w, more) := enqueueAll w rest
    (w, first || more)

/-- The files at and below a path. -/
def filesBelow (tree : FileTree) (root : String) : List String :=
  match tree.entries (fun _ => false) root with
  | .ok found => (found.filter (!·.node.isDirectory)).map (·.path)
  | .error _ => []

def isDirectory (tree : FileTree) (path : String) : Bool :=
  match tree.stat path with
  | .ok node => node.isDirectory
  | .error _ => false

/-- Watch a new directory, and report the files that are in it already. -/
def enter (w : Watcher) (tree : FileTree) (path : String) :
    Watcher × Bool × List Log.Record :=
  let added := w.add tree path
  match added.error? with
  | some cause =>
    (added.watcher, false, added.log ++ [⟨.warn, "failed to watch new directory",
      [("path", path), ("error", cause.message)]⟩])
  | none =>
    let (w, queued) := added.watcher.enqueueAll (filesBelow tree path)
    (w, queued, added.log)

/-- What an event makes wait, and whether there is something to report. -/
def take (w : Watcher) (tree : FileTree) (e : WatchEvent) : Watcher × Bool × List Log.Record :=
  if e.has .create && isDirectory tree e.path then w.enter tree e.path
  else if !e.isChange then (w, false, [])
  else
    let (w, queued) := w.enqueue e.path
    (w, queued, [])

/-- Handle an event: whatever makes a path wait starts the timer anew. -/
def handle (w : Watcher) (tree : FileTree) (e : WatchEvent) : Watcher × List Log.Record :=
  let (w, queued, log) := w.take tree e
  ({ w with armed := w.armed || queued }, log)

/-! ## Batches -/

/-- The paths that wait, in order. -/
def batch (w : Watcher) : List String := w.pending.mergeSort (· ≤ ·)

/-- The timer fires, if it runs: all that waits is given out. -/
def fire (w : Watcher) : Watcher × Option (List String) :=
  if !w.armed then (w, none)
  else
    ({ w with pending := [], armed := false }, if w.pending.isEmpty then none else some w.batch)

/-! ## Steps -/

/-- One turn of the watcher. -/
inductive Step where
  | event (tree : FileTree) (e : WatchEvent)
  | timer
  | error (text : String)

/-- What a step gives out. -/
structure Outcome where
  batch? : Option (List String) := none
  log : List Log.Record := []

def step (w : Watcher) : Step → Watcher × Outcome
  | .event tree e =>
    let (w, log) := w.handle tree e
    (w, { log })
  | .timer =>
    let (w, batch?) := w.fire
    (w, { batch? })
  | .error text => (w, { log := [⟨.warn, "watch error", [("error", text)]⟩] })

def run : Watcher → List Step → Watcher × List Outcome
  | w, [] => (w, [])
  | w, s :: ss =>
    let (w, first) := w.step s
    let (w, rest) := run w ss
    (w, first :: rest)

/-! ## Changes of the tree -/

/-- The event of an entry, for the directory it is in if that is watched. -/
def eventsIn (w : Watcher) (kind : WatchEventKind) (place : Place) : List WatchEvent :=
  (w.watched.filter (·.1 == place.dropLast)).map fun dir =>
    ⟨[kind], dir.2 ++ "/" ++ place.getLast?.getD ""⟩

/-- The event of a watched directory that is taken away.  If the directory around it is watched too,
that one tells. -/
def removalOf (w : Watcher) (place : Place) : List WatchEvent :=
  ((w.watched.filter (·.1 == place)).filter fun dir => !w.watchesPath (Path.dir dir.2)).map
    fun dir => ⟨[.remove], dir.2⟩

/-- The watched directories after a move.  The directory that was moved is watched no more; those
below it are, by the paths they had. -/
def follow (w : Watcher) (source target : Place) : Watcher :=
  { w with watched := ((w.watched.filter (·.1 != source)).filter (·.1 != target)).map fun dir =>
      if source.isPrefixOf dir.1 then (target ++ dir.1.drop source.length, dir.2) else dir }

/-- The events that a notice makes for a watcher, and the watcher after it. -/
def told (w : Watcher) : Notice → Watcher × List WatchEvent
  | .created place => (w, w.eventsIn .create place)
  | .written place => (w, w.eventsIn .write place)
  | .modeChanged place => (w, w.eventsIn .mode place)
  | .removed place => (w.unwatch place, w.eventsIn .remove place ++ w.removalOf place)
  | .moved source target =>
    let self := (w.watched.filter (·.1 == source)).map fun dir => ⟨[.rename], dir.2⟩
    (w.follow source target, w.eventsIn .rename source ++ self ++ w.eventsIn .create target ++
      w.removalOf target)

/-- Handle a notice. -/
def notice (w : Watcher) (tree : FileTree) (n : Notice) : Watcher × List Log.Record :=
  let (w, events) := w.told n
  events.foldl (fun (w, log) e =>
    let (w, more) := w.handle tree e
    (w, log ++ more)) (w, [])

/-- Handle all notices of a change, and wait for the timer. -/
def observe (w : Watcher) (tree : FileTree) (notices : List Notice) :
    Watcher × List String × List Log.Record :=
  let (w, log) := notices.foldl (fun (w, log) n =>
    let (w, more) := w.notice tree n
    (w, log ++ more)) (w, [])
  let (w, batch?) := w.fire
  (w, batch?.getD [], log)

end Watcher

end BitSchema
