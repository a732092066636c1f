import BitSchema.Config.Error
import BitSchema.Text.Fold
import BitSchema.Time.Duration
import BitSchema.Toml.Document

/-!
# Settings

What stands in a project file: where includes are looked up, which files are schemas, how much is
logged, how long a watcher waits, and which plugins generate code.  Keys are told apart without
regard to case.
-/

namespace BitSchema

/-- A plugin to run, where its output goes, and how many nanoseconds it may take. -/
structure Target where
  plugin : String := ""
  out : String := ""
  timeout : Int := 0
  deriving DecidableEq, Repr, Inhabited

/-- What stands in a project file. -/
structure Settings where
  importRoots : List String := []
  sources : List String := []
  exclude : List String := []
  level : String := ""
  debounce : Int := 0
  targets : List Target := []
  deriving DecidableEq, Repr, Inhabited

namespace Settings

/-- A reading of a document that notes the keys it has used. -/
abbrev Reading (α : Type) : Type :=
  ReaderT Toml.Document (StateT (List Toml.Key) (Except Toml.Fault)) α

/-- How a part of the settings is read from the value at a key. -/
abbrev Reader (α : Type) : Type := Toml.Key → Toml.Value → Reading α

/-- Fail because of the value at a key. -/
def fail {α : Type} (key : Toml.Key) (cause : Toml.Cause) : Reading α := do
  throw ⟨(← read).line? key, Toml.keyText key, cause⟩

/-- Fail because the value at a key has another type. -/
def mistyped {α : Type} (key : Toml.Key) (value : Toml.Value) (expected : String) : Reading α :=
  fail key (.wrongType value.typeText expected)

def string : Reader String
  | _, .string s => pure s
  | key, v => mistyped key v "string"

/-- A string with a unit, or a number of nanoseconds. -/
def duration : Reader Int
  | key, .string s =>
    match Duration.parse s with
    | .ok n => pure n
    | .error _ => do
      throw ⟨some (((← read).line? key).getD 0), Toml.keyText key, .badDuration s⟩
  | _, .integer n => pure n
  | key, v => mistyped key v "integer"

/-- The elements of an array of either kind. -/
def elements : Reader (List Toml.Value)
  | _, .array values => pure values
  | _, .tables tables => pure (tables.map .table)
  | key, v => mistyped key v "slice"

def strings : Reader (List String) := fun key v => do (← elements key v).mapM (string key)

/-- How a record changes with the value of one of its fields. -/
abbrev FieldReader (α : Type) : Type := Toml.Key → Toml.Value → α → Reading α

/-- Read the fields of a record; keys that name none are left. -/
def members {α : Type} (fields : List (String × FieldReader α)) (context : Toml.Key) (a : α)
    (ms : Toml.Members) : Reading α :=
  ms.foldlM (fun a (name, value) =>
    match (fieldMeant? (fields.map Prod.fst) name).bind (List.lookup · fields) with
    | none => pure a
    | some read => do
      let key := context ++ [name]
      modify (key :: ·)
      read key value a) a

/-- A record of some kind from a table. -/
def record {α : Type} (kind : String) (fields : List (String × FieldReader α)) (old : α) : Reader α
  | key, .table ms => members fields key old ms
  | key, v => fail key (.expectedTable kind v.typeText)

def targetFields : List (String × FieldReader Target) := [
  ("plugin", fun key v t => do return { t with plugin := ← string key v }),
  ("out", fun key v t => do return { t with out := ← string key v }),
  ("timeout", fun key v t => do return { t with timeout := ← duration key v })]

def target : Reader Target := record "config.Generate" targetFields {}

def logFields : List (String × FieldReader Settings) := [
  ("level", fun key v s => do return { s with level := ← string key v })]

def watchFields : List (String × FieldReader Settings) := [
  ("debounce", fun key v s => do return { s with debounce := ← duration key v })]

def fields : List (String × FieldReader Settings) := [
  ("import_roots", fun key v s => do return { s with importRoots := ← strings key v }),
  ("sources", fun key v s => do return { s with sources := ← strings key v }),
  ("exclude", fun key v s => do return { s with exclude := ← strings key v }),
  ("log", fun key v s => record "config.Log" logFields s key v),
  ("watch", fun key v s => record "config.Watch" watchFields s key v),
  ("generate", fun key v s => do
    return { s with targets := ← (← elements key v).mapM (target key) })]

/-- The settings in a document.  The first key that means nothing is an error. -/
def ofDocument (document : Toml.Document) : Except ConfigError Settings :=
  match ((members fields [] {} document.members).run document).run [] with
  | .error fault => .error (.toml fault)
  | .ok (settings, used) =>
    match document.keys.find? (!used.contains ·) with
    | some key => .error (.unknownKey key)
    | none => .ok settings

def parse (text : Octets) : Except ConfigError Settings :=
  match Toml.Document.parse text with
  | .error fault => .error (.toml fault)
  | .ok document => ofDocument document

/-- Settings with the defaults for all that is missing. -/
def withDefaults (s : Settings) : Settings where
  importRoots := if s.importRoots.isEmpty then ["."] else s.importRoots
  sources := if s.sources.isEmpty then ["**.baproto"] else s.sources
  exclude := s.exclude
  level := if isAllBlank s.level then "warn" else s.level
  debounce := if s.debounce ≤ 0 then 200000000 else s.debounce
  targets := s.targets.map fun t => if t.timeout ≤ 0 then { t with timeout := 30000000000 } else t

end Settings

end BitSchema
