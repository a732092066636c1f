import BitSchema.Config.Settings
import BitSchema.File.View

/-!
# Project configuration

What the settings of a project come to once defaults are filled in and everything is checked, and
how a project file is found.
-/

namespace BitSchema

/-- A checked configuration.  Paths in it are relative to `dir`. -/
structure Config where
  dir : String
  importRoots : List String
  sources : List Glob
  exclude : List Glob
  level : Log.Level
  debounce : Int
  targets : List Target

namespace Config

/-! ## Checking -/

/-- Patterns from their texts. -/
def globs (list : String) (patterns : List String) : Except ConfigError (List Glob) :=
  patterns.zipIdx.mapM fun (pattern, i) =>
    match Glob.ofString pattern with
    | .ok g => .ok g
    | .error fault => .error (.badPattern list i pattern fault)

def checkRoots (roots : List String) : Except ConfigError Unit :=
  roots.zipIdx.forM fun (root, i) => if isAllBlank root then throw (.emptyRoot i) else pure ()

def checkTargets (targets : List Target) : Except ConfigError Unit :=
  targets.zipIdx.forM fun (t, i) => do
    if isAllBlank t.plugin then throw (.emptyPlugin i)
    if isAllBlank t.out then throw (.emptyOut i)

/-- A configuration from settings, if they are all right. -/
def ofSettings (dir : String) (settings : Settings) : Except ConfigError Config := do
  let s := settings.withDefaults
  let level ← match Log.Level.parse s.level with
    | .ok level => .ok level
    | .error cause => .error (.level cause)
  checkRoots s.importRoots
  let sources ← globs "sources" s.sources
  let exclude ← globs "exclude" s.exclude
  checkTargets s.targets
  return ⟨dir, s.importRoots, sources, exclude, level, s.debounce, s.targets⟩

/-- The configuration of a project without a project file. -/
def default (dir : String) : Except ConfigError Config := ofSettings dir {}

/-! ## Finding and loading -/

def fileName : String := "baproto.toml"

/-- Load the project file at a path. -/
def load (files : FileView) (path : String) : Except ConfigError Config :=
  match files.readFile path with
  | .error cause => .error (.file cause)
  | .ok content => do ofSettings (Path.dir path) (← Settings.parse content.toList)

/-- Look for a project file in a directory and those above it.  There are no more of these than the
path has elements. -/
def findFrom (files : FileView) : Nat → String → Except FileError (Option String)
  | 0, _ => .ok none
  | fuel + 1, dir => do
    let path := Path.join [dir, fileName]
    if ← files.holds path then return some path
    if Path.dir dir = dir then return none
    findFrom files fuel (Path.dir dir)

/-- The project file that belongs to a directory. -/
def find (files : FileView) (dir : String) : Except FileError (Option String) :=
  let dir := Path.clean dir
  findFrom files ((Path.elements dir).length + 1) dir

/-- What is said when there is no project file. -/
def notFoundMessage : String := fileName ++ ": file does not exist"

/-! ## Paths and sources -/

/-- A path of the configuration, from where the project is. -/
def path (c : Config) (p : String) : String :=
  if Path.isAbsolute p ∨ c.dir = "" then p else Path.join [c.dir, p]

def importRootPaths (c : Config) : List String := c.importRoots.map c.path

/-- A path below the project is a schema: some pattern selects it, and none excludes it. -/
def isSource (c : Config) (rel : String) : Except Glob.Overrun Bool := do
  if ← c.exclude.anyM (·.selects rel) then return false
  c.sources.anyM (·.selects rel)

/-- Why the schemas of a project cannot be told. -/
inductive SourceFault where
  | file (cause : FileError)
  | pattern (cause : Glob.Overrun)
  deriving DecidableEq, Repr

def SourceFault.message : SourceFault → String
  | file cause => cause.message
  | pattern .pastEnd => "a pattern looks past the end of a path"

/-- The schemas of the project, in order. -/
def sourceFiles (c : Config) (files : FileView) : Except SourceFault (List String) := do
  let root := if c.dir = "" then "." else c.dir
  let found ← (files.filesBelow root).mapError .file
  found.filterM fun path =>
    (c.isSource ((Path.rel? root path).getD "")).mapError SourceFault.pattern

end Config

end BitSchema
