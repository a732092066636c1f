import BitSchema.CommandLine.Flag
import BitSchema.CommandLine.World
import BitSchema.Compilation.Basic
import BitSchema.Config.Basic
import BitSchema.Import.Roots
import BitSchema.Report

/-!
# Sessions

What the flags that all commands share and the project file come to: the configuration, the least
level that is logged, and the import roots.
-/

namespace BitSchema.CommandLine

structure Session where
  config : Config
  level : Log.Level
  /-- The canonical paths of the import roots. -/
  dirs : List String

def writeLog (least : Log.Level) (records : List Log.Record) : StateM World Unit :=
  printError (Octets.ofString (Log.text least records))

namespace Session

/-- The configuration: of the project file that is named, of the one that belongs to the working
directory, or that of a project without one. -/
def loadConfig (named : String) : Job Config := do
  let t ← tree
  let load := fun path => orStop (ConfigError.message path) (Config.load t.view path)
  if named != "" then load named
  else
    let here := FileTree.pathOf t.here
    match ← orStop FileError.message (Config.find t.view here) with
    | some path => load path
    | none => orStop (ConfigError.message here) (Config.default here)

/-- The session that flags ask for. -/
def start (p : Parsed) : Job Session := do
  let config ← loadConfig (p.text "config")
  let level := if p.isOn "verbose" then .debug else config.level
  let named := p.values "import-root"
  let dirs := if named.isEmpty then config.importRootPaths else named
  let roots ← orStop RootError.message (ImportRoots.ofDirectories (← tree) dirs)
  writeLog level [⟨.debug, "import roots", [("dirs", listText roots.dirs)]⟩]
  return ⟨config, level, roots.dirs⟩

def log (s : Session) (records : List Log.Record) : StateM World Unit := writeLog s.level records

/-- The import roots in the tree as it is now. -/
def roots (s : Session) : Job ImportRoots := do return ⟨← tree, s.dirs⟩

/-- The schemas to compile: those that are named, or else those of the project. -/
def schemaFiles (s : Session) (named : List String) : Job (List String) := do
  if !named.isEmpty then return named
  let files ← orStop Config.SourceFault.message (s.config.sourceFiles (← tree).view)
  if files.isEmpty then
    stop .failure s!"no schema files given and none matched in {s.config.dir}"
  else return files

/-- Where an include statement finds a file. -/
def entryOf (roots : ImportRoots) (file : String) : Job String :=
  if Path.ext file != schemaExtension then
    stop .failure s!"{file}: not a {schemaExtension} file"
  else orStop ImportError.message (roots.rel file)

def entries (s : Session) (named : List String) : Job (List String) := do
  let files ← s.schemaFiles named
  let roots ← s.roots
  files.mapM (entryOf roots)

/-- Compile schemas, log it and report what was found.  Errors end the program. -/
def compile (s : Session) (named : List String) : Job (Compilation × Ir.Schema) := do
  let entries ← s.entries named
  let c := BitSchema.compile (← s.roots).importer .refuse entries
  s.log c.log
  printError (Report.report false c.source? c.errors c.warnings)
  match c.schema with
  | some schema => if c.failed then throw .failure else return (c, schema)
  | none => throw .failure

end Session

end BitSchema.CommandLine
