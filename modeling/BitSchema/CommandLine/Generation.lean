import BitSchema.CommandLine.Session
import BitSchema.Plugin.Output
import BitSchema.Watch.Watcher

/-!
# Generating code

Compiles schemas and hands them to plugins, once or again whenever a schema changes.
-/

namespace BitSchema.CommandLine

/-- What is generated, and from which files. -/
structure Generation where
  session : Session
  targets : List Target
  files : List String
  /-- The directories that plugins are looked for in. -/
  searchPath : String

namespace Generation

/-- The time limit of a plugin that is named with flags: thirty seconds if it is not given. -/
def timeLimit (p : Parsed) : Int :=
  match (p.value? "timeout").map Duration.parse with
  | some (.ok limit) => limit
  | _ => 30 * 1000000000

/-- The plugin that flags name, or those of the project. -/
def targetsOf (p : Parsed) (c : Config) : Job (List Target) :=
  let plugin := p.text "plugin"
  let out := p.text "out"
  if plugin != "" then
    if out = "" then stop .usage "No output directory specified (set --out=)"
    else pure [{ plugin, out, timeout := timeLimit p }]
  else if out != "" then stop .usage "--out requires --plugin"
  else if c.targets.isEmpty then
    stop .usage <| "No plugin specified (set --plugin= or add a [[generate]] entry to " ++
      Config.fileName ++ ")"
  else pure (c.targets.map fun t => { t with out := c.path t.out })

/-- The search path that the environment gives. -/
def defaultSearchPath (w : World) : String :=
  ":".intercalate (["BAPROTO_PLUGIN_PATH", "PATH"].map w.value |>.filter (· != ""))

def start (p : Parsed) : Job Generation := do
  let session ← Session.start p
  let targets ← targetsOf p session.config
  let named := p.text "plugin-path"
  let world ← get
  let searchPath := if named != "" then named else defaultSearchPath world
  return ⟨session, targets, p.args, searchPath⟩

/-- Write the files of a response; those written before a failure stay. -/
def write (plugin : Plugin) (out : String) (response : Response) : Job (List String) := do
  let (writing, t) := (response.write OutputStore.tree out).run (← tree)
  setTree t
  match writing.error? with
  | some cause => stop .failure (s!"plugin {plugin.name}: " ++ cause.message)
  | none => return writing.written

/-- Run one plugin on a schema and write what it makes. -/
def runTarget (g : Generation) (schema : Ir.Schema) (t : Target) : Job Unit := do
  let w ← get
  let plugin ← orStop PluginError.message (Plugin.locate w.tree g.searchPath t.plugin)
  let request ← orStop Plugin.requestFaultMessage (Plugin.request schema)
  let response ← orStop PluginError.message
    (plugin.generate w.runtime w.tree (w.value "PATH") t.timeout request)
  let written ← write plugin t.out response
  g.session.log [⟨.info, "generated",
    [("plugin", plugin.name), ("out", t.out), ("files", toString written.length)]⟩]

/-- Compile the schemas and run all plugins. -/
def run (g : Generation) : Job Unit := do
  let (_, schema) ← g.session.compile g.files
  g.targets.forM (g.runTarget schema)

end Generation

/-! ## Watching -/

/-- A generation that runs again whenever a schema changes. -/
structure Watching where
  generation : Generation
  watcher : Watcher

namespace Watching

def isSchema (path : String) : Bool := Path.ext path == schemaExtension

/-- Watch directories one after the other. -/
def addAll (s : Session) : Watcher → List String → Job Watcher
  | w, [] => pure w
  | w, dir :: dirs => do
    let added := w.add (← tree) dir
    s.log added.log
    match added.error? with
    | some cause => stop .failure cause.message
    | none => addAll s added.watcher dirs

/-- Watch the import roots. -/
def start (g : Generation) : Job Watching := do
  let s := g.session
  let watcher ← addAll s { accepts := isSchema } s.dirs
  s.log [⟨.info, "watching for changes", [("dirs", listText s.dirs)]⟩]
  return ⟨g, watcher⟩

/-- The tree has changed: if schemas have, all is generated again. -/
def observe (w : Watching) (notices : List Notice) : StateM World Watching := do
  let (watcher, paths, records) := w.watcher.observe (← get).tree notices
  let s := w.generation.session
  s.log records
  if !paths.isEmpty then
    s.log [⟨.info, "schemas changed", [("files", listText paths)]⟩]
    attempt w.generation.run
  return { w with watcher }

/-- Make a change to the tree, and see it. -/
def change (w : Watching) (c : FileChange) : StateM World Watching := do
  let (t, notices) := c.apply (← get).tree
  setTree t
  w.observe notices

end Watching

end BitSchema.CommandLine
