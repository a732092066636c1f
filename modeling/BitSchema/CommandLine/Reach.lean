import BitSchema.CommandLine.Program

/-!
# The files that a run may look at

Which paths matter to a command, as far as the files that are known tell: project files, named
schemas, import roots, included schemas and plugins.  A file that becomes known can make more paths
matter, so they are asked for again until there is no new one.
-/

namespace BitSchema.CommandLine

namespace Reach

/-- The directories from a place up to the root. -/
def upward (place : Place) : List String :=
  (List.range (place.length + 1)).map fun n => FileTree.pathOf (place.take n)

/-- Where a project file may be. -/
def projectFiles (here : Place) (p : Parsed) : List String :=
  let named := p.text "config"
  if named != "" then [named] else (upward here).map fun dir => Path.join [dir, Config.fileName]

/-- The include paths in a source. -/
def includesIn (content : ByteArray) : List String :=
  match Source.Schema.parse "" content with
  | .ok schema => schema.inclusions.map fun i => Octets.toString i.path.value
  | .error _ => []

/-- The include paths in all sources that are known. -/
def includes (t : FileTree) : List String :=
  t.nodes.flatMap fun (place, node) =>
    match node with
    | .file content _ =>
      if Path.ext (FileTree.pathOf place) == schemaExtension then includesIn content else []
    | _ => []

/-- Where a plugin may be. -/
def pluginFiles (searchPath name : String) : List String :=
  if name.toList.contains '/' then [name]
  else (Plugin.searchDirs searchPath).flatMap fun dir =>
    let path := Path.join [dir, Plugin.fileStem ++ name]
    [path, path ++ Plugin.wasmExtension]

/-- Where the plugins of a command may be. -/
def plugins (c : Command) (p : Parsed) (config : Config) (w : World) : List String :=
  let named := p.text "plugin-path"
  let searchPath := if named != "" then named else Generation.defaultSearchPath w
  let names := if p.text "plugin" != "" then [p.text "plugin"] else config.targets.map (·.plugin)
  if c = .generate then names.flatMap (pluginFiles searchPath) else []

/-- The paths that matter to a command. -/
def ofCommand (c : Command) (p : Parsed) (w : World) : List String :=
  let found := projectFiles w.tree.here p
  match ((Session.loadConfig (p.text "config")).run.run w).1 with
  | .error _ => found
  | .ok config =>
    let named := p.values "import-root"
    let roots := if named.isEmpty then config.importRootPaths else named
    let included := roots.flatMap fun root =>
      (includes w.tree).map fun path => Path.join [root, path]
    found ++ roots ++ p.args ++ included ++ plugins c p config w

end Reach

/-- The paths that matter to a run of the program. -/
def reach (args : List String) (w : World) : List String :=
  match select args with
  | .command c args =>
    match parseFlags c.flags args with
    | .ok p => Reach.ofCommand c p w
    | .error _ => []
  | _ => []

/-- A file that says how it is run. -/
def isProgram (content : ByteArray) : Bool := content.toList.take 2 == Octets.ofString "#!"

/-- The files that a run has written: those of a tree that another does not hold alike. -/
def writtenSince (before after : FileTree) : List (String × ByteArray) :=
  after.nodes.filterMap fun (place, node) =>
    match node, before.node? place with
    | .file content _, some (.file old _) =>
      if content.data == old.data then none else some (FileTree.pathOf place, content)
    | .file content _, _ => some (FileTree.pathOf place, content)
    | _, _ => none

end BitSchema.CommandLine
