import BitSchema.CommandLine.Reach

/-!
# The command line

Reads the files that a run asks for by name, runs the program on them, and writes out what it has
printed and written.  Directories are not listed, so schemas are given by name.
-/

namespace BitSchema.Main

open CommandLine

/-- What stands at a path: a file, a directory, or nothing that can be read. -/
def probe (path : String) : IO (Option FileNode) := do
  try
    let content ← IO.FS.readBinFile path
    return some (.file content (isProgram content))
  catch
    | .inappropriateType none .. => return some .directory
    | _ => return none

/-- Read the files at paths into the tree. -/
def readInto (w : World) (paths : List String) : IO World :=
  paths.foldlM (fun w path => do
    match ← probe path with
    | none => return w
    | some node =>
      let place := Path.cleanElements (w.tree.absolute path)
      return { w with tree := w.tree.plant place node }) w

/-- Read all that a run may look at. -/
partial def readAll (args seen : List String) (w : World) : IO World := do
  match (reach args w).filter (!seen.contains ·) with
  | [] => return w
  | new => readAll args (seen ++ new) (← readInto w new)

/-- Write out what a run has printed and written, and forget it. -/
def flush (before : FileTree) (w : World) : IO World := do
  for (path, content) in writtenSince before w.tree do
    IO.FS.createDirAll (Path.dir path)
    IO.FS.writeBinFile path content
  let out ← IO.getStdout
  out.write ⟨w.stdout.toArray⟩
  out.flush
  let err ← IO.getStderr
  err.write ⟨w.stderr.toArray⟩
  err.flush
  return { w with stdout := [], stderr := [] }

/-- What is different in a tree. -/
def notices (before after : FileTree) : List Notice :=
  let gone := before.nodes.filterMap fun (place, _) =>
    if (after.node? place).isNone then some (.removed place) else none
  let new := (writtenSince before after).map fun (path, _) =>
    .written (Path.cleanElements path)
  gone ++ new

/-- The world of a run: the working directory, and the variables it looks at. -/
def start : IO World := do
  let here := Path.cleanElements ((← IO.getEnv "PWD").getD "/")
  let names := ["BAPROTO_PLUGIN_PATH", "PATH", descriptionsVariable]
  let environment ← names.mapM fun name => return (name, (← IO.getEnv name).getD "")
  let tree := ({} : FileTree).plant here .directory
  return { tree := { tree with here }, environment }

/-- Look at the files again and again, and generate when schemas have changed. -/
partial def watch (args : List String) (w : Watching) (world : World) : IO Unit := do
  IO.sleep (UInt32.ofNat (max 1 (w.generation.session.config.debounce / 1000000).toNat))
  let fresh ← start
  let now ← readAll args [] { fresh with environment := world.environment }
  let (next, after) := (w.observe (notices world.tree now.tree)).run now
  watch args next (← flush now.tree after)

end BitSchema.Main

open BitSchema BitSchema.CommandLine BitSchema.Main in
def main (args : List String) : IO UInt32 := do
  let before ← readAll args [] (← start)
  let (status, after) := (run args).run before
  let world ← flush before.tree after
  match status with
  | .exited exit => return UInt32.ofNat exit.code
  | .watching w =>
    watch args w world
    return 0
