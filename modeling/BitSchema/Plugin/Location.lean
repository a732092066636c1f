import BitSchema.File.Tree
import BitSchema.Plugin.Error

/-!
# Where plugins are

A plugin is an executable file or a WebAssembly module.  It is named by a path, or by a short name
that is looked up in a list of directories.
-/

namespace BitSchema

/-- How a plugin runs. -/
inductive PluginKind where
  | process
  | wasm
  deriving DecidableEq, Repr

structure Plugin where
  kind : PluginKind
  path : String
  deriving DecidableEq, Repr

namespace Plugin

/-- What the file name of a plugin starts with, before its short name. -/
def fileStem : String := "baproto-gen-"

def wasmExtension : String := ".wasm"

/-- A text without an ending, if it has it. -/
def dropEnding (ending s : String) : String :=
  if ending.toList.isSuffixOf s.toList then String.ofList (s.toList.take (s.length - ending.length))
  else s

/-- A text without a beginning, if it has it. -/
def dropBeginning (beginning s : String) : String :=
  if beginning.toList.isPrefixOf s.toList then String.ofList (s.toList.drop beginning.length) else s

/-- The short name of the plugin in a file. -/
def nameOf (path : String) : String :=
  dropBeginning fileStem (dropEnding ".exe" (dropEnding wasmExtension (Path.base path)))

def name (p : Plugin) : String := nameOf p.path

/-- The directories of a search path. -/
def searchDirs (searchPath : String) : List String :=
  (searchPath.splitOn ":").filter (· != "")

/-- The plugin in a file that is named by its path. -/
def ofPath (tree : FileTree) (path : String) : Except PluginError Plugin :=
  if wasmExtension.toList.isSuffixOf path.toList && tree.isRegular path then .ok ⟨.wasm, path⟩
  else if tree.isExecutable path then .ok ⟨.process, path⟩
  else .error (.notRunnable path)

/-- The plugin with a file name in one directory; an executable comes first. -/
def inDirectory? (tree : FileTree) (file dir : String) : Option Plugin :=
  let path := Path.join [dir, file]
  let module := Path.join [dir, file ++ wasmExtension]
  if tree.isExecutable path then some ⟨.process, path⟩
  else if tree.isRegular module then some ⟨.wasm, module⟩
  else none

/-- The plugin that a name means. -/
def locate (tree : FileTree) (searchPath name : String) : Except PluginError Plugin :=
  if name = "" then .error .noName
  else if name.toList.contains '/' then ofPath tree name
  else
    let file := fileStem ++ name
    match (searchDirs searchPath).findSome? (inDirectory? tree file) with
    | some plugin => .ok plugin
    | none => .error (.notOnSearchPath file)

end Plugin

end BitSchema
