import BitSchema.Compilation.Loading
import BitSchema.Encoding.Check
import BitSchema.Index.Check
import BitSchema.Symbol.References

/-!
# Compilation

From entries to a resolved schema: load, register, check, link, lower.  Linking and lowering run
only if nothing before them found an error.
-/

namespace BitSchema

open Source (Schema)

/-- The outcome of a compilation.  There is a schema exactly if there are no errors. -/
structure Compilation where
  schema : Option Ir.Schema := none
  sources : List (String × ByteArray) := []
  modules : List Module := []
  diagnostics : List Diagnostic := []
  log : List Log.Record := []

namespace Compilation

def errors (c : Compilation) : List Diagnostic := Diagnostic.errors c.diagnostics

def warnings (c : Compilation) : List Diagnostic := Diagnostic.warnings c.diagnostics

def failed (c : Compilation) : Bool := !c.errors.isEmpty

/-- The contents of a loaded file. -/
def source? (c : Compilation) (file : String) : Option ByteArray :=
  (c.sources.find? (·.1 == file)).map Prod.snd

/-- The paths of the modules in the order they were loaded. -/
def files (c : Compilation) : List String := c.modules.map Module.path

/-- A file with the module that its registration gave. -/
structure Registered where
  file : LoadedFile
  schema : Schema
  module : Module

/-- Register files in order. -/
def registerAll (policy : RedefinitionPolicy) (symbols : SymbolTable) :
    List LoadedFile → List Registered × SymbolTable × List Diagnostic
  | [] => ([], symbols, [])
  | file :: files =>
    match file.schema with
    | none => registerAll policy symbols files
    | some schema =>
      let (module?, symbols, problems) := register policy symbols schema
      let (rest, symbols, more) := registerAll policy symbols files
      match module? with
      | none => (rest, symbols, problems ++ more)
      | some m =>
        let m := { m with deps := file.includes.map (·.target) }
        (⟨file, schema, m⟩ :: rest, symbols, problems ++ more)

/-- The includes of a file that none of its references needs. -/
def unusedIncludes (file : LoadedFile) (resolved : List Symbol) : List Diagnostic :=
  (file.includes.filter fun i =>
    !(resolved.any (·.file == i.target)) && i.target != file.path).map fun i =>
      ⟨i.node.span, .unusedInclude i.node.path.value⟩

/-- Everything that is checked in one file. -/
def analyze (symbols : SymbolTable) (r : Registered) : List Diagnostic :=
  let resolution := resolveReferences symbols r.schema
  resolution.diagnostics ++ checkIndices r.schema ++ checkEncodings symbols r.schema ++
    unusedIncludes r.file resolution.symbols

/-- The include that makes an edge of the graph. -/
def edgeSpan (files : List Registered) (source target : String) : Span :=
  let edge? : Option ResolvedInclude := do
    let r ← files.find? (·.file.path == source)
    r.file.includes.find? (·.target == target)
  match edge? with
  | some i => i.node.span
  | none => fileSpan source

/-- Where a link error belongs: the include that makes the first edge of it. -/
def linkSpan (files : List Registered) : LinkError → Span
  | .missing source target => edgeSpan files source target
  | .cycle (source :: target :: _) => edgeSpan files source target
  | .cycle _ => .none

def graphOf (files : List Registered) : ModuleGraph :=
  files.foldl (fun g r => g.add r.module) {}

/-- Link modules and lower them in dependency order. -/
def linkAndLower (symbols : SymbolTable) (files : List Registered) (c : Compilation) :
    Compilation :=
  let graph := graphOf files
  match graph.link with
  | .error cause =>
    { c with diagnostics := c.diagnostics ++ [⟨linkSpan files cause, .unlinked cause⟩] }
  | .ok () =>
    let log := c.log ++ [⟨.debug, "linked modules", [("modules", toString graph.size)]⟩]
    let ordered := graph.order.filterMap fun path =>
      (files.find? (·.file.path == path)).map (·.schema)
    match lower symbols ordered with
    | .error cause =>
      { c with diagnostics := c.diagnostics ++ [⟨.none, .notLowered cause⟩], log }
    | .ok schema =>
      let lowered : Log.Record :=
        ⟨.debug, "lowered schema", [("packages", toString schema.packages.length)]⟩
      { c with schema := some schema, log := log ++ [lowered] }

/-- A compilation that has nowhere to read from. -/
def withoutImporter : Compilation :=
  { diagnostics := [⟨.none, .unreadable "" .noImporter⟩] }

end Compilation

open Compilation in
/-- Compile entries and all they include. -/
def compile (importer : Importer) (policy : RedefinitionPolicy) (entries : List String) :
    Compilation :=
  let loading := load importer entries
  let (files, symbols, problems) := registerAll policy {} loading.files
  let diagnostics := loading.diagnostics ++ problems ++ files.flatMap (analyze symbols)
  let registered : Log.Record := ⟨.debug, "registered symbols",
    [("files", toString loading.files.length), ("symbols", toString symbols.size)]⟩
  let c : Compilation :=
    { sources := loading.files.filterMap fun f => f.source.map (f.path, ·)
      modules := files.map (·.module)
      diagnostics
      log := loading.log ++ [registered] }
  if c.failed then
    let record : Log.Record :=
      ⟨.debug, "analysis failed", [("errors", toString c.errors.length)]⟩
    { c with log := c.log ++ [record] }
  else linkAndLower symbols files c

end BitSchema
