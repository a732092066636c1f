import BitSchema.Diagnostic
import BitSchema.Log.Record

/-!
# Loading

Reads the schema files that a compilation starts from, and all they include, each file once.  Files
are read breadth first: all entries, then what they include, and so on.
-/

namespace BitSchema

open Source (Schema)

/-- An include statement and the file it leads to. -/
structure ResolvedInclude where
  node : Source.Inclusion
  target : String

/-- A loaded file.  It has no schema if it could not be read or parsed. -/
structure LoadedFile where
  path : String
  source : Option ByteArray := none
  schema : Option Schema := none
  includes : List ResolvedInclude := []

/-- What loading has come to. -/
structure Loading where
  files : List LoadedFile := []
  diagnostics : List Diagnostic := []
  log : List Log.Record := []

/-- The place of a whole file. -/
def fileSpan (path : String) : Span := { file := path }

namespace Loading

/-- The files that includes lead to, each once.  A second include of one file is questionable. -/
def resolveIncludes (importer : Importer) :
    List ResolvedInclude → List Source.Inclusion → List ResolvedInclude × List Diagnostic
  | done, [] => (done, [])
  | done, node :: rest =>
    match importer.resolve node.path.value with
    | .error cause =>
      let (includes, problems) := resolveIncludes importer done rest
      (includes, ⟨node.path.span, .includeNotFound node.path.value cause⟩ :: problems)
    | .ok target =>
      match done.find? (·.target == target) with
      | some first =>
        let (includes, problems) := resolveIncludes importer done rest
        (includes, ⟨node.span, .duplicateInclude node.path.value first.node.span⟩ :: problems)
      | none => resolveIncludes importer (done ++ [⟨node, target⟩]) rest

/-- Read and parse a file, and resolve its includes. -/
def loadFile (importer : Importer) (path : String) :
    LoadedFile × List Diagnostic × List Log.Record :=
  match importer.read path with
  | .error cause => ({ path }, [⟨fileSpan path, .unreadable path cause⟩], [])
  | .ok source =>
    let log : List Log.Record :=
      [⟨.debug, "loaded schema", [("path", path), ("bytes", toString source.size)]⟩]
    match Schema.parse path source with
    | .error e => ({ path, source := some source }, [⟨e.span, .badSource e⟩], log)
    | .ok schema =>
      let (includes, problems) := resolveIncludes importer [] schema.inclusions
      ({ path, source := some source, schema := some schema, includes }, problems, log)

def isLoaded (l : Loading) (path : String) : Bool := l.files.any (·.path == path)

/-- The files that entries mean, and the problems of those that mean none. -/
def resolveEntries (importer : Importer) : List String → List String × List Diagnostic
  | [] => ([], [])
  | entry :: rest =>
    let (paths, problems) := resolveEntries importer rest
    match importer.resolve (Octets.ofString entry) with
    | .ok path => (path :: paths, problems)
    | .error cause =>
      (paths, ⟨fileSpan entry, .includeNotFound (Octets.ofString entry) cause⟩ :: problems)

/-- Load what waits in the queue and what it includes.  Every step loads one new file, so the number
of files is enough fuel. -/
def drain (importer : Importer) : Nat → List String → Loading → Loading
  | 0, _, l => l
  | fuel + 1, queue, l =>
    match queue.dropWhile l.isLoaded with
    | [] => l
    | path :: rest =>
      let (file, problems, log) := loadFile importer path
      let l : Loading :=
        ⟨l.files ++ [file], l.diagnostics ++ problems, l.log ++ log⟩
      let next := (file.includes.map (·.target)).filter (!l.isLoaded ·)
      drain importer fuel (rest ++ next) l

end Loading

/-- Load entries and all they include. -/
def load (importer : Importer) (entries : List String) : Loading :=
  let (paths, problems) := Loading.resolveEntries importer entries
  Loading.drain importer (importer.fileCount + 1) paths { diagnostics := problems }

end BitSchema
