import BitSchema.Ir.Document
import BitSchema.Ir.Listing
import BitSchema.Plugin.Response

/-!
# The text plugin

A plugin that writes every package as text, in a file named for the package.
-/

namespace BitSchema.TextFiles

/-- Why there are no files. -/
inductive Fault where
  | undecodable
  | noPackages
  | emptyPath
  deriving DecidableEq, Repr

def Fault.message : Fault → String
  | undecodable => "decoding IR"
  | noPackages => "schema contains no packages"
  | emptyPath => "package with empty path"

/-- The file of a package: the parts of its path become directories. -/
def fileName (package : String) : String :=
  String.ofList (package.toList.map fun c => if c = '.' then '/' else c) ++ ".txt"

def ofPackages (packages : List Ir.Package) : Except Fault Response :=
  packages.foldlM (fun r p =>
    if p.path = "" then .error .emptyPath
    else .ok (r.insert (fileName p.path) (Ir.Schema.listing { packages? := some [p] }))) {}

def ofSchema (schema : Ir.Schema) : Except Fault Response :=
  if schema.packages.isEmpty then .error .noPackages else ofPackages schema.packages

/-- The files for the schema in a document. -/
def ofDocument (document : Octets) : Except Fault Response :=
  match Ir.Schema.ofDocument? document with
  | none => .error .undecodable
  | some schema => ofSchema schema

/-- What the plugin writes on its output. -/
def answer (r : Response) : String := r.toJson.render ++ "\n"

/-- What the plugin writes on its error stream. -/
def complaint (fault : Fault) : String := "baproto-gen-text: " ++ fault.message ++ "\n"

end BitSchema.TextFiles
