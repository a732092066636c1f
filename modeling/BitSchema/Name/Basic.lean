import BitSchema.Ir.Schema
import BitSchema.Text.Quoted

/-!
# Names

Package names, the full names of declared types, and references to them as they stand in a schema.

Full names are compared as text: `joinName` puts dots between the parts that are not empty.  Package
segments start with a small letter and hold small letters, digits and underscores, so a dot in a
full name always separates two parts.
-/

namespace BitSchema

/-- Why a text is not a name. -/
inductive NameError where
  | emptyPackage
  | packageSegment (segment : String)
  | typeName (name : String)
  | pathSegment (segment : String)
  deriving DecidableEq, Repr

def NameError.message : NameError → String
  | emptyPackage => "invalid package name: empty package name"
  | packageSegment segment =>
    "invalid package name: segment " ++ Quoted.quoteString segment ++
      " must start with a lowercase letter and contain only [a-z0-9_]"
  | typeName name => "invalid reference: type name " ++ Quoted.quoteString name
  | pathSegment segment => "invalid reference: path segment " ++ Quoted.quoteString segment

/-- The parts that are not empty, with dots between them. -/
def joinName (parts : List String) : String := ".".intercalate (parts.filter (· != ""))

/-! ## Packages -/

/-- The name of a package, or of no package if there are no segments. -/
structure PackageName where
  segments : List String := []
  deriving DecidableEq, Repr, Inhabited

namespace PackageName

def isSmall (c : Char) : Bool := 'a' ≤ c && c ≤ 'z'

def isDigit (c : Char) : Bool := '0' ≤ c && c ≤ '9'

def isSegment (segment : String) : Bool :=
  match segment.toList with
  | [] => false
  | c :: cs => isSmall c && cs.all fun c => isSmall c || isDigit c || c == '_'

/-- The package with these segments. -/
def ofSegments (segments : List String) : Except NameError PackageName :=
  if segments.isEmpty then .error .emptyPackage
  else match segments.find? (!isSegment ·) with
    | some segment => .error (.packageSegment segment)
    | none => .ok ⟨segments⟩

/-- The package with this dotted name. -/
def parse (text : String) : Except NameError PackageName :=
  ofSegments ((text.toList.splitOn '.').map String.ofList)

def text (p : PackageName) : String := ".".intercalate p.segments

def isZero (p : PackageName) : Bool := p.segments.isEmpty

/-- The package and those around it, outermost first. -/
def ancestry (p : PackageName) : List PackageName :=
  (List.range p.segments.length).map fun i => ⟨p.segments.take (i + 1)⟩

end PackageName

/-! ## Types and scopes -/

/-- A declared type by its package, the types around it and its name; without a name, the scope
inside them. -/
structure Descriptor where
  package : PackageName := {}
  path : List String := []
  name : String := ""
  deriving DecidableEq, Repr, Inhabited

namespace Descriptor

def ofPackage (p : PackageName) : Descriptor := { package := p }

def isScope (d : Descriptor) : Bool := d.name == ""

/-- The type of a name that is declared in a scope. -/
def child (d : Descriptor) (name : String) : Descriptor := { d with name }

/-- The scope that the members of a type are declared in. -/
def scope (d : Descriptor) : Descriptor :=
  if d.isScope then d else { d with path := d.path ++ [d.name], name := "" }

/-- A name that is not empty makes a scope of its own. -/
theorem scope_child (d : Descriptor) {name : String} (named : name ≠ "") :
    (d.child name).scope = ⟨d.package, d.path ++ [name], ""⟩ := by
  simp [scope, isScope, child, named]

/-- The full name. -/
def text (d : Descriptor) : String := joinName (d.package.segments ++ d.path ++ [d.name])

def toIr (d : Descriptor) : Ir.Descriptor := ⟨d.package.text, d.path, d.name⟩

end Descriptor

/-! ## References -/

/-- A reference to a type: from the root (`.a.B`), or from where it stands (`a.B`). -/
structure Reference where
  absolute : Bool
  path : List String
  name : String
  deriving DecidableEq, Repr, Inhabited

namespace Reference

def isSegment (segment : String) : Bool :=
  segment != "" && segment.toList.all fun c =>
    PackageName.isSmall c || ('A' ≤ c && c ≤ 'Z') || PackageName.isDigit c || c == '_'

def ofParts (absolute : Bool) (path : List String) (name : String) :
    Except NameError Reference :=
  if !isSegment name then .error (.typeName name)
  else match path.find? (!isSegment ·) with
    | some segment => .error (.pathSegment segment)
    | none => .ok ⟨absolute, path, name⟩

def parse (text : String) : Except NameError Reference :=
  let chars := text.toList
  let absolute := chars.head? == some '.'
  let parts := ((if absolute then chars.drop 1 else chars).splitOn '.').map String.ofList
  ofParts absolute parts.dropLast (parts.getLast?.getD "")

/-- The parts of a reference in order. -/
def parts (r : Reference) : List String := r.path ++ [r.name]

def text (r : Reference) : String := (if r.absolute then "." else "") ++ joinName r.parts

end Reference

end BitSchema
