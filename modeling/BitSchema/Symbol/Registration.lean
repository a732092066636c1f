import BitSchema.Diagnostic

/-!
# Registration

Enters the package of a file, and every message and enum it declares at any depth, into the symbol
table.  A package is entered with all packages around it.  No name can be both a package and a type,
and a second type of one name is refused, or, if the policy says so, takes the place of the first.
-/

namespace BitSchema

open Source (Schema Item Member)

/-- What a second declaration of a type does. -/
inductive RedefinitionPolicy where
  /-- It is an error, and the first one stays. -/
  | refuse
  /-- It replaces the first one. -/
  | overwrite
  deriving DecidableEq, Repr, Inhabited

/-- What registration has come to: the table, what the module declares, and the problems. -/
structure Registration where
  symbols : SymbolTable
  messages : List Descriptor := []
  enums : List Descriptor := []
  diagnostics : List Diagnostic := []

namespace Registration

def report (r : Registration) (span : Span) (problem : Problem) : Registration :=
  { r with diagnostics := r.diagnostics ++ [⟨span, problem⟩] }

/-- Enter one package, unless its name is taken. -/
def enterPackage (file : String) (span : Span) (r : Registration) (p : PackageName) :
    Registration :=
  let s : Symbol := ⟨Descriptor.ofPackage p, .package, file, span⟩
  match r.symbols.get? s.fullName with
  | some previous =>
    if previous.kind = .package then r else r.report span (.packageIsType s.fullName previous)
  | none => { r with symbols := r.symbols.insert s }

/-- Enter a type.  The second part of the result says whether it is in the table now. -/
def enterType (file : String) (policy : RedefinitionPolicy) (r : Registration) (d : Descriptor)
    (kind : TypeKind) (span : Span) : Registration × Bool :=
  let r := if (Source.Scalar.ofName? d.name).isSome then r.report span (.shadowsBuiltin d.name)
    else r
  let s : Symbol := ⟨d, kind, file, span⟩
  let entered := { r with symbols := r.symbols.insert s }
  match r.symbols.get? s.fullName with
  | none => (entered, true)
  | some previous =>
    if previous.kind = .package then (r.report span (.typeIsPackage s.fullName), false)
    else match policy with
      | .overwrite => (entered, true)
      | .refuse => (r.report span (.duplicateType kind s.fullName previous), false)

def enterEnum (file : String) (policy : RedefinitionPolicy) (scope : Descriptor)
    (r : Registration) (e : Source.Enum) : Registration :=
  let d := scope.child e.name.value
  match r.enterType file policy d .enum e.name.span with
  | (r, true) => { r with enums := r.enums ++ [d] }
  | (r, false) => r

mutual
def enterMessage (file : String) (policy : RedefinitionPolicy) (scope : Descriptor)
    (r : Registration) : Source.Message → Registration
  | ⟨_, _, name, members⟩ =>
    let d := scope.child name.value
    let r := match r.enterType file policy d .message name.span with
      | (r, true) => { r with messages := r.messages ++ [d] }
      | (r, false) => r
    enterMembers file policy d.scope r members
def enterMembers (file : String) (policy : RedefinitionPolicy) (scope : Descriptor)
    (r : Registration) : List Member → Registration
  | [] => r
  | m :: ms => enterMembers file policy scope (enterMember file policy scope r m) ms
def enterMember (file : String) (policy : RedefinitionPolicy) (scope : Descriptor)
    (r : Registration) : Member → Registration
  | .field _ => r
  | .message m => enterMessage file policy scope r m
  | .enum e => enterEnum file policy scope r e
end

/-- What comes before the package declaration is out of place, but entered all the same. -/
def misplaced (r : Registration) (seen : Bool) (kind : String) (span package : Span) :
    Registration :=
  if seen then r else r.report span (.beforePackage kind package)

/-- Enter the declarations of a file in order.  `seen` says that a package declaration has come. -/
def enterItems (file : String) (policy : RedefinitionPolicy) (package : Source.Package)
    (scope : Descriptor) : Bool → List Item → Registration → Registration
  | _, [], r => r
  | seen, item :: items, r =>
    match item with
    | .package p =>
      let r := if p.span = package.span then r else r.report p.span (.secondPackage package.span)
      enterItems file policy package scope true items r
    | .inclusion i =>
      enterItems file policy package scope seen items
        (r.misplaced seen "include" i.span package.span)
    | .message m =>
      enterItems file policy package scope seen items
        (enterMessage file policy scope (r.misplaced seen "message" m.span package.span) m)
    | .enum e =>
      enterItems file policy package scope seen items
        (enterEnum file policy scope (r.misplaced seen "enum" e.span package.span) e)

end Registration

/-- The package of a file, if it declares a valid one. -/
def filePackage? (file : Schema) : Option PackageName := do
  (PackageName.ofSegments (← file.package?).names).toOption

/-- Register a file.  Without a usable package nothing is entered, and there is no module. -/
def register (policy : RedefinitionPolicy) (symbols : SymbolTable) (file : Schema) :
    Option Module × SymbolTable × List Diagnostic :=
  match file.package? with
  | none => (none, symbols, [⟨file.span, .missingPackage⟩])
  | some package =>
    match PackageName.ofSegments package.names with
    | .error cause => (none, symbols, [⟨package.span, .badPackageName package.text cause⟩])
    | .ok name =>
      let path := file.span.file
      let r := name.ancestry.foldl (Registration.enterPackage path package.span) { symbols }
      let r := Registration.enterItems path policy package (Descriptor.ofPackage name) false
        file.items r
      (some { path, package := name, messages := r.messages, enums := r.enums }, r.symbols,
        r.diagnostics)

end BitSchema
