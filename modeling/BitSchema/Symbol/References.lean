import BitSchema.Symbol.Registration

/-!
# References

Resolves every type reference of a file.  The fields of a message come before the types declared in
it.
-/

namespace BitSchema

open Source (Schema Item Member TypeExpr)

/-- What the references of some declarations led to: symbols and problems, in order. -/
structure Resolution where
  symbols : List Symbol := []
  diagnostics : List Diagnostic := []

namespace Resolution

instance : Append Resolution where
  append a b := ⟨a.symbols ++ b.symbols, a.diagnostics ++ b.diagnostics⟩

def problem (span : Span) (p : Problem) : Resolution := { diagnostics := [⟨span, p⟩] }

/-- The references of several parts, in order. -/
def join (rs : List Resolution) : Resolution := rs.foldl (· ++ ·) {}

/-- A reference as it was written. -/
def ofReference (table : SymbolTable) (scope : Descriptor) (span : Span) (absolute : Bool)
    (path : List Source.Ident) (name : Source.Ident) : Resolution :=
  match Reference.ofParts absolute (path.map (·.value)) name.value with
  | .error cause =>
    problem span (.badReference (Source.referenceText absolute (path ++ [name])) cause)
  | .ok r =>
    match table.resolveType scope r with
    | .error (.notType _) => problem span (.packageReference r.text)
    | .error (.unresolved ..) => problem span (.unresolved r.text scope)
    | .ok s => { symbols := [s] }

def ofType (table : SymbolTable) (scope : Descriptor) : TypeExpr → Resolution
  | .scalar .. => {}
  | .named span absolute path name => ofReference table scope span absolute path name
  | .array _ element => ofType table scope element
  | .map _ key value => ofType table scope key ++ ofType table scope value

def ofEnum (table : SymbolTable) (scope : Descriptor) (e : Source.Enum) : Resolution :=
  let inner := (scope.child e.name.value).scope
  join (e.variants.filterMap fun v => v.field?.map (ofType table inner ·.type))

/-- The fields that stand directly among members. -/
def ofFields (table : SymbolTable) (scope : Descriptor) (members : List Member) : Resolution :=
  join ((members.filterMap Member.field?).map (ofType table scope ·.type))

mutual
def ofMessage (table : SymbolTable) (scope : Descriptor) : Source.Message → Resolution
  | ⟨_, _, name, members⟩ =>
    let inner := (scope.child name.value).scope
    ofFields table inner members ++ ofMembers table inner members
/-- The types declared among members. -/
def ofMembers (table : SymbolTable) (scope : Descriptor) : List Member → Resolution
  | [] => {}
  | m :: ms => ofMember table scope m ++ ofMembers table scope ms
def ofMember (table : SymbolTable) (scope : Descriptor) : Member → Resolution
  | .field _ => {}
  | .message m => ofMessage table scope m
  | .enum e => ofEnum table scope e
end

def ofItem (table : SymbolTable) (scope : Descriptor) : Item → Resolution
  | .message m => ofMessage table scope m
  | .enum e => ofEnum table scope e
  | _ => {}

end Resolution

/-- Resolve the references of a file; one without a valid package has been reported already. -/
def resolveReferences (table : SymbolTable) (file : Schema) : Resolution :=
  match filePackage? file with
  | none => {}
  | some p => Resolution.join (file.items.map (Resolution.ofItem table (Descriptor.ofPackage p)))

end BitSchema
