import BitSchema.Diagnostic

/-!
# Index checks

Within one message or enum, names are different, and so are the indices given, which are at most
`maxIndex`.  A repetition cites the first item of that name or index.
-/

namespace BitSchema

open Source (Schema Item Member Ident IntLit)

/-- A field or variant as far as its place is concerned. -/
structure IndexedItem where
  name : Ident
  index : Option IntLit

/-- The items seen so far in a message or enum. -/
structure IndexScope where
  kind : String
  container : String
  names : List Ident := []
  indices : List (Ident × IntLit) := []

namespace IndexScope

/-- A name that was seen before. -/
def nameProblem? (s : IndexScope) (name : Ident) : Option Diagnostic :=
  (s.names.find? (·.value == name.value)).map fun first =>
    ⟨name.span, .duplicateName s.kind name.value s.container first.span⟩

/-- An index that is too large, or was seen before. -/
def indexProblem? (s : IndexScope) (name : Ident) (index : IntLit) : Option Diagnostic :=
  if maxIndex < index.value.toNat then
    some ⟨index.span, .wideIndex index.value.toNat name.value⟩
  else (s.indices.find? (·.2.value == index.value)).map fun (firstName, first) =>
    ⟨index.span, .duplicateIndex index.value.toNat s.kind s.container name.value firstName.value
      first.span⟩

/-- Add an item.  Only the first of a name or index is kept. -/
def add (s : IndexScope) (item : IndexedItem) : IndexScope × List Diagnostic :=
  let nameProblem := s.nameProblem? item.name
  let named := if nameProblem.isSome then s else { s with names := s.names ++ [item.name] }
  match item.index with
  | none => (named, nameProblem.toList)
  | some index =>
    match s.indexProblem? item.name index with
    | some p => (named, nameProblem.toList ++ [p])
    | none => ({ named with indices := s.indices ++ [(item.name, index)] }, nameProblem.toList)

/-- Add items in order. -/
def addAll : IndexScope → List IndexedItem → List Diagnostic
  | _, [] => []
  | s, item :: items =>
    let (s, problems) := s.add item
    problems ++ addAll s items

end IndexScope

def checkEnumIndices (e : Source.Enum) : List Diagnostic :=
  IndexScope.addAll ⟨"variant", e.name.value, [], []⟩ (e.variants.map fun v => ⟨v.name, v.index⟩)

mutual
def checkMessageIndices : Source.Message → List Diagnostic
  | ⟨_, _, name, members⟩ => checkMemberIndices ⟨"field", name.value, [], []⟩ members
/-- Fields go into the scope; types declared between them are checked where they stand. -/
def checkMemberIndices (s : IndexScope) : List Member → List Diagnostic
  | [] => []
  | .field f :: ms =>
    let (s, problems) := s.add ⟨f.name, f.index⟩
    problems ++ checkMemberIndices s ms
  | .message m :: ms => checkMessageIndices m ++ checkMemberIndices s ms
  | .enum e :: ms => checkEnumIndices e ++ checkMemberIndices s ms
end

/-- Check the indices and names of every message and enum of a file. -/
def checkIndices (file : Schema) : List Diagnostic :=
  file.items.flatMap fun
    | .message m => checkMessageIndices m
    | .enum e => checkEnumIndices e
    | _ => []

end BitSchema
