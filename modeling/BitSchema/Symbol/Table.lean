import BitSchema.Name.Basic
import BitSchema.Source.Span

/-!
# Symbols

Every package, message and enum that is declared, by its full name.

A reference from the root is looked up by its full name, and if that fails, below the package it
stands in.  Any other reference is tried in each scope around it, from the innermost outwards to the
package, and the first hit wins.
-/

namespace BitSchema

inductive TypeKind where
  | message
  | enum
  | package
  deriving DecidableEq, Repr, Inhabited

def TypeKind.name : TypeKind → String
  | message => "message"
  | enum => "enum"
  | package => "package"

/-- A named entry: what it is, and where it was declared. -/
structure Symbol where
  descriptor : Descriptor
  kind : TypeKind
  file : String
  span : Span
  deriving DecidableEq, Repr, Inhabited

def Symbol.fullName (s : Symbol) : String := s.descriptor.text

/-- Symbols by full name, each name once. -/
structure SymbolTable where
  entries : List (String × Symbol) := []
  deriving Repr, Inhabited

/-- Why a reference names no type. -/
inductive ResolveError where
  | unresolved (reference : Reference) (scope : Descriptor)
  | notType (reference : Reference)
  deriving DecidableEq, Repr

def ResolveError.message : ResolveError → String
  | unresolved reference scope =>
    s!"unresolved reference: '{reference.text}' in scope '{scope.text}'"
  | notType reference =>
    s!"reference does not name a message or enum: '{reference.text}' is a package"

namespace SymbolTable

def size (t : SymbolTable) : Nat := t.entries.length

/-- The symbol of a full name. -/
def get? (t : SymbolTable) (fullName : String) : Option Symbol :=
  (t.entries.find? (·.1 == fullName)).map Prod.snd

/-- Store a symbol under its full name, in place of one that is there. -/
def insert (t : SymbolTable) (s : Symbol) : SymbolTable :=
  if (t.get? s.fullName).isSome then
    ⟨t.entries.map fun e => if e.1 == s.fullName then (e.1, s) else e⟩
  else ⟨t.entries ++ [(s.fullName, s)]⟩

/-- The symbols in the order of their full names. -/
def sorted (t : SymbolTable) : List Symbol :=
  (t.entries.mergeSort fun a b => a.1 ≤ b.1).map Prod.snd

/-- The names that a reference may stand for, in the order in which they are tried. -/
def candidates (scope : Descriptor) (r : Reference) : List String :=
  let package := scope.package.segments
  if r.absolute then [joinName r.parts, joinName (package ++ r.parts)]
  else (List.range (scope.path.length + 1)).reverse.map fun depth =>
    joinName (package ++ scope.path.take depth ++ r.parts)

/-- The symbol that a reference stands for in a scope. -/
def resolve? (t : SymbolTable) (scope : Descriptor) (r : Reference) : Option Symbol :=
  (candidates scope r).findSome? t.get?

/-- The message or enum that a reference stands for in a scope. -/
def resolveType (t : SymbolTable) (scope : Descriptor) (r : Reference) :
    Except ResolveError Symbol :=
  match t.resolve? scope r with
  | none => .error (.unresolved r scope)
  | some s => if s.kind = .package then .error (.notType r) else .ok s

end SymbolTable

end BitSchema
