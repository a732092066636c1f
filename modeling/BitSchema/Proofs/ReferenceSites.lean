import BitSchema.Proofs.FieldSites
import BitSchema.Proofs.SourceDeclarations

/-!
# References in their scopes

A walk through a source comes to references in source order, resolving visits the fields of a
message before the types declared in it, and lowering keeps to the members as they stand.
`mentions` lists the references of a source, each with the declarations around it; the three are
compared with this list.
-/

namespace BitSchema

open List

namespace Source

/-- A reference to a type, and the scope that the declarations around it make. -/
structure Mention where
  scope : Descriptor
  span : Span
  absolute : Bool
  path : List Ident
  name : Ident

/-- The reference as a node of an outline. -/
def Mention.outline (m : Mention) : Outline :=
  (TypeExpr.named m.span m.absolute m.path m.name).outline

def TypeExpr.mentions (scope : Descriptor) : TypeExpr → List Mention
  | scalar .. => []
  | named span absolute path name => [⟨scope, span, absolute, path, name⟩]
  | array _ element => element.mentions scope
  | map _ key value => key.mentions scope ++ value.mentions scope

/-- The scope inside a declaration of this name. -/
def inside (scope : Descriptor) (name : Ident) : Descriptor :=
  ⟨scope.package, scope.path ++ [name.value], ""⟩

def Variant.mentions (scope : Descriptor) (v : Variant) : List Mention :=
  v.field?.elim [] (·.type.mentions scope)

def Enum.mentions (scope : Descriptor) (e : Enum) : List Mention :=
  e.variants.flatMap (Variant.mentions (inside scope e.name))

mutual
/-- The references in a message, in source order. -/
def Message.mentions (scope : Descriptor) : Message → List Mention
  | ⟨_, _, name, members⟩ => mentionsIn (inside scope name) members
def mentionsIn (scope : Descriptor) : List Member → List Mention
  | [] => []
  | m :: ms => m.mentions scope ++ mentionsIn scope ms
def Member.mentions (scope : Descriptor) : Member → List Mention
  | .field f => f.type.mentions scope
  | .message m => m.mentions scope
  | .enum e => e.mentions scope
end

def Item.mentions (scope : Descriptor) : Item → List Mention
  | .message m => m.mentions scope
  | .enum e => e.mentions scope
  | _ => []

/-- The references of a source, in source order, each in the scope of the innermost message or enum
around it. -/
def Schema.mentions (package : PackageName) (s : Schema) : List Mention :=
  s.items.flatMap (Item.mentions ⟨package, [], ""⟩)

/-! ## Walks -/

/-- The references that a walk comes to. -/
def Outline.named (o : Outline) : List Outline :=
  (o.walk fun _ => false).filter (·.kind = .named)

theorem Outline.named_node (kind : NodeKind) (span : Span) (children : List Outline) :
    (Outline.node kind span children).named =
      (if kind = .named then [.node kind span children] else []) ++ children.flatMap named := by
  have below : (walkAll (fun _ => false) children).filter (·.kind = .named) =
      children.flatMap named := by
    induction children with
    | nil => rfl
    | cons o os ih =>
      rw [walkAll, filter_append, ih, flatMap_cons]
      rfl
  rw [named, walk, if_neg Bool.false_ne_true, filter_cons, below]
  by_cases isNamed : kind = .named <;> simp [Outline.kind, isNamed]

section

open Outline (named named_node)

theorem flatMap_named_idents (is : List Ident) : (is.map Ident.outline).flatMap named = [] := by
  simp [flatMap_map, Ident.outline, named_node]

theorem flatMap_named_index (index : Option IntLit) :
    (index.map IntLit.outline).toList.flatMap named = [] := by
  cases index <;> simp [IntLit.outline, named_node]

theorem named_typeExpr (scope : Descriptor) (t : TypeExpr) :
    t.outline.named = (t.mentions scope).map Mention.outline := by
  induction t with
  | scalar span s => rfl
  | named span absolute path name =>
    rw [TypeExpr.outline, named_node, flatMap_named_idents]
    rfl
  | array span element ih => simp [TypeExpr.outline, TypeExpr.mentions, named_node, ih]
  | map span key value ihKey ihValue =>
    simp [TypeExpr.outline, TypeExpr.mentions, named_node, ihKey, ihValue]

mutual
theorem named_directive (d : Directive) : d.outline.named = [] := by
  obtain ⟨span, name, none | args⟩ := d
  · simp [Directive.outline, named_node, Ident.outline]
  · simp [Directive.outline, named_node, Ident.outline, named_args args]
theorem named_args (args : List Directive.Arg) :
    (Directive.outlineArgs args).flatMap named = [] := by
  cases args with
  | nil => rfl
  | cons arg args =>
    rw [Directive.outlineArgs, flatMap_cons, named_arg arg, named_args args]
    rfl
theorem named_arg (arg : Directive.Arg) : (Directive.outlineArg arg).named = [] := by
  cases arg with
  | int literal => simp [Directive.outlineArg, named_node, IntLit.outline]
  | call d => simp [Directive.outlineArg, named_node, named_directive d]
end

theorem named_field (scope : Descriptor) (f : Field) :
    f.outline.named = (f.type.mentions scope).map Mention.outline := by
  rw [Field.outline, named_node]
  simp [flatMap_named_index, ← named_typeExpr scope, flatMap_map, named_directive,
    Ident.outline, named_node]

theorem named_enum (scope : Descriptor) (e : Enum) :
    e.outline.named = (e.mentions scope).map Mention.outline := by
  have variant : ∀ v : Variant, v.outline.named =
      (v.mentions (inside scope e.name)).map Mention.outline := by
    rintro ⟨span, doc, index, name | f⟩
    · simp [Variant.outline, Variant.mentions, Variant.field?, named_node, flatMap_named_index,
        Ident.outline]
    · simp [Variant.outline, Variant.mentions, Variant.field?, named_node, flatMap_named_index,
        named_field (inside scope e.name)]
  simp [Enum.outline, Enum.mentions, named_node, Ident.outline, flatMap_map, variant, map_flatMap]

theorem named_message (scope : Descriptor) (m : Message) :
    m.outline.named = (m.mentions scope).map Mention.outline := by
  induction m using Message.induct generalizing scope with
  | step span doc name members ih =>
    have below : (outlineMembers members).flatMap named =
        (mentionsIn (inside scope name) members).map Mention.outline := by
      induction members with
      | nil => rfl
      | cons member members rest =>
        rw [outlineMembers, mentionsIn, flatMap_cons, map_append,
          rest fun m mem => ih m (mem_cons_of_mem _ mem)]
        cases member with
        | field f => rw [outlineMember, Member.mentions, named_field]
        | message m => rw [outlineMember, Member.mentions, ih m mem_cons_self]
        | enum e => rw [outlineMember, Member.mentions, named_enum]
    simp [Message.outline, Message.mentions, named_node, Ident.outline, below]

/-- A walk comes to the references in source order. -/
theorem named_schema (package : PackageName) (s : Schema) :
    s.outline.named = (s.mentions package).map Mention.outline := by
  have item : ∀ i : Item, i.outline.named =
      (i.mentions ⟨package, [], ""⟩).map Mention.outline := by
    intro i
    cases i with
    | package p =>
      rw [Item.outline, Package.outline, named_node, flatMap_named_idents]
      rfl
    | inclusion i => rfl
    | message m => exact named_message _ m
    | enum e => exact named_enum _ e
  simp [Schema.outline, Schema.mentions, named_node, flatMap_map, item, map_flatMap]

end

/-! ## Visits -/

/-- The references in the type of a field. -/
def FieldSite.mentions (s : FieldSite) : List Mention := s.field.type.mentions s.scope

/-- The references of a source in the order in which they are resolved. -/
def Schema.visits (s : Schema) : List Mention := s.sites.flatMap FieldSite.mentions

theorem visits_enum (scope : Descriptor) {e : Enum} (some : e.name.value ≠ "") :
    (e.sites scope).flatMap FieldSite.mentions = e.mentions scope := by
  rw [Enum.sites, scope.scope_child some, Enum.mentions, inside, flatMap_map]
  induction e.variants with
  | nil => rfl
  | cons v vs ih =>
    rw [flatMap_cons, ← ih, filterMap_cons, Variant.mentions]
    cases v.field? <;> rfl

/-- What is declared among members may be visited before or after their fields. -/
theorem visits_declared {fields own others : List FieldSite} {first rest : List Mention}
    (here : (own.flatMap FieldSite.mentions).Perm first)
    (later : ((fields ++ others).flatMap FieldSite.mentions).Perm rest) :
    ((fields ++ (own ++ others)).flatMap FieldSite.mentions).Perm (first ++ rest) := by
  rw [flatMap_append] at later
  rw [flatMap_append, flatMap_append]
  exact (perm_append_comm_assoc _ _ _).trans (here.append later)

theorem visits_message (scope : Descriptor) (m : Message) (some : ∀ name ∈ m.typeNames, name ≠ "") :
    ((m.sites scope).flatMap FieldSite.mentions).Perm (m.mentions scope) := by
  induction m using Message.induct generalizing scope with
  | step span doc name members ih =>
    rw [Message.typeNames, forall_mem_cons] at some
    obtain ⟨own, some⟩ := some
    rw [Message.sites, Message.mentions, scope.scope_child own, inside]
    generalize Descriptor.mk scope.package (scope.path ++ [name.value]) "" = scope
    induction members with
    | nil => exact .refl _
    | cons member members others =>
      rw [typeNamesIn, forall_mem_append] at some
      have rest := others (fun m mem => ih m (mem_cons_of_mem _ mem)) some.2
      rw [sitesIn, mentionsIn]
      cases member with
      | field f => exact rest.append_left (f.type.mentions scope)
      | message m => exact visits_declared (ih m mem_cons_self scope some.1) rest
      | enum e => exact visits_declared (.of_eq (visits_enum scope (some.1 _ mem_cons_self))) rest

/-- Resolving comes to the same references, in another order. -/
theorem visits_perm {s : Schema} {package : PackageName} (packaged : filePackage? s = some package)
    (some : ∀ name ∈ s.typeNames, name ≠ "") : s.visits.Perm (s.mentions package) := by
  rw [Schema.visits, Schema.sites, packaged, Option.elim, flatMap_assoc, Schema.mentions]
  refine List.Perm.flatMap_left _ fun i mem => ?_
  have some : ∀ name ∈ i.typeNames, name ≠ "" := fun name inside =>
    some name (mem_flatMap.mpr ⟨i, mem, inside⟩)
  cases i with
  | package p | inclusion i => exact .refl _
  | message m => exact visits_message _ m some
  | enum e => exact .of_eq (visits_enum _ (some _ mem_cons_self))

end Source

open Source (Mention)

/-! ## Resolutions -/

namespace Resolution

variable {table : SymbolTable}

/-- What a reference leads to. -/
def ofMention (table : SymbolTable) (m : Mention) : Resolution :=
  ofReference table m.scope m.span m.absolute m.path m.name

theorem ofType_eq (scope : Descriptor) (type : Source.TypeExpr) :
    ofType table scope type = join ((type.mentions scope).map (ofMention table)) := by
  induction type with
  | scalar span s => rfl
  | named span absolute path name =>
    rw [ofType, Source.TypeExpr.mentions, join_eq]
    simp [ofMention]
  | array span element ih => exact ih
  | map span key value ihKey ihValue =>
    rw [ofType, Source.TypeExpr.mentions, map_append, join_append, ihKey, ihValue]

theorem resolveReferences_visits (table : SymbolTable) (file : Source.Schema) :
    resolveReferences table file = join (file.visits.map (ofMention table)) := by
  rw [resolveReferences_eq, Source.Schema.visits, map_flatMap, join_flatMap]
  exact congrArg join (map_congr_left fun s _ => ofType_eq s.scope s.field.type)

/-- A reference leads to one type or to one error at its place. -/
inductive Settled (m : Mention) : Resolution → Prop where
  | resolved {s : Symbol} : s.kind = .message ∨ s.kind = .enum → Settled m ⟨[s], []⟩
  | reported {d : Diagnostic} : d.span = m.span → d.code = 3006 ∨ d.code = 3007 ∨ d.code = 3008 →
    Settled m ⟨[], [d]⟩

theorem settled (m : Mention) : Settled m (ofMention table m) := by
  rw [ofMention, ofReference]
  split
  next => exact .reported rfl (.inl rfl)
  next r _ =>
    split
    next => exact .reported rfl (.inr (.inr rfl))
    next => exact .reported rfl (.inr (.inl rfl))
    next s found =>
      refine .resolved ?_
      rw [SymbolTable.resolveType] at found
      split at found
      next => cases found
      next =>
        split at found
        next => cases found
        next type =>
          cases found
          cases kind : s.kind <;> simp_all

/-- Every report on references is an error. -/
theorem errorFree_join_iff {ms : List Mention} :
    ErrorFree (join (ms.map (ofMention table))).diagnostics ↔
      (join (ms.map (ofMention table))).diagnostics = [] := by
  refine ⟨fun clean => eq_nil_iff_forall_not_mem.mpr fun d mem => ?_, fun none => ?_⟩
  · have error := clean d mem
    rw [join_eq] at mem
    obtain ⟨_, inside, mem⟩ := mem_flatMap.mp mem
    obtain ⟨m, -, rfl⟩ := mem_map.mp inside
    have codes : Settled m (ofMention table m) := settled m
    generalize ofMention table m = r at mem codes
    cases codes with
    | resolved => cases mem
    | reported _ code =>
      cases mem_singleton.mp mem
      rw [isError_eq_false_iff] at error
      change 4000 ≤ d.code at error
      omega
  · rw [none]
    exact errorFree_nil

end Resolution

/-- The references of a source that has a package.  A walk comes to the mentioned ones and to no
others; resolving visits the same, each once and in its scope, and finds one type or reports one
error for each; and the source cannot be lowered because of a reference if and only if there is a
report. -/
theorem references_of_parse {file : String} {source : ByteArray} {schema : Source.Schema}
    {package : PackageName} (ok : Source.Schema.parse file source = .ok schema)
    (packaged : filePackage? schema = some package) (table : SymbolTable) :
    (schema.outline.walk fun _ => false).filter (·.kind = .named) =
      (schema.mentions package).map Mention.outline ∧
    schema.visits.Perm (schema.mentions package) ∧
    resolveReferences table schema =
      Resolution.join (schema.visits.map (Resolution.ofMention table)) ∧
    (∀ m ∈ schema.visits, Resolution.Settled m (Resolution.ofMention table m)) ∧
    ((∃ e, lower table [schema] = .error e ∧ e.IsReference) ↔
      (resolveReferences table schema).diagnostics ≠ []) := by
  have visits := Resolution.resolveReferences_visits table schema
  refine ⟨Source.named_schema package schema, ?_, visits, fun m _ => Resolution.settled m, ?_⟩
  · exact Source.visits_perm packaged fun name mem => (Source.isPart_of_parse ok name mem).some
  · have lowers : Lowering.Lowers (lower table [schema]) _ := lowers_lower (by simp [packaged])
    have clean : (resolveReferences table schema).diagnostics = [] ↔
        ∃ lowered, lower table [schema] = .ok lowered := by
      rw [lowers.iff, forall_mem_singleton, visits, Resolution.errorFree_join_iff]
    rw [Ne, clean]
    cases result : lower table [schema] with
    | ok lowered => simp
    | error e => simpa using lowers.onReference e result

/-- References of a message before and after that of a type declared in it. -/
def nestedSource : ByteArray :=
  "package p; message M \x7b [K].p a; message N \x7b []M m; \x7d ".toUTF8 ++
    "enum E \x7b N n; \x7d E e; \x7d".toUTF8

/-- A table that lacks one of them. -/
def nestedTable : SymbolTable :=
  ⟨["p", "p.M", "p.M.N", "p.M.E"].map fun name =>
    (name, ⟨⟨⟨["p"]⟩, [], name⟩, if name = "p" then .package else .message, "", .none⟩)⟩

theorem references_of_parse_nested :
    ∃ schema package, Source.Schema.parse "m" nestedSource = .ok schema ∧
      filePackage? schema = some package ∧
      (schema.mentions package).map (fun m => (m.scope.path, m.name.value)) =
        [(["M"], "K"), (["M"], "p"), (["M", "N"], "M"), (["M", "E"], "N"), (["M"], "E")] ∧
      schema.visits.map (·.name.value) = ["K", "p", "E", "M", "N"] ∧
      (resolveReferences nestedTable schema).diagnostics.map (·.code) = [3007, 3008] ∧
      ∃ e, lower nestedTable [schema] = .error e ∧ e.IsReference := by
  have run : ∃ schema ∈ (Source.Schema.parse "m" nestedSource).toOption,
      ∃ package ∈ filePackage? schema,
        (schema.mentions package).map (fun m => (m.scope.path, m.name.value)) =
          [(["M"], "K"), (["M"], "p"), (["M", "N"], "M"), (["M", "E"], "N"), (["M"], "E")] ∧
        schema.visits.map (·.name.value) = ["K", "p", "E", "M", "N"] ∧
        (resolveReferences nestedTable schema).diagnostics.map (·.code) = [3007, 3008] := by
    decide +kernel
  obtain ⟨schema, read, package, packaged, mentions, visits, codes⟩ := run
  have ok := toOption_eq_some_iff.mp read
  obtain ⟨-, -, -, -, fails⟩ := references_of_parse ok packaged nestedTable
  refine ⟨schema, package, ok, packaged, mentions, visits, codes, fails.mpr fun none => ?_⟩
  rw [none] at codes
  cases codes

end BitSchema
