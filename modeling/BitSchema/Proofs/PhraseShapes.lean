import BitSchema.Proofs.Lookahead
import BitSchema.Proofs.ParsedSources
import BitSchema.Source.Outline

/-!
# Shapes of phrases

The phrases of a derivation are those that the grammar asks for, in its order (`Phrase.Shape`).  So
nothing is lost when the phrase of a production is composed from its parts: `Phrase.Composes` says
for each production what its parts are, tokens aside, and where they stand in the result.
-/

namespace BitSchema.Source.Phrase

open List

/-! ## What a production gives -/

/-- The phrase is one that the production gives. -/
def IsOf : Rule → Phrase → Prop
  | .schema, p => ∃ is, p = .items is
  | .decl, p => ∃ i, p = .item i
  | .package, p => ∃ x, p = .item (.package x)
  | .inclusion, p => ∃ x, p = .item (.inclusion x)
  | .message, p => ∃ m, p = .item (.message m)
  | .enum, p => ∃ e, p = .item (.enum e)
  | .member, p => ∃ m, p = .member m
  | .field, p | .typedVariant, p => ∃ f, p = .field f
  | .variant, p => ∃ v, p = .variant v
  | .typeExpr, p => ∃ t, p = .typeExpr t
  | .mapType, p => ∃ key value, p = .mapType key value
  | .typeName, p => ∃ absolute i is, p = .typeName absolute (i :: is)
  | .directive, p => ∃ d, p = .directive d
  | .directiveArg, p => ∃ a, p = .arg a
  | .ident, p => ∃ i, p = .ident i
  | .int, p => ∃ i, p = .int i
  | .string, p => ∃ t, p = .text t

mutual
/-- Phrases in a row that a pattern allows. -/
def Shape : Pattern → List Phrase → Prop
  | .literal s, ps => ∃ t, ps = [.token t] ∧ t.text = s
  | .token k, ps => ∃ t, ps = [.token t] ∧ t.kind = k
  | .rule r, ps => ∃ p, ps = [p] ∧ p.IsOf r
  | .seq xs, ps => ShapeSeq xs ps
  | .choice xs, ps => ShapeChoice xs ps
  | .optional x, ps => ps = [] ∨ Shape x ps
  | .many x, ps => ∃ groups, ps = List.flatten groups ∧ ∀ g ∈ groups, Shape x g
def ShapeSeq : List Pattern → List Phrase → Prop
  | [], ps => ps = []
  | x :: xs, ps => ∃ first rest, ps = first ++ rest ∧ Shape x first ∧ ShapeSeq xs rest
def ShapeChoice : List Pattern → List Phrase → Prop
  | [], _ => False
  | x :: xs, ps => Shape x ps ∨ ShapeChoice xs ps
end

variable {p : Pattern} {ps phrases : List Phrase} {r : Rule}

theorem shapeChoice_of_mem {ps : List Pattern} {parts : List Phrase} (mem : p ∈ ps)
    (shape : Shape p parts) : ShapeChoice ps parts := by
  induction ps with
  | nil => cases mem
  | cons q ps ih =>
    rw [ShapeChoice]
    rcases mem_cons.mp mem with rfl | later
    · exact .inl shape
    · exact .inr (ih later)

/-! ## Content -/

/-- The phrase is not just a token. -/
def isContent : Phrase → Bool
  | .token _ => false
  | _ => true

/-- The phrases other than tokens. -/
def content (parts : List Phrase) : List Phrase := parts.filter isContent

@[simp]
theorem content_nil : content [] = [] := rfl

@[simp]
theorem content_token (t : Token) (parts : List Phrase) :
    content (.token t :: parts) = content parts := rfl

@[simp]
theorem content_ident (i : Ident) (parts : List Phrase) :
    content (.ident i :: parts) = .ident i :: content parts := rfl

@[simp]
theorem content_typeExpr (t : TypeExpr) (parts : List Phrase) :
    content (.typeExpr t :: parts) = .typeExpr t :: content parts := rfl

theorem content_cons {p : Phrase} (solid : p.isContent = true) (parts : List Phrase) :
    content (p :: parts) = p :: content parts := filter_cons_of_pos solid

@[simp]
theorem content_append (parts others : List Phrase) :
    content (parts ++ others) = content parts ++ content others := filter_append ..

/-- What is read off phrases other than tokens is read off the content. -/
theorem flatMap_of_content {α : Type} {f : Phrase → List α} {parts : List Phrase}
    (same : content parts = ps) (none : ∀ t, f (.token t) = []) :
    parts.flatMap f = ps.flatMap f := by
  subst same
  induction parts with
  | nil => rfl
  | cons p parts ih =>
    cases solid : p.isContent with
    | true => rw [content_cons solid, flatMap_cons, flatMap_cons, ih]
    | false =>
      cases p <;> cases solid
      rw [content_token, flatMap_cons, none, nil_append, ih]

theorem filterMap_of_content {α : Type} {f : Phrase → Option α} {parts : List Phrase}
    (same : content parts = ps) (none : ∀ t, f (.token t) = none) :
    parts.filterMap f = ps.filterMap f := by
  rw [filterMap_eq_flatMap_toList, filterMap_eq_flatMap_toList]
  exact flatMap_of_content same fun t => congrArg Option.toList (none t)

theorem findSome?_of_content {α : Type} {f : Phrase → Option α} {parts : List Phrase}
    (same : content parts = ps) (none : ∀ t, f (.token t) = none) :
    parts.findSome? f = ps.findSome? f := by
  rw [← head?_filterMap, ← head?_filterMap, filterMap_of_content same none]

/-- Groups that hold one phrase each, tokens aside. -/
theorem content_flatten {α : Type} {f : α → Phrase} {groups : List (List Phrase)}
    (one : ∀ g ∈ groups, ∃ a, content g = [f a]) :
    ∃ as : List α, content groups.flatten = as.map f ∧ as.length = groups.length := by
  induction groups with
  | nil => exact ⟨[], rfl, rfl⟩
  | cons g groups ih =>
    obtain ⟨⟨a, first⟩, others⟩ := forall_mem_cons.mp one
    obtain ⟨as, rest, length⟩ := ih others
    refine ⟨a :: as, ?_, congrArg Nat.succ length⟩
    rw [flatten_cons, content_append, first, rest]
    rfl

/-- Phrases of a production, one after the other. -/
theorem content_many {α : Type} {f : α → Phrase} {parts : List Phrase}
    (shape : Shape (.many (.rule r)) parts) (read : ∀ p, IsOf r p → ∃ a, p = f a)
    (solid : ∀ a, (f a).isContent = true) : ∃ as : List α, content parts = as.map f := by
  obtain ⟨groups, rfl, one⟩ := shape
  have each : ∀ g ∈ groups, ∃ a, content g = [f a] := by
    intro g mem
    obtain ⟨p, rfl, isOf⟩ := one g mem
    obtain ⟨a, rfl⟩ := read p isOf
    exact ⟨a, content_cons (solid a) []⟩
  obtain ⟨as, same, -⟩ := content_flatten each
  exact ⟨as, same⟩

/-- Phrases of a production with separators between them. -/
theorem content_separated {α : Type} {f : α → Phrase} {separator : String} {parts : List Phrase}
    {xs : List Pattern}
    (shape : ShapeSeq (.rule r :: .many (.seq [.literal separator, .rule r]) :: xs) parts)
    (read : ∀ p, IsOf r p → ∃ a, p = f a) (solid : ∀ a, (f a).isContent = true) :
    ∃ a as rest, content parts = (a :: as).map f ++ content rest ∧ ShapeSeq xs rest ∧
      (as = [] → parts = f a :: rest) := by
  obtain ⟨_, _, rfl, ⟨p, rfl, isOf⟩, _, rest, rfl, ⟨groups, rfl, one⟩, shape⟩ := shape
  obtain ⟨a, rfl⟩ := read p isOf
  have each : ∀ g ∈ groups, ∃ a, content g = [f a] := by
    intro g mem
    obtain ⟨_, _, rfl, ⟨t, rfl, -⟩, _, _, rfl, ⟨p, rfl, isOf⟩, rfl⟩ := one g mem
    obtain ⟨a, rfl⟩ := read p isOf
    exact ⟨a, content_cons (solid a) []⟩
  obtain ⟨as, same, length⟩ := content_flatten each
  refine ⟨a, as, rest, ?_, shape, ?_⟩
  · rw [singleton_append, content_cons (solid a), content_append, same]
    rfl
  · rintro rfl
    obtain rfl := length_eq_zero_iff.mp length.symm
    rfl

theorem content_docs {parts : List Phrase} (shape : Shape Pattern.docs parts) :
    content parts = [] := by
  obtain ⟨groups, rfl, one⟩ := shape
  induction groups with
  | nil => rfl
  | cons g groups ih =>
    obtain ⟨⟨t, rfl, -⟩, others⟩ := forall_mem_cons.mp one
    rw [flatten_cons, content_append, ih others]
    rfl

theorem content_index {parts : List Phrase} (shape : Shape Pattern.index parts) :
    ∃ index : Option IntLit, content parts = index.toList.map .int := by
  obtain rfl | ⟨_, _, rfl, ⟨_, rfl, i, rfl⟩, _, _, rfl, ⟨t, rfl, -⟩, rfl⟩ := shape
  · exact ⟨none, rfl⟩
  · exact ⟨some i, rfl⟩

theorem content_directives {parts : List Phrase} (shape : Shape Pattern.directives parts) :
    ∃ ds : List Directive, content parts = ds.map .directive := by
  obtain rfl | ⟨_, _, rfl, ⟨t, rfl, -⟩, shape⟩ := shape
  · exact ⟨[], rfl⟩
  · obtain ⟨d, ds, _, same, ⟨_, _, rfl, ⟨t', rfl, -⟩, rfl⟩, -⟩ :=
      content_separated shape (fun p isOf => isOf) (fun _ => rfl)
    exact ⟨d :: ds, by simpa using same⟩

/-! ## Parts of a production -/

variable {span : Span} {parts : List Phrase} {phrase : Phrase}

/-- An integer is composed only if it has a value. -/
theorem compose_int {t : Token} (ok : compose .int span [.token t] = .ok phrase) :
    ∃ n, intValue? t.text = some n ∧ phrase = .int ⟨span, t.text, n⟩ := by
  rw [compose] at ok
  split at ok
  next value => exact ⟨_, value, (Except.ok.inj ok).symm⟩
  next => cases ok

theorem compose_string {t : Token} (ok : compose .string span [.token t] = .ok phrase) :
    ∃ s, phrase = .text ⟨span, s⟩ := by
  rw [compose] at ok
  split at ok
  next => exact ⟨_, (Except.ok.inj ok).symm⟩
  next => cases ok

/-- The phrase that a production composes, from parts that have its shape. -/
inductive Composes (span : Span) (parts : List Phrase) : Rule → Phrase → Prop where
  | schema {is : List Item} : content parts = is.map .item → Composes span parts .schema (.items is)
  | decl {doc : Option String} {i : Item} : content parts = [.item i] →
    Composes span parts .decl (.item (documentItem doc i))
  | package {i : Ident} {is : List Ident} : content parts = (i :: is).map .ident →
    Composes span parts .package (.item (.package ⟨span, i :: is⟩))
  | inclusion {path : TextLit} : content parts = [.text path] →
    Composes span parts .inclusion (.item (.inclusion ⟨span, path⟩))
  | message {name : Ident} {ms : List Member} : content parts = .ident name :: ms.map .member →
    Composes span parts .message (.item (.message ⟨span, none, name, ms⟩))
  | enum {name : Ident} {vs : List Variant} : content parts = .ident name :: vs.map .variant →
    Composes span parts .enum (.item (.enum ⟨span, none, name, vs⟩))
  | member {doc : Option String} {p : Phrase} {m : Member} : content parts = [p] →
    p.asMember? = some m → Composes span parts .member (.member (documentMember doc m))
  | field {r : Rule} {index : Option IntLit} {type : TypeExpr} {name : Ident}
    {ds : List Directive} : r = .field ∨ r = .typedVariant →
    content parts = index.toList.map .int ++ .typeExpr type :: .ident name :: ds.map .directive →
    Composes span parts r (.field ⟨span, none, index, type, name, ds⟩)
  | unitVariant {doc : Option String} {index : Option IntLit} {name : Ident} :
    content parts = index.toList.map .int ++ [.ident name] →
    Composes span parts .variant (.variant ⟨span, doc, index, .unit name⟩)
  | typedVariant {doc : Option String} {index : Option IntLit} {f : Field} :
    content parts = index.toList.map .int ++ [.field f] →
    Composes span parts .variant (.variant ⟨span, doc, index, .typed { f with doc }⟩)
  | array {element : TypeExpr} : content parts = [.typeExpr element] →
    Composes span parts .typeExpr (.typeExpr (.array span element))
  | map {key value : TypeExpr} : content parts = [.mapType key value] →
    Composes span parts .typeExpr (.typeExpr (.map span key value))
  | named {absolute : Bool} {path : List Ident} {name : Ident} :
    content parts = [.typeName absolute (path ++ [name])] →
    Composes span parts .typeExpr (.typeExpr (.named span absolute path name))
  | scalar {name : Ident} {s : Scalar} : parts = [.typeName false [name]] → s.name = name.value →
    Composes span parts .typeExpr (.typeExpr (.scalar span s))
  | mapType {key value : TypeExpr} : content parts = [.typeExpr key, .typeExpr value] →
    Composes span parts .mapType (.mapType key value)
  | typeName {absolute : Bool} {i : Ident} {is : List Ident} :
    content parts = (i :: is).map .ident → (absolute = false → is = [] → parts = [.ident i]) →
    Composes span parts .typeName (.typeName absolute (i :: is))
  | directive {name : Ident} {args : Option (List Directive.Arg)} :
    content parts = .ident name :: (args.getD []).map .arg →
    Composes span parts .directive (.directive ⟨span, name, args⟩)
  | intArg {literal : IntLit} : content parts = [.int literal] →
    Composes span parts .directiveArg (.arg (.int literal))
  | callArg {d : Directive} : content parts = [.directive d] →
    Composes span parts .directiveArg (.arg (.call d))
  | ident {t : Token} : parts = [.token t] → t.kind = .ident →
    Composes span parts .ident (.ident ⟨span, t.text⟩)
  | int {t : Token} {value : UInt64} : parts = [.token t] → t.kind = .int →
    Composes span parts .int (.int ⟨span, t.text, value⟩)
  | string {t : Token} {value : Octets} : parts = [.token t] → t.kind = .string →
    Composes span parts .string (.text ⟨span, value⟩)

/-- What is read off the last phrases, if nothing is read off those before them. -/
theorem filterMap_of_last {α : Type} {f : Phrase → Option α} {as : List α} (k : α → Phrase)
    (same : content parts = ps) (none : ∀ t, f (.token t) = none)
    (last : ps.filterMap f = (as.map k).filterMap f) (read : ∀ a, f (k a) = some a) :
    parts.filterMap f = as := by
  rw [filterMap_of_content same none, last, filterMap_map, show f ∘ k = some from funext read,
    filterMap_some]

theorem findSome?_map_none {α β : Type} {f : Phrase → Option β} {k : α → Phrase}
    (none : ∀ a, f (k a) = none) (as : List α) : (as.map k).findSome? f = .none := by
  rw [findSome?_eq_none_iff, forall_mem_map]
  exact fun a _ => none a

theorem composes_schema (shape : Shape Rule.schema.body parts)
    (ok : compose .schema span parts = .ok phrase) : Composes span parts .schema phrase := by
  obtain ⟨is, same⟩ := content_many shape (fun p isOf => isOf) (fun _ => rfl)
  have items : parts.filterMap item? = is :=
    filterMap_of_last .item same (fun _ => rfl) rfl fun _ => rfl
  rw [compose, items] at ok
  cases ok
  exact .schema same

theorem composes_decl (shape : Shape Rule.decl.body parts)
    (ok : compose .decl span parts = .ok phrase) : Composes span parts .decl phrase := by
  obtain ⟨i, same⟩ : ∃ i, content parts = [.item i] := by
    obtain ⟨_, _, rfl, docs, _, _, rfl, item, rfl⟩ := shape
    rw [content_append, content_docs docs]
    obtain ⟨_, rfl, x, rfl⟩ | ⟨_, rfl, x, rfl⟩ | ⟨_, rfl, x, rfl⟩ | ⟨_, rfl, x, rfl⟩ | absurd :=
      item
    · exact ⟨_, rfl⟩
    · exact ⟨_, rfl⟩
    · exact ⟨_, rfl⟩
    · exact ⟨_, rfl⟩
    · cases absurd
  have item : parts.findSome? item? = some i :=
    findSome?_of_content same fun _ => rfl
  rw [compose, item] at ok
  cases ok
  exact .decl same

theorem composes_package (shape : Shape Rule.package.body parts)
    (ok : compose .package span parts = .ok phrase) : Composes span parts .package phrase := by
  obtain ⟨i, is, same⟩ : ∃ i is, content parts = (i :: is).map .ident := by
    obtain ⟨_, _, rfl, ⟨t, rfl, -⟩, shape⟩ := shape
    obtain ⟨i, is, _, same, ⟨_, _, rfl, ⟨t', rfl, -⟩, rfl⟩, -⟩ :=
      content_separated shape (fun p isOf => isOf) (fun _ => rfl)
    exact ⟨i, is, by simpa using same⟩
  have segments : parts.filterMap ident? = i :: is :=
    filterMap_of_last .ident same (fun _ => rfl) rfl fun _ => rfl
  rw [compose, segments] at ok
  cases ok
  exact .package same

/-- A name and what stands in braces after it. -/
theorem content_block {α : Type} {f : α → Phrase} {keyword : String}
    (shape : Shape (.seq [.literal keyword, .rule .ident, .literal "\x7b", .many (.rule r),
      .literal "\x7d"]) parts) (read : ∀ p, IsOf r p → ∃ a, p = f a)
    (solid : ∀ a, (f a).isContent = true) :
    ∃ (name : Ident) (as : List α), content parts = .ident name :: as.map f := by
  obtain ⟨_, _, rfl, ⟨t, rfl, -⟩,
    _, _, rfl, ⟨_, rfl, name, rfl⟩,
    _, _, rfl, ⟨t', rfl, -⟩,
    _, _, rfl, inner,
    _, _, rfl, ⟨t'', rfl, -⟩, rfl⟩ := shape
  obtain ⟨as, same⟩ := content_many inner read solid
  refine ⟨name, as, ?_⟩
  simp [same]

theorem composes_message (shape : Shape Rule.message.body parts)
    (ok : compose .message span parts = .ok phrase) : Composes span parts .message phrase := by
  obtain ⟨name, ms, same⟩ := content_block shape (fun p isOf => isOf) (fun _ => rfl)
  have first : parts.findSome? ident? = some name :=
    findSome?_of_content same fun _ => rfl
  have members : parts.filterMap member? = ms :=
    filterMap_of_last .member same (fun _ => rfl) rfl fun _ => rfl
  rw [compose, first, members] at ok
  cases ok
  exact .message same

theorem composes_enum (shape : Shape Rule.enum.body parts)
    (ok : compose .enum span parts = .ok phrase) : Composes span parts .enum phrase := by
  obtain ⟨name, vs, same⟩ := content_block shape (fun p isOf => isOf) (fun _ => rfl)
  have first : parts.findSome? ident? = some name :=
    findSome?_of_content same fun _ => rfl
  have variants : parts.filterMap variant? = vs :=
    filterMap_of_last .variant same (fun _ => rfl) rfl fun _ => rfl
  rw [compose, first, variants] at ok
  cases ok
  exact .enum same

theorem composes_member (shape : Shape Rule.member.body parts)
    (ok : compose .member span parts = .ok phrase) : Composes span parts .member phrase := by
  obtain ⟨p, m, same, isMember⟩ : ∃ p m, content parts = [p] ∧ p.asMember? = some m := by
    obtain ⟨_, _, rfl, docs, _, _, rfl, member, rfl⟩ := shape
    rw [content_append, content_docs docs]
    obtain ⟨_, rfl, x, rfl⟩ | ⟨_, rfl, x, rfl⟩ | ⟨_, rfl, x, rfl⟩ | absurd := member
    · exact ⟨_, _, rfl, rfl⟩
    · exact ⟨_, _, rfl, rfl⟩
    · exact ⟨_, _, rfl, rfl⟩
    · cases absurd
  have member : parts.findSome? asMember? = some m := by
    rw [findSome?_of_content same fun _ => rfl, findSome?_cons, isMember]
  rw [compose, member] at ok
  cases ok
  exact .member same isMember

/-- A field is composed from an index, a type, a name and directives. -/
theorem composes_field (isField : r = .field ∨ r = .typedVariant) {index : Option IntLit}
    {type : TypeExpr} {name : Ident} {ds : List Directive}
    (same : content parts = index.toList.map .int ++ .typeExpr type :: .ident name :: ds.map
      .directive) : Composes span parts r (fieldOf span parts) := by
  have readIndex : parts.findSome? int? = index := by
    rw [findSome?_of_content same fun _ => rfl]
    cases index with
    | none =>
      apply findSome?_map_none
      exact fun _ => rfl
    | some i => rfl
  have readType : parts.findSome? typeExpr? = some type := by
    rw [findSome?_of_content same fun _ => rfl]
    cases index <;> rfl
  have readName : parts.findSome? ident? = some name := by
    rw [findSome?_of_content same fun _ => rfl]
    cases index <;> rfl
  have readDirectives : parts.filterMap directive? = ds :=
    filterMap_of_last .directive same (fun _ => rfl) (by cases index <;> rfl) fun _ => rfl
  rw [fieldOf, readType, readName, readIndex, readDirectives]
  exact .field isField same

theorem composes_fieldBody (shape : Shape Rule.field.body parts) :
    Composes span parts .field (fieldOf span parts) := by
  obtain ⟨index, type, name, ds, same⟩ : ∃ (index : Option IntLit) (type : TypeExpr) (name : Ident)
      (ds : List Directive), content parts =
        index.toList.map .int ++ .typeExpr type :: .ident name :: ds.map .directive := by
    obtain ⟨_, _, rfl, index,
      _, _, rfl, ⟨_, rfl, type, rfl⟩,
      _, _, rfl, ⟨_, rfl, name, rfl⟩,
      _, _, rfl, directives,
      _, _, rfl, ⟨t, rfl, -⟩, rfl⟩ := shape
    obtain ⟨index, sameIndex⟩ := content_index index
    obtain ⟨ds, sameDirectives⟩ := content_directives directives
    exact ⟨index, type, name, ds, by simp [sameIndex, sameDirectives]⟩
  exact composes_field (.inl rfl) same

theorem composes_typedVariantBody (shape : Shape Rule.typedVariant.body parts) :
    Composes span parts .typedVariant (fieldOf span parts) := by
  obtain ⟨type, name, ds, same⟩ : ∃ (type : TypeExpr) (name : Ident) (ds : List Directive),
      content parts = (none : Option IntLit).toList.map .int ++
        .typeExpr type :: .ident name :: ds.map .directive := by
    obtain ⟨_, _, rfl, ⟨_, rfl, type, rfl⟩,
      _, _, rfl, ⟨_, rfl, name, rfl⟩,
      _, _, rfl, directives, rfl⟩ := shape
    obtain ⟨ds, sameDirectives⟩ := content_directives directives
    exact ⟨type, name, ds, by simp [sameDirectives]⟩
  exact composes_field (.inr rfl) same

theorem composes_variant (shape : Shape Rule.variant.body parts) :
    Composes span parts .variant (variantOf span parts) := by
  obtain ⟨index, p, same, isOf⟩ : ∃ (index : Option IntLit) (p : Phrase),
      content parts = index.toList.map .int ++ [p] ∧ (IsOf .typedVariant p ∨ IsOf .ident p) := by
    obtain ⟨_, _, rfl, docs,
      _, _, rfl, index,
      _, _, rfl, ⟨p, rfl, isOf⟩ | ⟨p, rfl, isOf⟩ | absurd,
      _, _, rfl, ⟨t, rfl, -⟩, rfl⟩ := shape
    · obtain ⟨index, sameIndex⟩ := content_index index
      obtain ⟨f, rfl⟩ := isOf
      refine ⟨index, .field f, ?_, .inl ⟨f, rfl⟩⟩
      simp [content_docs docs, sameIndex]
      rfl
    · obtain ⟨index, sameIndex⟩ := content_index index
      obtain ⟨i, rfl⟩ := isOf
      refine ⟨index, .ident i, ?_, .inr ⟨i, rfl⟩⟩
      simp [content_docs docs, sameIndex]
    · cases absurd
  have readIndex : parts.findSome? int? = index := by
    rw [findSome?_of_content same fun _ => rfl]
    rcases isOf with ⟨f, rfl⟩ | ⟨i, rfl⟩ <;> cases index <;> rfl
  rcases isOf with ⟨f, rfl⟩ | ⟨i, rfl⟩
  · have readField : parts.findSome? field? = some f := by
      rw [findSome?_of_content same fun _ => rfl]
      cases index <;> rfl
    rw [variantOf, readField, readIndex]
    exact .typedVariant same
  · have readField : parts.findSome? field? = none := by
      rw [findSome?_of_content same fun _ => rfl]
      cases index <;> rfl
    have readName : parts.findSome? ident? = some i := by
      rw [findSome?_of_content same fun _ => rfl]
      cases index <;> rfl
    rw [variantOf, readField, readName, readIndex]
    exact .unitVariant same

theorem name_of_ofName? {name : String} {s : Scalar} (found : Scalar.ofName? name = some s) :
    s.name = name := by
  have named := find?_some found
  exact beq_iff_eq.mp named

/-- A name alone is that of a built-in type, if there is one. -/
theorem composes_typeOfName {absolute : Bool} {i : Ident} {is : List Ident}
    (same : parts = [.typeName absolute (i :: is)]) :
    Composes span parts .typeExpr (typeOfName span absolute (i :: is)) := by
  have split : (i :: is).dropLast ++ [(i :: is).getLast (cons_ne_nil i is)] = i :: is :=
    dropLast_concat_getLast _
  have reference : Composes span parts .typeExpr (.typeExpr (.named span absolute
      (i :: is).dropLast ((i :: is).getLast (cons_ne_nil i is)))) := by
    apply Composes.named
    rw [split, same]
    rfl
  unfold typeOfName
  rw [getLast?_eq_some_getLast (cons_ne_nil i is)]
  dsimp only
  split
  next s found =>
    split at found
    next => cases found
    next sole =>
      simp only [Bool.or_eq_true, bne_iff_ne, not_or, not_not, Bool.not_eq_true,
        length_cons, Nat.add_eq_right, length_eq_zero_iff] at sole
      obtain ⟨rfl, rfl⟩ := sole
      exact .scalar same (name_of_ofName? found)
  next => exact reference

theorem composes_typeExpr (shape : Shape Rule.typeExpr.body parts)
    (ok : compose .typeExpr span parts = .ok phrase) : Composes span parts .typeExpr phrase := by
  cases ok
  obtain ⟨_, _, rfl, ⟨t, rfl, -⟩, _, _, rfl, ⟨t', rfl, -⟩, _, _, rfl, ⟨_, rfl, element, rfl⟩, rfl⟩ |
    ⟨_, _, rfl, ⟨t, rfl, -⟩, _, _, rfl, ⟨_, rfl, key, value, rfl⟩, rfl⟩ |
    ⟨_, rfl, absolute, i, is, rfl⟩ | absurd := shape
  · exact .array rfl
  · exact .map rfl
  · exact composes_typeOfName rfl
  · cases absurd

theorem composes_typeName (shape : Shape Rule.typeName.body parts) :
    Composes span parts .typeName
      (.typeName ((parts.head?.map (isToken ".")).getD false) (parts.filterMap ident?)) := by
  obtain ⟨i, is, same, sole⟩ : ∃ i is, content parts = (i :: is).map .ident ∧
      ((parts.head?.map (isToken ".")).getD false = false → is = [] → parts = [.ident i]) := by
    obtain ⟨_, rest, rfl, rfl | ⟨t, rfl, dot⟩, shape⟩ := shape
    · obtain ⟨i, is, _, same, rfl, sole⟩ :=
        content_separated shape (fun p isOf => isOf) (fun _ => rfl)
      exact ⟨i, is, by simpa using same, fun _ => sole⟩
    · obtain ⟨i, is, _, same, rfl, -⟩ :=
        content_separated shape (fun p isOf => isOf) (fun _ => rfl)
      refine ⟨i, is, by simpa using same, fun relative => ?_⟩
      simp [isToken, dot] at relative
  have names : parts.filterMap ident? = i :: is :=
    filterMap_of_last .ident same (fun _ => rfl) rfl fun _ => rfl
  rw [names]
  exact .typeName same sole

theorem content_args {args : List Phrase}
    (shape : Shape (.optional (.seq (Pattern.separated "," (.rule .directiveArg)))) args) :
    ∃ as : List Directive.Arg, content args = as.map .arg := by
  obtain rfl | shape := shape
  · exact ⟨[], rfl⟩
  · obtain ⟨a, as, _, same, rfl, -⟩ :=
      content_separated shape (fun p isOf => isOf) (fun _ => rfl)
    exact ⟨a :: as, by simpa using same⟩

theorem composes_directive (shape : Shape Rule.directive.body parts) :
    Composes span parts .directive (directiveOf span parts) := by
  obtain ⟨name, as, same, none⟩ : ∃ (name : Ident) (as : List Directive.Arg),
      content parts = .ident name :: as.map .arg ∧ (parts.any (isToken "(") = false → as = []) := by
    obtain ⟨_, rest, rfl, ⟨_, rfl, name, rfl⟩, _, _, rfl, args, rfl⟩ := shape
    obtain rfl | ⟨_, _, rfl, ⟨t, rfl, paren⟩, _, _, rfl, args, _, _, rfl, ⟨t', rfl, -⟩, rfl⟩ := args
    · exact ⟨name, [], rfl, fun _ => rfl⟩
    · obtain ⟨as, sameArgs⟩ := content_args args
      exact ⟨name, as, by simp [sameArgs], by simp [isToken, paren]⟩
  have first : parts.findSome? ident? = some name :=
    findSome?_of_content same fun _ => rfl
  have args : parts.filterMap arg? = as :=
    filterMap_of_last .arg same (fun _ => rfl) rfl fun _ => rfl
  rw [directiveOf, first, args]
  apply Composes.directive
  split
  next => exact same
  next bare =>
    rw [Bool.not_eq_true] at bare
    rw [same, none bare]
    rfl

/-- Parts that have the shape of a production are all in the phrase that it composes. -/
theorem composes_of_compose (shape : Shape r.body parts) (ok : compose r span parts = .ok phrase) :
    Composes span parts r phrase := by
  cases r with
  | schema => exact composes_schema shape ok
  | decl => exact composes_decl shape ok
  | package => exact composes_package shape ok
  | inclusion =>
    obtain ⟨_, _, rfl, ⟨t, rfl, -⟩,
      _, _, rfl, ⟨_, rfl, path, rfl⟩,
      _, _, rfl, ⟨t', rfl, -⟩, rfl⟩ := shape
    cases ok
    exact .inclusion rfl
  | message => exact composes_message shape ok
  | member => exact composes_member shape ok
  | enum => exact composes_enum shape ok
  | field =>
    cases ok
    exact composes_fieldBody shape
  | variant =>
    cases ok
    exact composes_variant shape
  | typedVariant =>
    cases ok
    exact composes_typedVariantBody shape
  | typeExpr => exact composes_typeExpr shape ok
  | mapType =>
    obtain ⟨_, _, rfl, ⟨_, rfl, key, rfl⟩,
      _, _, rfl, ⟨t, rfl, -⟩,
      _, _, rfl, ⟨_, rfl, value, rfl⟩, rfl⟩ := shape
    cases ok
    exact .mapType rfl
  | typeName =>
    cases ok
    exact composes_typeName shape
  | directive =>
    cases ok
    exact composes_directive shape
  | directiveArg =>
    obtain ⟨_, rfl, literal, rfl⟩ | ⟨_, rfl, d, rfl⟩ | absurd := shape
    · cases ok
      exact .intArg rfl
    · cases ok
      exact .callArg rfl
    · cases absurd
  | ident =>
    obtain ⟨t, rfl, kind⟩ := shape
    cases ok
    exact .ident rfl kind
  | int =>
    obtain ⟨t, rfl, kind⟩ := shape
    obtain ⟨_, -, rfl⟩ := compose_int ok
    exact .int rfl kind
  | string =>
    obtain ⟨t, rfl, kind⟩ := shape
    obtain ⟨_, rfl⟩ := compose_string ok
    exact .string rfl kind

theorem Composes.isOf (composes : Composes span parts r phrase) : phrase.IsOf r := by
  cases composes with
  | field isField => obtain rfl | rfl := isField <;> exact ⟨_, rfl⟩
  | mapType => exact ⟨_, _, rfl⟩
  | typeName => exact ⟨_, _, _, rfl⟩
  | _ => exact ⟨_, rfl⟩

/-! ## Phrases of derivations -/

/-- The phrase is that of the derivation. -/
def Means (d : Derivation) (p : Phrase) : Prop := ofDerivation d = .ok p

theorem means_ofDerivations {ds : List Derivation} {done : List Phrase}
    (ok : ofDerivations done ds = .ok phrases) :
    ∃ own, phrases = done.reverse ++ own ∧ List.Forall₂ Means ds own := by
  induction ds generalizing done with
  | nil =>
    rw [ofDerivations] at ok
    cases ok
    exact ⟨[], (append_nil _).symm, .nil⟩
  | cons d ds ih =>
    rw [ofDerivations] at ok
    split at ok
    next p read =>
      obtain ⟨own, rfl, others⟩ := ih ok
      exact ⟨p :: own, by simp, .cons read others⟩
    next => cases ok

/-- The phrase of a production is composed from those of its children. -/
theorem Means.node {children : List Derivation} {phrase : Phrase}
    (means : Means (.node r children) phrase) :
    ∃ parts, List.Forall₂ Means children parts ∧
      compose r (Derivation.node r children).span parts = .ok phrase := by
  unfold Means at means
  rw [ofDerivation] at means
  obtain ⟨parts, read, composed⟩ := bind_ok_iff.mp means
  obtain ⟨own, rfl, each⟩ := means_ofDerivations read
  exact ⟨_, each, composed⟩

theorem forall₂_append_left {α β : Type} {R : α → β → Prop} {as bs : List α} {cs : List β}
    (each : List.Forall₂ R (as ++ bs) cs) :
    ∃ first rest, cs = first ++ rest ∧ List.Forall₂ R as first ∧ List.Forall₂ R bs rest := by
  induction as generalizing cs with
  | nil => exact ⟨[], cs, rfl, .nil, each⟩
  | cons a as ih =>
    cases each with
    | cons here others =>
      obtain ⟨first, rest, rfl, left, right⟩ := ih others
      exact ⟨_ :: first, rest, rfl, .cons here left, right⟩

/-- The phrases of derivations have the shape of the pattern that these follow. -/
theorem shape_of_derives {ts : List Token} {trees : List Derivation} (derives : Derives ts p trees)
    (means : List.Forall₂ Means trees phrases) : Shape p phrases := by
  induction derives generalizing phrases with
  | literal _ same | token _ same =>
    obtain _ | ⟨⟨⟩, ⟨⟩⟩ := means
    exact ⟨_, rfl, same⟩
  | rule _ ih =>
    obtain _ | ⟨node, ⟨⟩⟩ := means
    obtain ⟨parts, each, composed⟩ := Means.node node
    exact ⟨_, rfl, (composes_of_compose (ih each) composed).isOf⟩
  | seqNil =>
    cases means
    rfl
  | seqCons _ _ ih ihRest =>
    obtain ⟨first, rest, rfl, left, right⟩ := forall₂_append_left means
    exact ⟨first, rest, rfl, ih left, ihRest right⟩
  | choice mem _ ih => exact shapeChoice_of_mem mem (ih means)
  | absent =>
    cases means
    exact .inl rfl
  | present _ ih => exact .inr (ih means)
  | manyNil =>
    cases means
    exact ⟨[], rfl, forall_mem_nil _⟩
  | manyCons _ _ ih ihRest =>
    obtain ⟨first, rest, rfl, left, right⟩ := forall₂_append_left means
    obtain ⟨groups, rfl, others⟩ := ihRest right
    exact ⟨first :: groups, rfl, forall_mem_cons.mpr ⟨ih left, others⟩⟩

end BitSchema.Source.Phrase
