import BitSchema.Proofs.PhraseShapes

/-!
# Spellings

Identifiers, built-in types and integers are written down as they are: a spelling is such a node of
a source, with its span and its text.  The spellings of a schema are those of the nodes that a walk
over its outline visits, in the same order (`marks_schema`).
-/

namespace BitSchema.Source

open List

/-- A node that stands for a text, and that text. -/
structure Spelling where
  kind : NodeKind
  span : Span
  text : String

def Spelling.mark (s : Spelling) : NodeKind × Span := (s.kind, s.span)

def Ident.spelling (i : Ident) : Spelling := ⟨.ident, i.span, i.value⟩

def IntLit.spelling (i : IntLit) : Spelling := ⟨.int, i.span, i.text⟩

/-! ## The spellings of a schema -/

def TypeExpr.spellings : TypeExpr → List Spelling
  | scalar span s => [⟨.scalar, span, s.name⟩]
  | named _ _ path name => (path ++ [name]).map Ident.spelling
  | array _ element => element.spellings
  | map _ key value => key.spellings ++ value.spellings

namespace Directive

mutual
def spellings : Directive → List Spelling
  | ⟨_, name, none⟩ => [name.spelling]
  | ⟨_, name, some args⟩ => name.spelling :: spellingsOf args
def spellingsOf : List Arg → List Spelling
  | [] => []
  | arg :: args => arg.spellings ++ spellingsOf args
def Arg.spellings : Arg → List Spelling
  | .int literal => [literal.spelling]
  | .call directive => directive.spellings
end

end Directive

def Field.spellings (f : Field) : List Spelling :=
  (f.index.map IntLit.spelling).toList ++ f.type.spellings ++ [f.name.spelling] ++
    f.directives.flatMap Directive.spellings

def Variant.spellings (v : Variant) : List Spelling :=
  (v.index.map IntLit.spelling).toList ++
    match v.content with
    | .unit name => [name.spelling]
    | .typed field => field.spellings

def Enum.spellings (e : Enum) : List Spelling :=
  e.name.spelling :: e.variants.flatMap Variant.spellings

mutual
def Message.spellings : Message → List Spelling
  | ⟨_, _, name, members⟩ => name.spelling :: spellingsIn members
def spellingsIn : List Member → List Spelling
  | [] => []
  | m :: ms => m.spellings ++ spellingsIn ms
def Member.spellings : Member → List Spelling
  | .field f => f.spellings
  | .message m => m.spellings
  | .enum e => e.spellings
end

def Item.spellings : Item → List Spelling
  | package p => p.segments.map Ident.spelling
  | inclusion _ => []
  | message m => m.spellings
  | enum e => e.spellings

def Schema.spellings (s : Schema) : List Spelling := s.items.flatMap Item.spellings

/-! ## Spellings and outlines -/

/-- The nodes of a kind stand for their own text. -/
def NodeKind.isSpelled : NodeKind → Bool
  | ident | scalar | int => true
  | _ => false

/-- The nodes of outlines that stand for their own text, in the order of a walk. -/
def Outline.marks (os : List Outline) : List (NodeKind × Span) :=
  ((Outline.walkAll (fun _ => false) os).filter (·.kind.isSpelled)).map fun o => (o.kind, o.span)

section

open Outline (marks)

theorem marks_node (kind : NodeKind) (span : Span) (children : List Outline) :
    marks [.node kind span children] =
      (if kind.isSpelled then [(kind, span)] else []) ++ marks children := by
  cases spelled : kind.isSpelled <;>
    simp [marks, Outline.walkAll, Outline.walk, Outline.kind, Outline.span, spelled]

theorem marks_append (os others : List Outline) :
    marks (os ++ others) = marks os ++ marks others := by
  induction os with
  | nil => rfl
  | cons o os ih =>
    simp only [marks, Outline.walkAll, cons_append, filter_append, map_append, append_assoc] at ih ⊢
    rw [ih]

theorem marks_cons (o : Outline) (os : List Outline) : marks (o :: os) = marks [o] ++ marks os :=
  marks_append [o] os

/-- Outlines that are marked as their spellings, in a row. -/
theorem marks_map {α : Type} {f : α → Outline} {g : α → List Spelling} {as : List α}
    (each : ∀ a ∈ as, marks [f a] = (g a).map Spelling.mark) :
    marks (as.map f) = (as.flatMap g).map Spelling.mark := by
  induction as with
  | nil => rfl
  | cons a as ih =>
    obtain ⟨here, others⟩ := forall_mem_cons.mp each
    rw [map_cons, marks_cons, here, ih others, flatMap_cons, map_append]

theorem marks_ident (i : Ident) : marks [i.outline] = [i.spelling].map Spelling.mark := rfl

theorem marks_idents (is : List Ident) :
    marks (is.map Ident.outline) = (is.map Ident.spelling).map Spelling.mark := by
  rw [marks_map fun i _ => marks_ident i, ← map_eq_flatMap]

theorem marks_typeExpr (t : TypeExpr) : marks [t.outline] = t.spellings.map Spelling.mark := by
  induction t with
  | scalar span s => rfl
  | named span absolute path name =>
    rw [TypeExpr.outline, marks_node, marks_idents]
    rfl
  | array span element ih =>
    rw [TypeExpr.outline, marks_node, ih]
    rfl
  | map span key value ih ih' =>
    rw [TypeExpr.outline, marks_node, marks_cons, ih, ih', TypeExpr.spellings, map_append]
    rfl

theorem marks_index (index : Option IntLit) :
    marks (index.map IntLit.outline).toList =
      (index.map IntLit.spelling).toList.map Spelling.mark := by
  cases index <;> rfl

mutual
theorem marks_directive (d : Directive) : marks [d.outline] = d.spellings.map Spelling.mark := by
  obtain ⟨span, name, _ | args⟩ := d
  · rfl
  · rw [Directive.outline, marks_node, marks_cons, marks_ident, marks_args args]
    rfl
theorem marks_args (args : List Directive.Arg) :
    marks (Directive.outlineArgs args) = (Directive.spellingsOf args).map Spelling.mark := by
  cases args with
  | nil => rfl
  | cons arg args =>
    rw [Directive.outlineArgs, marks_cons, marks_arg arg, marks_args args,
      Directive.spellingsOf, map_append]
theorem marks_arg (arg : Directive.Arg) :
    marks [Directive.outlineArg arg] = arg.spellings.map Spelling.mark := by
  cases arg with
  | int literal => rfl
  | call directive =>
    rw [Directive.outlineArg, marks_node, marks_directive directive]
    rfl
end

theorem marks_field (f : Field) : marks [f.outline] = f.spellings.map Spelling.mark := by
  rw [Field.outline, marks_node, marks_append, marks_append, marks_index, marks_cons,
    marks_typeExpr, marks_ident, marks_map fun d _ => marks_directive d, Field.spellings]
  simp [NodeKind.isSpelled]

theorem marks_variant (v : Variant) : marks [v.outline] = v.spellings.map Spelling.mark := by
  obtain ⟨span, doc, index, name | field⟩ := v
  · rw [Variant.outline, marks_node, marks_append, marks_index, marks_ident, Variant.spellings,
      map_append]
    rfl
  · rw [Variant.outline, marks_node, marks_append, marks_index, marks_field, Variant.spellings,
      map_append]
    rfl

theorem marks_enum (e : Enum) : marks [e.outline] = e.spellings.map Spelling.mark := by
  rw [Enum.outline, marks_node, marks_cons, marks_ident, marks_map fun v _ => marks_variant v]
  rfl

theorem marks_message (m : Message) : marks [m.outline] = m.spellings.map Spelling.mark := by
  induction m using Message.induct with
  | step span doc name members ih =>
    rw [Message.outline, marks_node, marks_cons, marks_ident, Message.spellings]
    change name.spelling.mark :: marks (outlineMembers members) = _
    refine congrArg (_ :: ·) ?_
    induction members with
    | nil => rfl
    | cons member members rest =>
      rw [outlineMembers, marks_cons, spellingsIn, map_append,
        rest fun m mem => ih m (mem_cons_of_mem _ mem)]
      cases member with
      | field f => rw [outlineMember, marks_field, Member.spellings]
      | message m => rw [outlineMember, ih m mem_cons_self, Member.spellings]
      | enum e => rw [outlineMember, marks_enum, Member.spellings]

theorem marks_item (i : Item) : marks [i.outline] = i.spellings.map Spelling.mark := by
  cases i with
  | package p =>
    rw [Item.outline, Package.outline, marks_node, marks_idents]
    rfl
  | inclusion i => rfl
  | message m => exact marks_message m
  | enum e => exact marks_enum e

/-- The spellings of a schema are those of its nodes, in the order of a walk. -/
theorem marks_schema (s : Schema) : marks [s.outline] = s.spellings.map Spelling.mark := by
  rw [Schema.outline, marks_node, marks_map fun i _ => marks_item i]
  rfl

end

/-! ## Phrases -/

namespace Phrase

/-- The spellings of what a phrase holds. -/
def spellings : Phrase → List Spelling
  | .token _ => []
  | .ident i => [i.spelling]
  | .int i => [i.spelling]
  | .text _ => []
  | .typeExpr t => t.spellings
  | .mapType key value => key.spellings ++ value.spellings
  | .typeName _ is => is.map Ident.spelling
  | .directive d => d.spellings
  | .arg a => a.spellings
  | .field f => f.spellings
  | .variant v => v.spellings
  | .member m => m.spellings
  | .item i => i.spellings
  | .items is => is.flatMap Item.spellings
  | .nothing => []

variable {span : Span} {parts : List Phrase} {phrase : Phrase}

/-- The identifier that a phrase is, and nothing else. -/
def sole? : Phrase → Option Ident
  | .ident i => some i
  | .typeName false [i] => some i
  | _ => none

/-- Where a spelling of a composed phrase comes from. -/
inductive Drawn (span : Span) (parts : List Phrase) : Spelling → Prop where
  | part {s : Spelling} : s ∈ parts.flatMap spellings → Drawn span parts s
  | token {kind : NodeKind} {t : Token} : parts = [.token t] → t.kind ≠ .doc →
    (kind = .ident → t.kind = .ident) → Drawn span parts ⟨kind, span, t.text⟩
  | sole {kind : NodeKind} {p : Phrase} {i : Ident} : parts = [p] → p.sole? = some i →
    i.spelling ∈ p.spellings → Drawn span parts ⟨kind, span, i.value⟩

theorem spellingsIn_eq (ms : List Member) : spellingsIn ms = ms.flatMap Member.spellings := by
  induction ms with
  | nil => rfl
  | cons m ms ih => rw [spellingsIn, ih, flatMap_cons]

theorem spellingsOf_eq (args : List Directive.Arg) :
    Directive.spellingsOf args = args.flatMap Directive.Arg.spellings := by
  induction args with
  | nil => rfl
  | cons arg args ih => rw [Directive.spellingsOf, ih, flatMap_cons]

theorem spellings_directive (span : Span) (name : Ident) (args : Option (List Directive.Arg)) :
    Directive.spellings ⟨span, name, args⟩ =
      name.spelling :: (args.getD []).flatMap Directive.Arg.spellings := by
  cases args with
  | none => rfl
  | some args => rw [Directive.spellings, spellingsOf_eq, Option.getD_some]

theorem spellings_documentItem (doc : Option String) (i : Item) :
    (documentItem doc i).spellings = i.spellings := by
  cases i with
  | message m => cases m; rfl
  | _ => rfl

theorem spellings_documentMember (doc : Option String) (m : Member) :
    (documentMember doc m).spellings = m.spellings := by
  cases m with
  | message m => cases m; rfl
  | _ => rfl

theorem spellings_asMember {p : Phrase} {m : Member} (same : p.asMember? = some m) :
    m.spellings = p.spellings := by
  unfold asMember? at same
  split at same <;> cases same <;> rfl

theorem spellings_idents (is : List Ident) :
    (is.map Phrase.ident).flatMap spellings = is.map Ident.spelling := by
  rw [flatMap_map, map_eq_flatMap]
  rfl

theorem drawn_of_content {ps : List Phrase} (same : content parts = ps)
    (all : phrase.spellings = ps.flatMap spellings) :
    ∀ s ∈ phrase.spellings, Drawn span parts s := by
  intro s mem
  rw [all, ← flatMap_of_content same fun _ => rfl] at mem
  exact .part mem

theorem Composes.drawn {r : Rule} (composes : Composes span parts r phrase) :
    ∀ s ∈ phrase.spellings, Drawn span parts s := by
  cases composes with
  | schema same => exact drawn_of_content same (by simp [spellings, flatMap_map])
  | decl same => exact drawn_of_content same (by simp [spellings, spellings_documentItem])
  | package same | typeName same _ => exact drawn_of_content same (spellings_idents _).symm
  | inclusion same => exact drawn_of_content same rfl
  | message same =>
    exact drawn_of_content same (by simp [spellings, Item.spellings, Message.spellings,
      spellingsIn_eq, flatMap_map])
  | enum same =>
    exact drawn_of_content same (by simp [spellings, Item.spellings, Enum.spellings, flatMap_map])
  | member same isMember =>
    exact drawn_of_content same (by simp [spellings, spellings_documentMember,
      spellings_asMember isMember])
  | @field _ index _ _ _ _ same =>
    exact drawn_of_content same (by cases index <;> simp [spellings, Field.spellings, flatMap_map])
  | @unitVariant _ index _ same =>
    exact drawn_of_content same (by cases index <;> simp [spellings, Variant.spellings])
  | @typedVariant _ index _ same =>
    exact drawn_of_content same (by cases index <;> simp [spellings, Variant.spellings,
      Field.spellings])
  | array same | map same | named same =>
    exact drawn_of_content same (by simp [spellings, TypeExpr.spellings])
  | scalar same named =>
    intro s mem
    obtain rfl := mem_singleton.mp mem
    rw [named]
    exact .sole same rfl mem_cons_self
  | mapType same => exact drawn_of_content same (by simp [spellings])
  | directive same =>
    exact drawn_of_content same (by simp [spellings, spellings_directive, flatMap_map])
  | intArg same | callArg same =>
    exact drawn_of_content same (by simp [spellings, Directive.Arg.spellings])
  | ident same kind | int same kind =>
    intro s mem
    obtain rfl := mem_singleton.mp mem
    exact .token same (by simp [kind]) (by simp [kind])
  | string => exact forall_mem_nil _

end Phrase

end BitSchema.Source
