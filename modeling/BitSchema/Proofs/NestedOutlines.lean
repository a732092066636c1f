import BitSchema.Proofs.PhraseShapes

/-!
# Nested outlines

An outline is nested if the spans of its nodes are: the children of a node stand one after the other
within its span (`Outline.NestedIn`).  A walk over a nested outline goes through the source from the
left.

The outline of a composed phrase is laid over those of its parts (`Phrase.Laid`): a node around
them, or just these.
-/

namespace BitSchema

open List

namespace Source.Outline

/-! ## Nested outlines -/

mutual
/-- The children of a node stand within its span, and so on below. -/
def Nested : Outline → Prop
  | node _ span children => NestedIn span.start span.stop children
/-- Nodes that are not empty, one after the other, between two offsets, and nested. -/
def NestedIn (lo hi : Nat) : List Outline → Prop
  | [] => lo ≤ hi
  | o :: os =>
    lo ≤ o.span.start ∧ o.span.start < o.span.stop ∧ o.Nested ∧ NestedIn o.span.stop hi os
end

variable {lo hi : Nat} {o : Outline} {os : List Outline}

theorem nestedIn_nil : NestedIn lo hi [] ↔ lo ≤ hi := by rw [NestedIn]

theorem nestedIn_cons :
    NestedIn lo hi (o :: os) ↔ lo ≤ o.span.start ∧ o.span.start < o.span.stop ∧ o.Nested ∧
      NestedIn o.span.stop hi os := by rw [NestedIn]

theorem nested_iff : o.Nested ↔ NestedIn o.span.start o.span.stop o.children := by
  cases o with
  | node kind span children => rw [Nested, Outline.span, Outline.children]

theorem NestedIn.le (nested : NestedIn lo hi os) : lo ≤ hi := by
  induction os generalizing lo with
  | nil => exact nestedIn_nil.mp nested
  | cons o os ih =>
    obtain ⟨after, inside, -, rest⟩ := nestedIn_cons.mp nested
    have := ih rest
    omega

theorem NestedIn.mono {lo' : Nat} (nested : NestedIn lo hi os) (le : lo' ≤ lo) :
    NestedIn lo' hi os := by
  cases os with
  | nil => exact nestedIn_nil.mpr (Nat.le_trans le (nestedIn_nil.mp nested))
  | cons o os =>
    obtain ⟨after, rest⟩ := nestedIn_cons.mp nested
    exact nestedIn_cons.mpr ⟨Nat.le_trans le after, rest⟩

theorem NestedIn.append {mid : Nat} {others : List Outline} (left : NestedIn lo mid os)
    (right : NestedIn mid hi others) : NestedIn lo hi (os ++ others) := by
  induction os generalizing lo with
  | nil => exact right.mono (nestedIn_nil.mp left)
  | cons o os ih =>
    obtain ⟨after, inside, nested, rest⟩ := nestedIn_cons.mp left
    exact nestedIn_cons.mpr ⟨after, inside, nested, ih rest⟩

theorem nestedIn_singleton :
    NestedIn lo hi [o] ↔
      lo ≤ o.span.start ∧ o.span.start < o.span.stop ∧ o.Nested ∧ o.span.stop ≤ hi := by
  rw [nestedIn_cons, nestedIn_nil]

/-! ## What nesting says -/

theorem NestedIn.forall (nested : NestedIn lo hi os) :
    ∀ o ∈ os, lo ≤ o.span.start ∧ o.span.start < o.span.stop ∧ o.span.stop ≤ hi ∧ o.Nested := by
  induction os generalizing lo with
  | nil => exact forall_mem_nil _
  | cons o os ih =>
    obtain ⟨after, inside, here, rest⟩ := nestedIn_cons.mp nested
    refine forall_mem_cons.mpr ⟨⟨after, inside, rest.le, here⟩, ?_⟩
    intro o' mem
    obtain ⟨after', others⟩ := ih rest o' mem
    exact ⟨by omega, others⟩

theorem NestedIn.pairwise (nested : NestedIn lo hi os) :
    os.Pairwise fun a b => a.span.stop ≤ b.span.start ∧ a.span.start < b.span.start := by
  induction os generalizing lo with
  | nil => exact .nil
  | cons o os ih =>
    obtain ⟨-, inside, -, rest⟩ := nestedIn_cons.mp nested
    refine .cons ?_ (ih rest)
    intro o' mem
    obtain ⟨after, -⟩ := rest.forall o' mem
    exact ⟨after, by omega⟩

variable {skip : NodeKind → Bool}

-- A walk below a node stays in its span, so the walk below the next node starts where it ended.
mutual
theorem Nested.walk (o : Outline) (nested : o.Nested) :
    (walk skip o).Pairwise (fun a b => a.span.start ≤ b.span.start) ∧
      ∀ a ∈ walk skip o, a.Nested ∧ o.span.start ≤ a.span.start ∧ a.span.start ≤ o.span.stop := by
  obtain ⟨kind, span, children⟩ := o
  have below : NestedIn span.start span.stop children := nested_iff.mp nested
  obtain ⟨sorted, within⟩ := NestedIn.walkAll children below
  have self : (node kind span children).Nested ∧ span.start ≤ span.start ∧ span.start ≤ span.stop :=
    ⟨nested, Nat.le_refl _, below.le⟩
  rw [Outline.walk]
  split
  · exact ⟨pairwise_singleton _ _, forall_mem_singleton.mpr self⟩
  · refine ⟨.cons ?_ sorted, forall_mem_cons.mpr ⟨self, within⟩⟩
    intro a mem
    exact (within a mem).2.1
theorem NestedIn.walkAll (os : List Outline) {lo hi : Nat} (nested : NestedIn lo hi os) :
    (walkAll skip os).Pairwise (fun a b => a.span.start ≤ b.span.start) ∧
      ∀ a ∈ walkAll skip os, a.Nested ∧ lo ≤ a.span.start ∧ a.span.start ≤ hi := by
  cases os with
  | nil =>
    rw [Outline.walkAll]
    exact ⟨.nil, forall_mem_nil _⟩
  | cons o os =>
    obtain ⟨after, inside, here, rest⟩ := nestedIn_cons.mp nested
    obtain ⟨sorted, within⟩ := Nested.walk o here
    obtain ⟨sortedRest, withinRest⟩ := NestedIn.walkAll os rest
    rw [Outline.walkAll]
    refine ⟨pairwise_append.mpr ⟨sorted, sortedRest, ?_⟩, forall_mem_append.mpr ⟨?_, ?_⟩⟩
    · intro a mem b mem'
      obtain ⟨-, -, ended⟩ := within a mem
      obtain ⟨-, started, -⟩ := withinRest b mem'
      exact Nat.le_trans ended started
    · intro a mem
      obtain ⟨isNested, started, ended⟩ := within a mem
      exact ⟨isNested, Nat.le_trans after started, Nat.le_trans ended rest.le⟩
    · intro a mem
      obtain ⟨isNested, started, ended⟩ := withinRest a mem
      exact ⟨isNested, by omega, ended⟩
end

end Source.Outline

/-! ## Outlines of phrases -/

namespace Source.Phrase

/-- The outlines of what a phrase holds. -/
def outlines : Phrase → List Outline
  | .token _ => []
  | .ident i => [i.outline]
  | .int i => [i.outline]
  | .text t => [t.outline]
  | .typeExpr t => [t.outline]
  | .mapType key value => [key.outline, value.outline]
  | .typeName _ is => is.map Ident.outline
  | .directive d => [d.outline]
  | .arg a => [Directive.outlineArg a]
  | .field f => [f.outline]
  | .variant v => [v.outline]
  | .member m => [outlineMember m]
  | .item i => [i.outline]
  | .items is => is.map Item.outline
  | .nothing => []

variable {span : Span} {parts : List Phrase} {phrase : Phrase}

/-- The outlines of a phrase that was composed from parts. -/
inductive Laid (span : Span) (parts : List Phrase) : List Outline → Prop where
  /-- Those of the parts. -/
  | through {os : List Outline} : parts.flatMap outlines = os → Laid span parts os
  /-- A node around them, or in their place. -/
  | node {kind : NodeKind} {os children : List Outline} : parts.flatMap outlines = os → os ≠ [] →
    children = os ∨ children = [] → Laid span parts [.node kind span children]
  /-- A node around one, with the same span. -/
  | around {kind : NodeKind} {o : Outline} : parts.flatMap outlines = [o] →
    Laid span parts [.node kind o.span [o]]
  /-- A node for a token. -/
  | token {kind : NodeKind} {t : Token} : parts = [.token t] → t.kind ≠ .doc →
    Laid span parts [.node kind span []]

theorem outlineMembers_eq (ms : List Member) : outlineMembers ms = ms.map outlineMember := by
  induction ms with
  | nil => rfl
  | cons m ms ih => rw [outlineMembers, ih, map_cons]

theorem outlineArgs_eq (args : List Directive.Arg) :
    Directive.outlineArgs args = args.map Directive.outlineArg := by
  induction args with
  | nil => rfl
  | cons arg args ih => rw [Directive.outlineArgs, ih, map_cons]

theorem outline_directive (span : Span) (name : Ident) (args : Option (List Directive.Arg)) :
    Directive.outline ⟨span, name, args⟩ =
      .node .directive span (name.outline :: (args.getD []).map Directive.outlineArg) := by
  cases args with
  | none => rfl
  | some args => rw [Directive.outline, outlineArgs_eq, Option.getD_some]

theorem span_outline_directive (d : Directive) : d.outline.span = d.span := by
  obtain ⟨span, name, args⟩ := d
  rw [outline_directive, Outline.span]

theorem outline_documentItem (doc : Option String) (i : Item) :
    (documentItem doc i).outline = i.outline := by
  cases i with
  | message m => cases m; rfl
  | _ => rfl

theorem outline_documentMember (doc : Option String) (m : Member) :
    outlineMember (documentMember doc m) = outlineMember m := by
  cases m with
  | message m => cases m; rfl
  | _ => rfl

variable {p : Phrase} {kind : NodeKind} {ps : List Phrase} {o : Outline} {os : List Outline}

theorem outline_asMember {m : Member} (same : p.asMember? = some m) :
    p.outlines = [outlineMember m] := by
  unfold asMember? at same
  split at same <;> cases same <;> rfl

/-- Phrases with one outline each. -/
theorem outlines_map {α : Type} {f : α → Phrase} {g : α → Outline}
    (one : ∀ a, (f a).outlines = [g a]) (as : List α) : (as.map f).flatMap outlines = as.map g := by
  rw [flatMap_map, map_eq_flatMap]
  exact flatMap_congr fun a _ => one a

theorem laid_node (same : content parts = ps) (all : ps.flatMap outlines = o :: os) :
    Laid span parts [.node kind span (o :: os)] := by
  have whole : parts.flatMap outlines = o :: os := by
    rw [flatMap_of_content same fun _ => rfl, all]
  exact .node whole (cons_ne_nil o os) (.inl rfl)

theorem laid_through (same : content parts = ps) (all : ps.flatMap outlines = os) :
    Laid span parts os := by
  apply Laid.through
  rw [flatMap_of_content same fun _ => rfl, all]

theorem laid_around {s : Span} (same : content parts = [p]) (one : p.outlines = [o])
    (sameSpan : o.span = s) : Laid span parts [.node kind s [o]] := by
  subst sameSpan
  apply Laid.around
  rw [flatMap_of_content same fun _ => rfl, flatMap_singleton, one]

theorem Composes.laid {r : Rule} (composes : Composes span parts r phrase) :
    Laid span parts phrase.outlines := by
  cases composes with
  | schema same | typeName same _ => exact laid_through same (outlines_map (fun _ => rfl) _)
  | decl same => exact laid_through same (by simp [outlines, outline_documentItem])
  | package same => exact laid_node same (outlines_map (fun _ => rfl) _)
  | inclusion same | array same | map same => exact laid_node same rfl
  | @message name ms same =>
    have members : (ms.map Phrase.member).flatMap outlines = ms.map outlineMember :=
      outlines_map (fun _ => rfl) ms
    rw [outlines, Item.outline, Message.outline, outlineMembers_eq]
    exact laid_node same (by simp [outlines, members])
  | @enum name vs same =>
    have variants : (vs.map Phrase.variant).flatMap outlines = vs.map Variant.outline :=
      outlines_map (fun _ => rfl) vs
    exact laid_node same (by simp [outlines, variants])
  | member same isMember =>
    rw [outlines, outline_documentMember]
    exact laid_through same (by simp [outline_asMember isMember])
  | @field _ index type name ds _ same =>
    have directives : (ds.map Phrase.directive).flatMap outlines = ds.map Directive.outline :=
      outlines_map (fun _ => rfl) ds
    cases index with
    | none | some i => exact laid_node same (by simp [outlines, directives])
  | @unitVariant _ index name same | @typedVariant _ index f same =>
    cases index with
    | none | some i => exact laid_node same rfl
  | named same =>
    have all := flatMap_of_content (f := outlines) same fun _ => rfl
    exact .node all (by simp [outlines]) (.inl (by simp [outlines]))
  | scalar same _ => exact .node (by rw [same]; rfl) (cons_ne_nil _ []) (.inr rfl)
  | mapType same => exact laid_through same rfl
  | @directive name args same =>
    have arguments : ((args.getD []).map Phrase.arg).flatMap outlines =
        (args.getD []).map Directive.outlineArg := outlines_map (fun _ => rfl) _
    rw [outlines, outline_directive]
    exact laid_node same (by simp [outlines, arguments])
  | intArg same => exact laid_around same rfl rfl
  | callArg same => exact laid_around same rfl (span_outline_directive _)
  | ident same kind | int same kind | string same kind => exact .token same (by simp [kind])

end Source.Phrase

end BitSchema
