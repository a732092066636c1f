import BitSchema.Proofs.Messages

/-!
# Decoding ends

Where no message embeds itself and every enum has a discriminant, the decoder comes to an end on
any data: its recursion is a finite tree of calls, it never runs out of fuel, and the loop of a
collection has no more rounds than there are bits to come, or than `maxEmptyElements`.

What it ends with is a value or a fault of the data.  Faults of misuse are left to schemas that lack
something, which `Complete` rules out.
-/

namespace BitSchema

/-- Nothing that a decoder may look for is absent. -/
structure Ir.Schema.Complete (s : Ir.Schema) : Prop where
  whole : s.isWhole = true
  parts : ∀ e ∈ s.encodings, e.HasParts

namespace Codec

open List
open Ir (Encoding)
open Decoder (fail under ofRead repeated repeatedFrom)

attribute [local simp] Cause.Regular Cause.faultClass

/-! ## Runs that end -/

/-- The recursion of the decoder ends: the call makes the calls `made`, each of which ends, and so
has an ending of its own.  The number counts all calls on the way to it. -/
inductive Ends (schema : Ir.Schema) : CallSite → Ending → Nat → Prop where
  | intro {c : CallSite} {recur : Recur} {made : List CallSite} {count : CallSite → Nat}
      (answered : ∀ inner ∈ made, Ends schema inner (inner.answer recur) (count inner))
      (only : Asks (fun recur => decodeWith schema recur c.enc c.base) recur c.reader made) :
      Ends schema c (outcome (decodeWith schema recur c.enc c.base) c.reader)
        (made.length + (made.map count).sum)

section

variable {schema : Ir.Schema}

/-- A decoder can be changed where it is not asked. -/
theorem Asks.restrict {α : Type} {x : Recur → Decoder α} {recur : Recur} {r : BitReader}
    {made : List CallSite} (only : Asks x recur r made) (otherwise : CallSite → Ending) :
    ∃ recur' : Recur, outcome (x recur') r = outcome (x recur) r ∧
      ∀ c : CallSite, c ∈ made ∧ c.answer recur' = c.answer recur ∨
        c ∉ made ∧ c.answer recur' = otherwise c := by
  classical
  refine ⟨.ofAnswers fun c => if c ∈ made then c.answer recur else otherwise c, ?_, ?_⟩
  · exact only _ fun c mem => if_pos mem
  · intro c
    by_cases mem : c ∈ made
    · exact Or.inl ⟨mem, if_pos mem⟩
    · exact Or.inr ⟨mem, if_neg mem⟩

variable {c : CallSite}

/-- The recursion has one ending, whichever way it is followed. -/
theorem Ends.unique {ending ending' : Ending} {n n' : Nat} (left : Ends schema c ending n)
    (right : Ends schema c ending' n') : ending = ending' := by
  induction left generalizing ending' n' with
  | @intro c recur made count answered only ih =>
    cases right with
    | @intro _ recur' made' count' answered' only' =>
      obtain ⟨mixed, same, answers⟩ := only.restrict fun c => c.answer recur'
      rw [← same]
      refine only' mixed fun inner mem => ?_
      rcases answers inner with ⟨inside, eq⟩ | ⟨-, eq⟩
      · exact eq.trans (ih inner inside (answered' inner mem))
      · exact eq

/-- Where messages embed none in a circle, no chain of embedded messages goes on for ever. -/
theorem grounded_of_acyclic (acyclic : ∀ m, ¬ Relation.TransGen (Embeds schema) m m)
    (m : Ir.Message) : Grounded schema m := by
  refine (measure (rank schema)).wf.induction (C := Grounded schema) m fun m ih => ?_
  refine Acc.intro m fun inner step => ih inner ?_
  have below : embedded schema inner ⊂ embedded schema m := by
    refine ⟨fun last path => Relation.TransGen.head step path, fun back => ?_⟩
    exact acyclic inner (back (Relation.TransGen.single step))
  exact Set.ncard_lt_ncard below finite_embedded

/-- The fuel that the calls of a decoder use up. -/
noncomputable def need (schema : Ir.Schema) (c : CallSite) : Nat :=
  c.reader.unread.length * (schema.definitionCount + 2) + reserve schema c.enc

theorem need_pos (schema : Ir.Schema) (c : CallSite) : 0 < need schema c :=
  Nat.add_pos_right _ (reserve_pos schema c.enc)

theorem asksWithin_decodeValue (schema : Ir.Schema) (fuel : Nat) (c : CallSite) :
    AsksWithin (Below schema c.enc c.reader)
      (fun recur => decodeWith schema recur c.enc c.base) (decodeValue schema fuel) c.reader :=
  asksWithin_decodeWith (moves_decodeValue schema fuel)

variable (wide : ∀ e ∈ schema.allEnums, 1 ≤ e.discriminant.wire.bits.toNat)
  (acyclic : ∀ m, ¬ Relation.TransGen (Embeds schema) m m)
include wide acyclic

theorem need_lt_of_below {inner : CallSite} (below : Below schema c.enc c.reader inner) :
    need schema inner < need schema c :=
  below.reserve_lt wide fun _ m _ _ _ => grounded_of_acyclic acyclic m

/-- With as much fuel as it needs, the decoder comes to where its recursion ends. -/
theorem ends_decodeValue {fuel : Nat} (enough : need schema c ≤ fuel) :
    ∃ n, Ends schema c (c.answer (decodeValue schema fuel)) n := by
  induction fuel generalizing c with
  | zero =>
    have some := need_pos schema c
    omega
  | succ fuel ih =>
    obtain ⟨made, within, only, -⟩ := asksWithin_decodeValue schema fuel c
    have ends : ∀ inner, ∃ n, inner ∈ made →
        Ends schema inner (inner.answer (decodeValue schema fuel)) n := by
      intro inner
      by_cases mem : inner ∈ made
      · have less := need_lt_of_below wide acyclic (within inner mem)
        obtain ⟨n, ends⟩ := ih (by omega : need schema inner ≤ fuel)
        exact ⟨n, fun _ => ends⟩
      · exact ⟨0, fun inside => absurd inside mem⟩
    choose count answered using ends
    exact ⟨_, Ends.intro answered only⟩

end

/-! ## Whole messages -/

section

variable {schema : Ir.Schema}

theorem outcome_get_bind {α : Type} (f : BitReader → Decoder α) (r : BitReader) :
    outcome (get >>= f) r = outcome (f r) r := rfl

/-- Reading a message is reading a value that refers to it. -/
theorem outcome_decode (schema : Ir.Schema) (d : Ir.Descriptor) (bases : Fields) (r : BitReader) :
    outcome (decode schema d bases) r = CallSite.answer
      (decodeValue schema (decodeFuel schema r.remaining + 1)) ⟨embed d, .message bases, r⟩ := by
  have unfolded : ∀ recur : Recur, outcome (decodeWith schema recur (embed d) (.message bases)) r =
      outcome (decodeBody schema recur (embed d) (.message bases)) r := by
    intro recur
    simp only [decodeWith, embed]
    rw [outcome_bind]
    rcases outcome (decodeBody schema recur _ (.message bases)) r with ⟨fault | v, r'⟩ <;> rfl
  rw [CallSite.answer, decodeValue, unfolded]
  simp only [decode, decodeBody, embed]
  rcases schema.findMessage d with ⟨⟨⟩⟩ | _ | m
  · rfl
  · rfl
  · exact outcome_get_bind _ r

theorem need_embed_le (schema : Ir.Schema) (d : Ir.Descriptor) (bases : Fields) (r : BitReader) :
    need schema ⟨embed d, .message bases, r⟩ ≤ decodeFuel schema r.remaining + 1 := by
  have room := reserve_le schema (embed d)
  have bits : (r.unread.length + 1) * (schema.definitionCount + 2) =
      r.unread.length * (schema.definitionCount + 2) + (schema.definitionCount + 2) :=
    Nat.succ_mul _ _
  rw [need, decodeFuel, BitReader.remaining_eq, bits]
  dsimp only
  omega

end

/-! ## Causes of faults -/

/-- All faults of a decoder have causes of a kind. -/
def FaultsWithin {α : Type} (p : Cause → Prop) (x : Decoder α) : Prop :=
  ∀ r fault r', outcome x r = (.error fault, r') → p fault.cause

namespace FaultsWithin

variable {α β : Type} {p : Cause → Prop}

theorem pure (a : α) : FaultsWithin p (pure a : Decoder α) := by
  intro r fault r' failed
  cases failed

theorem throw {fault : Fault} (cause : p fault.cause) :
    FaultsWithin p (throw fault : Decoder α) := by
  intro r fault' r' failed
  cases failed
  exact cause

theorem fail {cause : Cause} (here : p cause) : FaultsWithin p (fail cause : Decoder α) :=
  throw here

theorem get : FaultsWithin p (MonadStateOf.get : Decoder BitReader) := by
  intro r fault r' failed
  cases failed

variable {x : Decoder α}

theorem bind {f : α → Decoder β} (first : FaultsWithin p x) (next : ∀ a, FaultsWithin p (f a)) :
    FaultsWithin p (x >>= f) := by
  intro r fault r' failed
  rw [outcome_bind] at failed
  rcases ending : outcome x r with ⟨early | a, r₁⟩
  · rw [ending] at failed
    cases failed
    exact first r fault r' ending
  · rw [ending] at failed
    exact next a r₁ fault r' failed

theorem map (faults : FaultsWithin p x) (f : α → β) : FaultsWithin p (f <$> x) := by
  rw [map_eq_pure_bind]
  exact faults.bind fun a => pure (f a)

theorem adapt {ε : Type} {x : ExceptT ε (StateM BitReader) α} {f : ε → Fault}
    (causes : ∀ r e r', outcome x r = (.error e, r') → p (f e).cause) :
    FaultsWithin p (ExceptT.adapt f x) := by
  intro r fault r' failed
  have unfolded : outcome (ExceptT.adapt f x) r =
      ((outcome x r).1.mapError f, (outcome x r).2) := rfl
  rw [unfolded] at failed
  rcases ending : outcome x r with ⟨e | a, r₁⟩
  · rw [ending] at failed
    cases failed
    exact causes r e _ ending
  · rw [ending] at failed
    cases failed

theorem under (faults : FaultsWithin p x) (step : Step) : FaultsWithin p (under step x) :=
  adapt faults

theorem ofRead (regular : ∀ c : Cause, c.Regular → p c) (x : BitReader.Step α) :
    FaultsWithin p (ofRead x) := by
  refine adapt fun r fault r' _ => regular _ ?_
  cases fault <;> simp

theorem ite {c : Prop} [Decidable c] {y : Decoder α} (yes : FaultsWithin p x)
    (no : FaultsWithin p y) : FaultsWithin p (if c then x else y) := by
  split
  · exact yes
  · exact no

end FaultsWithin

variable {fault : Fault} {enc : Encoding} {schema : Ir.Schema} {r' : BitReader} {counted : Encoding}

section

variable {p : Cause → Prop} (regular : ∀ c : Cause, c.Regular → p c)
include regular

theorem faultsWithin_readCount (counted : Encoding) : FaultsWithin p (readCount enc counted) := by
  unfold readCount
  refine ((FaultsWithin.ofRead regular _).map _).bind fun n => FaultsWithin.get.bind fun r => ?_
  have missing : p (.missingElements n) := regular _ (by simp)
  have many : p (.manyElements n) := regular _ (by simp)
  exact .ite (.ite (.bind (.fail missing) fun _ => .pure n) (.pure n))
    (.ite (.bind (.fail many) fun _ => .pure n) (.pure n))

theorem kept_faultsWithin : Kept p fun _ => FaultsWithin p where
  pure := .pure
  throw := .throw
  bind := .bind
  under step faults := faults.under step
  word _ := .ofRead regular _
  count _ := faultsWithin_readCount regular
  bytes _ := .ofRead regular _
  padding _ := .ofRead regular _

end

/-- Causes that all encodings on the way of a decoder allow are those of its faults. -/
theorem faults_decodeValue (p : Cause → Prop) (good : Encoding → Prop)
    (wide : ∀ e ∈ schema.allEnums, 1 ≤ e.discriminant.wire.bits.toNat)
    (acyclic : ∀ m, ¬ Relation.TransGen (Embeds schema) m m)
    (allows : ∀ enc, good enc → Allows p schema enc)
    (closed : ∀ {enc left inner fewer}, good enc → Call schema enc left inner fewer → good inner)
    {fuel : Nat} {c : CallSite} (here : good c.enc) (enough : need schema c ≤ fuel)
    (failed : c.answer (decodeValue schema fuel) = (.error fault, r')) : p fault.cause := by
  induction fuel generalizing c fault r' with
  | zero =>
    have some := need_pos schema c
    omega
  | succ fuel ih =>
    obtain ⟨made, within, only, -⟩ := asksWithin_decodeValue schema fuel c
    -- What is not asked may as well succeed.
    obtain ⟨recur, same, answers⟩ := only.restrict fun c => (.ok .null, c.reader)
    have inner : ∀ enc base, FaultsWithin p (recur enc base) := by
      intro enc base r fault r' failed
      rcases answers ⟨enc, base, r⟩ with ⟨mem, eq⟩ | ⟨-, eq⟩
      · have below := within _ mem
        have less := need_lt_of_below wide acyclic below
        exact ih (closed here below) (by omega) (eq.symm.trans failed)
      · cases eq.symm.trans failed
    have allowed := allows c.enc here
    exact (kept_faultsWithin allowed.regular).decodeWith inner allowed _ _ _ (same.trans failed)

/-! ## Loops -/

/-- The loop of a collection: by which elements its rounds are counted, and what it reads in so many
of them. -/
inductive Loop (recur : Recur) (enc : Encoding) : Encoding → (Nat → Decoder Value) → Prop where
  | array {element : Encoding} (kind : enc.native.kind = .array)
      (part : enc.native.element = some element) :
      Loop recur enc element fun rounds =>
        Value.list <$> repeated (fun i => under (.item i) (recur element .null)) rounds
  | map {key : Encoding} (kind : enc.native.kind = .map) (part : enc.native.key = some key) :
      Loop recur enc key fun rounds =>
        Value.map <$> repeated (fun i => do
          let k ← under (.key i) (recur key .null)
          enc.native.value.elim (fail .incompleteType) fun value => do
            return (k, ← under (.value i) (recur value .null))) rounds

theorem Loop.decodeBody_eq {recur : Recur} {rounds : Nat → Decoder Value}
    (loop : Loop recur enc counted rounds) (schema : Ir.Schema) (base : Value) :
    decodeBody schema recur enc base = readCount enc counted >>= rounds := by
  cases loop with
  | array kind part => simp only [decodeBody, kind, part]
  | map kind part =>
    cases values : enc.native.value with
    | none | some value => simp only [decodeBody, kind, part, values, Option.elim]

theorem rounds_le {r : BitReader} {n : Nat} (read : Succeeds (readCount enc counted) r n r') :
    n ≤ max (2 ^ 20) r'.remaining := by
  obtain ⟨-, -, -, held⟩ := succeeds_readCount.mp read
  rw [CountHeld] at held
  rw [BitReader.remaining_eq]
  split at held
  · exact (held.trans (Nat.div_le_self _ _)).trans (le_max_right _ _)
  · exact held.trans (le_max_left _ _)

/-! ## Every run ends -/

theorem hasParts_embed (d : Ir.Descriptor) : (embed d).Throughout Encoding.HasParts := by
  refine throughout_embed ⟨?_, ?_, ?_⟩ <;> simp [embed]

theorem Call.throughout {p : Encoding → Prop} (all : ∀ e ∈ schema.encodings, p e) {inner : Encoding}
    {left fewer : Nat} (here : enc.Throughout p) (call : Call schema enc left inner fewer) :
    inner.Throughout p := by
  cases call with
  | element kind part read => exact here.element part
  | key kind part read => exact here.key part
  | value kind part read => exact here.value part
  | field kind descriptor found mem read => exact Ir.Schema.throughout_field all found mem
  | payload kind descriptor found mem field read =>
    exact Ir.Schema.throughout_payload all found mem field

/-- The decoder comes to one end on all data, by finitely many calls, with a value or a fault.  It
never runs out of fuel, and in a complete schema every fault is one of the data or the baseline.
Its loops have no more rounds than there are bits to come, or than `2 ^ 20`. -/
theorem decode_ends {schema : Ir.Schema}
    (wide : ∀ e ∈ schema.allEnums, 1 ≤ e.discriminant.wire.bits.toNat)
    (acyclic : ∀ m, ¬ Relation.TransGen (Embeds schema) m m)
    (d : Ir.Descriptor) (bases : Fields) (r : BitReader) :
    (∃ calls, Ends schema ⟨embed d, .message bases, r⟩ (outcome (decode schema d bases) r) calls) ∧
      (∀ ending calls, Ends schema ⟨embed d, .message bases, r⟩ ending calls →
        ending = outcome (decode schema d bases) r) ∧
      (∀ fault r', outcome (decode schema d bases) r = (.error fault, r') →
        fault.cause ≠ .endless ∧ (schema.Complete → fault.cause.faultClass ≠ .misuse)) ∧
      ∀ recur enc counted rounds base, Loop recur enc counted rounds →
        decodeBody schema recur enc base = readCount enc counted >>= rounds ∧
          ∀ r n r', Succeeds (readCount enc counted) r n r' → n ≤ max (2 ^ 20) r'.remaining := by
  have enough := need_embed_le schema d bases r
  obtain ⟨calls, ends⟩ := ends_decodeValue wide acyclic enough
  rw [← outcome_decode] at ends
  refine ⟨⟨calls, ends⟩, fun ending calls other => other.unique ends, ?_, ?_⟩
  · intro fault r' failed
    rw [outcome_decode] at failed
    constructor
    · refine faults_decodeValue (· ≠ .endless) (fun _ => True) wide acyclic
        (fun enc _ => ⟨?_, Or.inl ⟨by simp, by simp⟩⟩) (fun _ _ => trivial) trivial enough failed
      rintro c regular rfl
      exact regular rfl
    · intro complete
      exact faults_decodeValue Cause.Regular (Encoding.Throughout Encoding.HasParts) wide acyclic
        (fun enc parts => ⟨fun c regular => regular, Or.inr ⟨complete.whole, parts.here⟩⟩)
        (fun here call => call.throughout complete.parts here) (hasParts_embed d) enough failed
  · intro recur enc counted rounds base loop
    exact ⟨loop.decodeBody_eq schema base, fun r n r' read => rounds_le read⟩

/-- If embedded messages stand lower then there is no circle. -/
theorem acyclic_of_height (height : Ir.Message → Nat)
    (falls : ∀ m ∈ schema.allMessages, ∀ f ∈ m.fields, f.encoding.native.kind = .message →
      ∀ inner ∈ f.encoding.native.descriptor.bind schema.message?, height inner < height m)
    (m : Ir.Message) : ¬ Relation.TransGen (Embeds schema) m m := by
  refine not_transGen_of_falling (· ∈ schema.allMessages) height ?_ m
  rintro outer inner ⟨f, mem, kind, d, descriptor, found⟩
  refine ⟨Ir.Schema.mem_allMessages found, fun inside => falls outer inside f mem kind inner ?_⟩
  rw [descriptor, Option.bind_some, Ir.Schema.message?, found]
  rfl

/-- Trees that have a point, any number of trees below them, and may have one more in an enum. -/
def treeSchema : Ir.Schema :=
  let coordinate : Encoding := { wire := .ofBits 8, native := { kind := .int, bits := 8 } }
  let tree : Encoding := embed ⟨"p", [], "Tree"⟩
  let trees : Encoding :=
    { wire := .lengthPrefixed 16, native := { kind := .array, element := some tree } }
  let twig : Encoding :=
    { wire := .embedded, native := { kind := .enum, descriptor := some ⟨"p", [], "Twig"⟩ } }
  let twigs : Ir.Enum :=
    { name := "Twig", discriminant := { wire := .ofBits 1, native := { kind := .int, bits := 1 } },
      variants? := some [{ name := "none", index := 0 },
        { name := "one", index := 1, field := some { name := "tree", encoding := tree } }] }
  { packages? := some [{
      path := "p"
      messages? := some [
        { name := "Tree", fields? := some [
          { name := "at", index := 0, encoding := embed ⟨"p", [], "Point"⟩ },
          { name := "below", index := 1, encoding := trees },
          { name := "beside", index := 2, encoding := twig }] },
        { name := "Point", fields? := some [{ name := "x", encoding := coordinate }] }]
      enums? := some [twigs] }] }

theorem decode_ends_tree :
    (∀ e ∈ treeSchema.allEnums, 1 ≤ e.discriminant.wire.bits.toNat) ∧
      (∀ m, ¬ Relation.TransGen (Embeds treeSchema) m m) ∧
      ∃ calls, Ends treeSchema ⟨embed ⟨"p", [], "Tree"⟩, .message [], ⟨#[7, 255, 255, 1], 0⟩⟩
        (outcome (decode treeSchema ⟨"p", [], "Tree"⟩ []) ⟨#[7, 255, 255, 1], 0⟩) calls := by
  have wide : ∀ e ∈ treeSchema.allEnums, 1 ≤ e.discriminant.wire.bits.toNat := by decide +kernel
  have acyclic : ∀ m, ¬ Relation.TransGen (Embeds treeSchema) m m :=
    acyclic_of_height (fun m => if m.name = "Tree" then 1 else 0) (by decide +kernel)
  exact ⟨wide, acyclic, (decode_ends wide acyclic _ _ _).1⟩

end Codec

end BitSchema
