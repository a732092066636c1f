import BitSchema.Proofs.DecoderSteps

/-!
# Properties of the decoder

A property that holds of the steps that read and of those that fail, and is kept by putting steps
together, holds of the whole decoder.  It need not hold of every failure: which causes there are
depends on what is missing in the schema.
-/

namespace BitSchema

open List

namespace Ir

/-- The parts that the kind of an encoding asks for are there. -/
structure Encoding.HasParts (e : Encoding) : Prop where
  element : e.native.kind = .array → e.native.element.isSome
  entry : e.native.kind = .map → e.native.key.isSome ∧ e.native.value.isSome
  reference : e.native.kind ∈ [.message, .enum] → e.native.descriptor.isSome

/-! ## Searches in whole schemas -/

/-- A search comes upon no null, and what it finds is of a kind. -/
def Search.Finds {α : Type} (p : α → Prop) (found : Search α) : Prop :=
  ∃ a?, found = .ok a? ∧ ∀ a ∈ a?, p a

theorem Search.Finds.andThen {α β : Type} {p : α → Prop} {q : β → Prop} {found : Search α}
    {next : α → Search β} (first : found.Finds p) (second : ∀ a, p a → (next a).Finds q) :
    (found.andThen next).Finds q := by
  obtain ⟨a?, rfl, kind⟩ := first
  cases a? with
  | none => exact ⟨none, rfl, by simp⟩
  | some a => exact second a (kind a rfl)

theorem finds_search {α : Type} {absent wanted : α → Bool} {p : α → Prop} {as : List α}
    (all : ∀ a ∈ as, absent a = false ∧ p a) : (search absent wanted as).Finds p := by
  induction as with
  | nil => exact ⟨none, rfl, by simp⟩
  | cons a as ih =>
    obtain ⟨⟨present, kind⟩, rest⟩ := forall_mem_cons.mp all
    rw [search, if_neg (by simp [present])]
    split
    · exact ⟨some a, rfl, by simpa using kind⟩
    · exact ih rest

theorem messagesAreWhole_iff {ms : List Message} :
    messagesAreWhole ms = true ↔ ∀ m ∈ ms, m.isWhole = true := by
  induction ms with
  | nil => simp [messagesAreWhole]
  | cons m ms ih => simp [messagesAreWhole, ih]

theorem Message.isWhole_iff {m : Message} :
    m.isWhole = true ↔ m.absent = false ∧ m.fields.any (·.absent) = false ∧
      (∀ inner ∈ m.messages, inner.isWhole = true) ∧ ∀ e ∈ m.enums, e.isWhole = true := by
  rcases m with ⟨descriptor, name, fields, messages, enums, doc, absent⟩
  simp [Message.isWhole, messagesAreWhole_iff, Message.fields, and_assoc]

theorem Enum.isWhole_iff {e : Enum} :
    e.isWhole = true ↔ e.absent = false ∧ ∀ v ∈ e.variants, v.absent = false := by
  simp [Enum.isWhole]

namespace Schema

theorem finds_findMessageAt {ms : List Message} (whole : ∀ m ∈ ms, m.isWhole = true)
    (path : List String) : (findMessageAt ms path).Finds (·.isWhole = true) := by
  have level : ∀ {ms : List Message} (name : String), (∀ m ∈ ms, m.isWhole = true) →
      (search (·.absent) (·.name == name) ms).Finds (·.isWhole = true) := fun name whole =>
    finds_search fun m mem => ⟨(Message.isWhole_iff.mp (whole m mem)).1, whole m mem⟩
  induction path generalizing ms with
  | nil => exact ⟨none, rfl, by simp⟩
  | cons name rest ih =>
    cases rest with
    | nil => exact level name whole
    | cons next rest =>
      exact (level name whole).andThen fun outer inside =>
        ih (Message.isWhole_iff.mp inside).2.2.1

variable {s : Schema} (whole : s.isWhole = true)
include whole

theorem finds_findPackage (path : String) : (s.findPackage path).Finds (·.isWhole = true) := by
  refine finds_search fun p mem => ?_
  have inside := all_eq_true.mp whole p mem
  refine ⟨?_, inside⟩
  rw [Package.isWhole, Bool.and_eq_true, Bool.and_eq_true, Bool.not_eq_true'] at inside
  exact inside.1.1

theorem finds_findMessage (d : Descriptor) : (s.findMessage d).Finds (·.isWhole = true) := by
  refine (finds_findPackage whole d.package).andThen fun p inside => finds_findMessageAt ?_ _
  rw [Package.isWhole, Bool.and_eq_true, Bool.and_eq_true] at inside
  exact all_eq_true.mp inside.1.2

theorem finds_findEnum (d : Descriptor) : (s.findEnum d).Finds (·.isWhole = true) := by
  refine (finds_findPackage whole d.package).andThen fun p inside => ?_
  rw [Package.isWhole, Bool.and_eq_true, Bool.and_eq_true] at inside
  have messages := all_eq_true.mp inside.1.2
  have enums : (enumsAt p d.path).Finds (∀ e ∈ ·, e.isWhole = true) := by
    unfold enumsAt
    split
    · exact ⟨_, rfl, by simpa using inside.2⟩
    · exact (finds_findMessageAt messages _).andThen fun m within =>
        ⟨_, rfl, by simpa using (Message.isWhole_iff.mp within).2.2.2⟩
  exact enums.andThen fun es all =>
    finds_search fun e mem => ⟨(Enum.isWhole_iff.mp (all e mem)).1, all e mem⟩

end Schema

end Ir

namespace Codec

open Ir (Encoding Transform)
open Decoder (fail under ofRead repeated repeatedFrom)

/-- The cause lies in the data or the value. -/
def Cause.Regular (c : Cause) : Prop := c.faultClass ≠ .misuse

attribute [local simp] Cause.Regular Cause.faultClass

/-! ## Causes of number faults -/

variable {d : Domain} {c : Cause} {fault : Fault} {enc : Encoding} {t : Transform}
  {ts : List Transform} {n base : Number}

theorem regular_stepDomain (failed : stepDomain t d = .error c) : c.Regular := by
  unfold stepDomain at failed
  split at failed <;> cases failed <;> simp

theorem regular_domains (failed : domains ts d = .error c) : c.Regular := by
  induction ts generalizing d with
  | nil => cases failed
  | cons t ts ih =>
    rcases bind_error_iff.mp failed with early | ⟨next, -, failed⟩
    · exact regular_stepDomain early
    · rcases bind_error_iff.mp failed with early | ⟨all, -, failed⟩
      · exact ih early
      · cases failed

theorem regular_forward (failed : forward t n base = .error c) : c.Regular := by
  unfold forward at failed
  repeat' split at failed
  all_goals cases failed
  all_goals simp

theorem regular_run (failed : run ts n base = .error fault) : fault.cause.Regular := by
  induction ts generalizing n base with
  | nil => cases failed
  | cons t ts ih =>
    rcases bind_error_iff.mp failed with early | ⟨next, -, failed⟩
    · obtain ⟨cause, step, rfl⟩ := mapError_error_iff.mp early
      exact regular_forward step
    rcases bind_error_iff.mp failed with early | ⟨nextBase, -, failed⟩
    · obtain ⟨cause, step, rfl⟩ := mapError_error_iff.mp early
      exact regular_forward step
    rcases bind_error_iff.mp failed with early | ⟨all, -, failed⟩
    · exact ih early
    · cases failed

theorem regular_loadBaseline {base : Value} (failed : loadBaseline enc base = .error fault) :
    fault.cause.Regular := by
  unfold loadBaseline at failed
  split at failed
  · obtain ⟨cause, load, rfl⟩ := mapError_error_iff.mp failed
    unfold loadNumber at load
    dsimp only at load
    split at load <;> cases load
    simp
  · cases failed

theorem regular_prepared {base : Value} (failed : prepared enc base = .error fault) :
    fault.cause.Regular := by
  rcases bind_error_iff.mp failed with early | ⟨ds, -, failed⟩
  · obtain ⟨cause, order, rfl⟩ := mapError_error_iff.mp early
    exact regular_domains order
  rcases bind_error_iff.mp failed with early | ⟨b, -, failed⟩
  · exact regular_loadBaseline early
  rcases bind_error_iff.mp failed with early | ⟨all, -, failed⟩
  · exact regular_run early
  · cases failed

theorem regular_ofWord {raw : UInt64} {bits : Nat} (failed : ofWord d raw bits = .error c) :
    c.Regular := by
  unfold ofWord at failed
  repeat' split at failed
  all_goals cases failed
  simp

/-! ## Steps of the decoder -/

/-- What reads the values inside a value. -/
abbrev Recur : Type := Encoding → Value → Decoder Value

/-- A property of decoders that holds of the steps that read, and of those that fail by causes of a
kind, and is kept by putting steps together. -/
structure Kept (p : Cause → Prop) (P : (α : Type) → Decoder α → Prop) : Prop where
  pure : ∀ {α : Type} (a : α), P α (pure a)
  throw : ∀ {α : Type} {fault : Fault}, p fault.cause → P α (throw fault)
  bind : ∀ {α β : Type} {x : Decoder α} {f : α → Decoder β}, P α x → (∀ a, P β (f a)) →
    P β (x >>= f)
  under : ∀ {α : Type} {x : Decoder α} (step : Step), P α x → P α (under step x)
  word : ∀ bits, P UInt64 (readWord bits)
  count : ∀ enc counted, P Nat (readCount enc counted)
  bytes : ∀ n, P _ (ofRead (BitReader.readBytes n))
  padding : ∀ n, P _ (ofRead (BitReader.skipPadding n))

/-- Where something is missing, the causes allow for it. -/
structure Allows (p : Cause → Prop) (schema : Ir.Schema) (enc : Encoding) : Prop where
  regular : ∀ c : Cause, c.Regular → p c
  missing : p .incompleteType ∧ p .nullEntry ∨ schema.isWhole = true ∧ enc.HasParts

section

variable {p : Cause → Prop} {P : (α : Type) → Decoder α → Prop} {schema : Ir.Schema}
  {recur : Recur} {enc : Encoding} {base : Value}

section

variable (allows : Allows p schema enc)

include allows

theorem Allows.incomplete {α : Type} {part : Option α}
    (there : enc.HasParts → part.isSome) (none : part = none) : p .incompleteType := by
  rcases allows.missing with ⟨incomplete, -⟩ | ⟨-, parts⟩
  · exact incomplete
  · rw [none] at there
    cases there parts

theorem Allows.null {α : Type} {found : Ir.Search α}
    {q : α → Prop} (finds : schema.isWhole = true → found.Finds q)
    (null : found = .error .nullEntry) : p .nullEntry := by
  rcases allows.missing with ⟨-, null⟩ | ⟨whole, -⟩
  · exact null
  · obtain ⟨a, eq, -⟩ := finds whole
    rw [null] at eq
    cases eq

end

namespace Kept

variable {α β : Type} {x : Decoder α} (kept : Kept p P)
include kept

theorem fail {cause : Cause} (here : p cause) : P α (fail cause) := kept.throw here

theorem map (has : P α x) (f : α → β) : P β (f <$> x) := by
  rw [map_eq_pure_bind]
  exact kept.bind has fun a => kept.pure (f a)

theorem check {c : Prop} [Decidable c] {cause : Cause} (allowed : c → p cause) (has : P α x) :
    P α (if c then Decoder.fail cause >>= fun (_ : PUnit) => x else x) := by
  split
  next here => exact kept.bind (kept.fail (allowed here)) fun _ => has
  next => exact has

theorem repeatedFrom {f : Nat → Decoder α} (rounds : ∀ i, P α (f i)) (i n : Nat) (done : List α) :
    P _ (repeatedFrom f i n done) := by
  induction n generalizing i done with
  | zero => exact kept.pure _
  | succ n ih => exact kept.bind (rounds i) fun a => ih (i + 1) (a :: done)

theorem octets (enc : Encoding) : P _ (readOctets enc) :=
  kept.bind (kept.word _) fun n => kept.bytes n.toNat

theorem decodeNumber (regular : ∀ c : Cause, c.Regular → p c) : P _ (decodeNumber enc base) := by
  unfold Codec.decodeNumber
  cases ready : prepared enc base with
  | error fault => exact kept.throw (regular _ (regular_prepared ready))
  | ok both =>
    refine kept.bind (kept.word _) fun raw => ?_
    cases word : ofWord both.1 raw enc.wire.bits.toNat with
    | error cause => exact kept.fail (regular _ (regular_ofWord word))
    | ok n => exact kept.pure _

variable (inner : ∀ enc base, P Value (recur enc base))
include inner

variable {bases : List (String × Value)}

theorem decodeFields {name : String} (fs : List Ir.Field) :
    P _ (decodeFields recur name bases fs) := by
  induction fs with
  | nil => exact kept.pure _
  | cons f fs ih =>
    refine kept.bind (kept.under _ (inner _ _)) fun _ => ?_
    exact kept.bind ih fun _ => kept.pure _

variable (allows : Allows p schema enc)
include allows

theorem decodeMessage {m : Ir.Message} (whole : schema.isWhole = true → m.isWhole = true) :
    P _ (decodeMessage recur m bases) := by
  unfold Codec.decodeMessage
  refine kept.check (fun absent => ?_) (kept.bind (kept.decodeFields inner _) fun _ => kept.pure _)
  rcases allows.missing with ⟨-, null⟩ | ⟨all, -⟩
  · exact null
  · have present := (Ir.Message.isWhole_iff.mp (whole all)).2.1
    rw [absent] at present
    cases present

theorem decodeEnum (d : Ir.Descriptor) : P _ (decodeEnum schema recur d) := by
  have finds := fun whole => Ir.Schema.finds_findEnum (s := schema) whole d
  unfold Codec.decodeEnum
  rcases found : schema.findEnum d with ⟨⟨⟩⟩ | _ | e
  · exact kept.fail (allows.null finds found)
  · exact kept.fail (allows.regular _ (by simp))
  · refine kept.bind (kept.word _) fun index => ?_
    have variants : schema.isWhole = true →
        (Ir.search (·.absent) (·.index.toUInt64 == index) e.variants).Finds fun _ => True := by
      intro whole
      obtain ⟨e?, eq, all⟩ := finds whole
      cases found.symm.trans eq
      have present := (Ir.Enum.isWhole_iff.mp (all e rfl)).2
      exact Ir.finds_search fun v mem => ⟨present v mem, trivial⟩
    rcases hit : Ir.search (·.absent) (·.index.toUInt64 == index) e.variants with
      ⟨⟨⟩⟩ | _ | variant
    · simp only [hit]
      exact kept.fail (allows.null variants hit)
    · simp only [hit]
      exact kept.fail (allows.regular _ (by simp))
    · simp only [hit]
      cases field : variant.field with
      | none => exact kept.pure _
      | some f => exact kept.bind (kept.under _ (inner _ _)) fun _ => kept.pure _

theorem decodeBody : P _ (decodeBody schema recur enc base) := by
  have regular : ∀ {c : Cause}, c.faultClass ≠ .misuse → p c := allows.regular _
  unfold Codec.decodeBody
  cases kind : enc.native.kind with
  | bool =>
    refine kept.bind (kept.word _) fun v => ?_
    exact kept.check (fun _ => regular (by simp)) (kept.pure _)
  | int | float => exact kept.decodeNumber allows.regular
  | string =>
    refine kept.bind (kept.octets enc) fun octets => ?_
    exact kept.check (fun _ => regular (by simp)) (kept.pure _)
  | bytes => exact kept.map (kept.octets enc) _
  | array =>
    cases part : enc.native.element with
    | none => exact kept.fail (allows.incomplete (fun parts => parts.element kind) part)
    | some element =>
      refine kept.bind (kept.count enc element) fun n => ?_
      exact kept.map (kept.repeatedFrom (fun i => kept.under _ (inner _ _)) _ _ _) _
  | map =>
    cases part : enc.native.key with
    | none => exact kept.fail (allows.incomplete (fun parts => (parts.entry kind).1) part)
    | some key =>
      refine kept.bind (kept.count enc key) fun n => ?_
      refine kept.map (kept.repeatedFrom (fun i => ?_) _ _ _) _
      refine kept.bind (kept.under _ (inner _ _)) fun k => ?_
      cases values : enc.native.value with
      | none => exact kept.fail (allows.incomplete (fun parts => (parts.entry kind).2) values)
      | some value => exact kept.bind (kept.under _ (inner _ _)) fun _ => kept.pure _
  | message =>
    cases descriptor : enc.native.descriptor with
    | none =>
      refine kept.fail (allows.incomplete (fun parts => parts.reference ?_) descriptor)
      simp [kind]
    | some d =>
      have finds := fun whole => Ir.Schema.finds_findMessage (s := schema) whole d
      dsimp only
      rcases found : schema.findMessage d with ⟨⟨⟩⟩ | _ | m
      · exact kept.fail (allows.null finds found)
      · exact kept.fail (regular (by simp))
      · refine kept.decodeMessage inner allows fun whole => ?_
        obtain ⟨m?, eq, all⟩ := finds whole
        cases found.symm.trans eq
        exact all m rfl
  | enum =>
    cases descriptor : enc.native.descriptor with
    | none =>
      refine kept.fail (allows.incomplete (fun parts => parts.reference ?_) descriptor)
      simp [kind]
    | some d => exact kept.decodeEnum inner allows d
  | other name => exact kept.fail (regular (by simp))

/-- What holds of the calls that a decoder makes holds of the decoder. -/
theorem decodeWith : P _ (decodeWith schema recur enc base) := by
  unfold Codec.decodeWith
  refine kept.bind (kept.decodeBody inner allows) fun v => ?_
  cases enc.paddingBits with
  | none => exact kept.pure _
  | some n => exact kept.bind (kept.padding _) fun _ => kept.pure _

end Kept

end

end Codec

end BitSchema
