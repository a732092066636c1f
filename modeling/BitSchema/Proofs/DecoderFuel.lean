import BitSchema.Proofs.DecoderCalls

/-!
# Fuel of the decoder

The decoder is bounded by fuel because a definition can contain itself.  Here the fuel is shown to
be no restriction: more of it changes no result, and `decodeFuel` is enough for every run that
succeeds with any amount of it.

A step into an element, an entry or a payload comes after at least one bit was read.  Between two
bits only fields that are messages themselves are entered.  If a run succeeds then no message is
entered twice that way, since it would be entered again without end, so at most as many are entered
as the schema defines.
-/

namespace BitSchema.Codec

open List
open Ir (Encoding)

variable {schema : Ir.Schema} {fuel : Nat} {enc : Encoding} {base v : Value} {r r' : BitReader}

/-- More fuel changes no result. -/
theorem decodeValue_mono {more : Nat} (enough : fuel ≤ more)
    (ok : Succeeds (decodeValue schema fuel enc base) r v r') :
    Succeeds (decodeValue schema more enc base) r v r' := by
  induction fuel generalizing more enc base v r r' with
  | zero => exact (Decoder.succeeds_fail.mp ok).elim
  | succ fuel ih =>
    obtain ⟨more, rfl⟩ : ∃ k, more = k + 1 := ⟨more - 1, by omega⟩
    exact decodeWith_follows (moves_decodeValue schema fuel)
      (fun inner left _ base r v r' _ ok => ih (by omega) ok) ok

/-! ## Messages inside messages -/

/-- A message has a field that is another message. -/
def Embeds (schema : Ir.Schema) (outer inner : Ir.Message) : Prop :=
  ∃ f ∈ outer.fields, f.encoding.native.kind = .message ∧
    ∃ d, f.encoding.native.descriptor = some d ∧ schema.findMessage d = .ok (some inner)

/-- The messages at which a chain of embedded messages can arrive. -/
def embedded (schema : Ir.Schema) (m : Ir.Message) : Set Ir.Message :=
  {inner | Relation.TransGen (Embeds schema) m inner}

/-- How many messages can be entered below a message before a bit is read. -/
noncomputable def rank (schema : Ir.Schema) (m : Ir.Message) : Nat := (embedded schema m).ncard

section

variable {schema : Ir.Schema} {m inner : Ir.Message}

theorem embedded_subset : embedded schema m ⊆ {inner | inner ∈ schema.allMessages} := by
  intro inner path
  obtain ⟨last, -, f, -, -, d, -, found⟩ := Relation.TransGen.tail'_iff.mp path
  exact Ir.Schema.mem_allMessages found

theorem finite_embedded : (embedded schema m).Finite :=
  (finite_toSet schema.allMessages).subset embedded_subset

theorem ncard_le_length {α : Type} {some : Set α} {all : List α} (within : some ⊆ {a | a ∈ all}) :
    some.ncard ≤ all.length := by
  classical
  have listed : {a | a ∈ all} = ↑all.toFinset := by
    ext a
    simp
  calc some.ncard
      ≤ {a | a ∈ all}.ncard := Set.ncard_le_ncard within (finite_toSet all)
    _ = all.toFinset.card := by rw [listed, Set.ncard_coe_finset]
    _ ≤ all.length := toFinset_card_le _

theorem rank_le (schema : Ir.Schema) (m : Ir.Message) : rank schema m ≤ schema.definitionCount :=
  (ncard_le_length embedded_subset).trans ((Nat.le_add_right ..).trans schema.length_definitions)

/-- No chain of embedded messages from here goes on for ever. -/
def Grounded (schema : Ir.Schema) : Ir.Message → Prop :=
  Acc fun inner outer => Embeds schema outer inner

/-- A chain that comes back to where it started goes on for ever. -/
theorem not_transGen_of_acc {α : Type} {step : α → α → Prop} {a : α}
    (ends : Acc (fun inner outer => step outer inner) a) : ¬ Relation.TransGen step a a := by
  intro cycle
  induction ends with
  | intro a below ih =>
    obtain ⟨next, first, path⟩ := Relation.TransGen.head'_iff.mp cycle
    exact ih next first (Relation.TransGen.tail' path first)

/-- If steps lead inside, and go down from there, then there is no way back. -/
theorem not_transGen_of_falling {α : Type} {step : α → α → Prop} (inside : α → Prop)
    (level : α → Nat)
    (falls : ∀ a b, step a b → inside b ∧ (inside a → level b < level a)) (a : α) :
    ¬ Relation.TransGen step a a := by
  intro cycle
  have path : ∀ {b}, Relation.TransGen step a b → inside b ∧ (inside a → level b < level a) := by
    intro b path
    induction path with
    | single first => exact falls _ _ first
    | tail _ last ih =>
      obtain ⟨within, lower⟩ := falls _ _ last
      exact ⟨within, fun start => (lower ih.1).trans (ih.2 start)⟩
  exact lt_irrefl _ ((path cycle).2 (path cycle).1)

theorem Grounded.rank_lt (grounded : Grounded schema m) (step : Embeds schema m inner) :
    rank schema inner < rank schema m := by
  have below : embedded schema inner ⊆ embedded schema m :=
    fun last path => Relation.TransGen.head step path
  have mem : inner ∈ embedded schema m := Relation.TransGen.single step
  have fresh : inner ∉ embedded schema inner := not_transGen_of_acc (grounded.inv step)
  refine Set.ncard_lt_ncard ⟨below, fun back => fresh (back mem)⟩ finite_embedded

end

theorem step_of_threaded {α σ : Type} {step : α → σ → σ → Prop} {as : List α} {a : α} {s s' : σ}
    (run : Threaded step as s s') (mem : a ∈ as) : ∃ t t', step a t t' := by
  induction as generalizing s with
  | nil => cases mem
  | cons first as ih =>
    obtain ⟨s₁, one, rest⟩ := threaded_cons.mp run
    rcases mem_cons.mp mem with rfl | mem
    · exact ⟨s, s₁, one⟩
    · exact ih rest mem

/-- A message that can be read is grounded: every field of it was read, each with less fuel. -/
theorem grounded_of_decodes {d : Ir.Descriptor} {m : Ir.Message} (kind : enc.native.kind = .message)
    (descriptor : enc.native.descriptor = some d) (found : schema.findMessage d = .ok (some m))
    (ok : Succeeds (decodeValue schema fuel enc base) r v r') : Grounded schema m := by
  induction fuel generalizing enc base v r r' d m with
  | zero => exact (Decoder.succeeds_fail.mp ok).elim
  | succ fuel ih =>
    obtain ⟨r₁, body, -⟩ := succeeds_decodeWith.mp ok
    obtain ⟨d', m', descriptor', found', message⟩ := (succeeds_decodeBody_message kind).mp body
    cases descriptor.symm.trans descriptor'
    cases found.symm.trans found'
    obtain ⟨-, vs, length, rest, -⟩ := succeeds_decodeMessage.mp message
    refine Acc.intro m fun inner step => ?_
    obtain ⟨f, mem, innerKind, d', innerDescriptor, innerFound⟩ := step
    have sorted : f ∈ ((sortedFields m).zip vs).map Prod.fst := by
      rw [map_fst_zip length.le]
      exact (mergeSort_perm _ _).mem_iff.mpr mem
    obtain ⟨p, member, rfl⟩ := mem_map.mp sorted
    obtain ⟨r₂, r₃, read⟩ := step_of_threaded rest member
    exact ih innerKind innerDescriptor innerFound read

/-! ## Enough fuel -/

/-- The fuel that reading by an encoding can use before it reads a bit. -/
noncomputable def reserve (schema : Ir.Schema) (enc : Encoding) : Nat :=
  match enc.native.kind, enc.native.descriptor.bind schema.message? with
  | .message, some m => rank schema m + 2
  | _, _ => 1

section

variable {schema : Ir.Schema} {enc : Encoding}

theorem reserve_message {d : Ir.Descriptor} {m : Ir.Message} (kind : enc.native.kind = .message)
    (descriptor : enc.native.descriptor = some d) (found : schema.findMessage d = .ok (some m)) :
    reserve schema enc = rank schema m + 2 := by
  rw [reserve, kind, descriptor, Option.bind_some, Ir.Schema.message?, found]
  rfl

section

variable (schema : Ir.Schema) (enc : Encoding)

theorem reserve_cases :
    reserve schema enc = 1 ∨ ∃ d m, enc.native.kind = .message ∧ enc.native.descriptor = some d ∧
        schema.findMessage d = .ok (some m) ∧ reserve schema enc = rank schema m + 2 := by
  unfold reserve
  split
  next m kind there =>
    obtain ⟨d, descriptor, found⟩ := Option.bind_eq_some_iff.mp there
    exact .inr ⟨d, m, kind, descriptor, Ir.Search.join_toOption_eq_some_iff.mp found, rfl⟩
  next => exact .inl rfl

theorem reserve_le : reserve schema enc ≤ schema.definitionCount + 2 := by
  rcases reserve_cases schema enc with one | ⟨d, m, -, -, -, eq⟩
  · omega
  · have := rank_le schema m
    omega

theorem reserve_pos : 1 ≤ reserve schema enc := by
  rcases reserve_cases schema enc with one | ⟨d, m, -, -, -, eq⟩ <;> omega

end

/-- Each call needs less fuel than the step that makes it. -/
theorem Call.reserve_lt {left fewer : Nat} {inner : Encoding}
    (wide : ∀ e ∈ schema.allEnums, 1 ≤ e.discriminant.wire.bits.toNat)
    (grounded : ∀ d m, enc.native.kind = .message → enc.native.descriptor = some d →
      schema.findMessage d = .ok (some m) → Grounded schema m)
    (call : Call schema enc left inner fewer) :
    fewer * (schema.definitionCount + 2) + reserve schema inner <
      left * (schema.definitionCount + 2) + reserve schema enc := by
  have later : fewer < left → fewer * (schema.definitionCount + 2) + reserve schema inner <
      left * (schema.definitionCount + 2) + reserve schema enc := by
    intro less
    have room := reserve_le schema inner
    have bits : (fewer + 1) * (schema.definitionCount + 2) ≤
        left * (schema.definitionCount + 2) := Nat.mul_le_mul_right _ less
    have some := reserve_pos schema enc
    rw [Nat.succ_mul] at bits
    omega
  cases call with
  | element kind part read | key kind part read | value kind part read => exact later read
  | payload kind descriptor found mem field read =>
    exact later (read.2 (wide _ (Ir.Schema.mem_allEnums found)))
  | @field d m f _ kind descriptor found mem read =>
    have bits : fewer * (schema.definitionCount + 2) ≤ left * (schema.definitionCount + 2) :=
      Nat.mul_le_mul_right _ read
    have here := reserve_message kind descriptor found
    rcases reserve_cases schema f.encoding with
      one | ⟨d', m', innerKind, innerDescriptor, innerFound, eq⟩
    · omega
    · have step : Embeds schema m m' :=
        ⟨f, mem, innerKind, d', innerDescriptor, innerFound⟩
      have := (grounded d m kind descriptor found).rank_lt step
      omega

end

/-- A run that succeeds with any fuel succeeds with as much as its bits and the schema call for. -/
theorem decodeValue_enough (wide : ∀ e ∈ schema.allEnums, 1 ≤ e.discriminant.wire.bits.toNat)
    {enough : Nat} (ok : Succeeds (decodeValue schema fuel enc base) r v r')
    (room : r.unread.length * (schema.definitionCount + 2) + reserve schema enc ≤ enough) :
    Succeeds (decodeValue schema enough enc base) r v r' := by
  induction fuel generalizing enough enc base v r r' with
  | zero => exact (Decoder.succeeds_fail.mp ok).elim
  | succ fuel ih =>
    have grounded : ∀ d m, enc.native.kind = .message → enc.native.descriptor = some d →
        schema.findMessage d = .ok (some m) → Grounded schema m :=
      fun d m kind descriptor found => grounded_of_decodes kind descriptor found ok
    have some := reserve_pos schema enc
    obtain ⟨enough, rfl⟩ : ∃ k, enough = k + 1 := ⟨enough - 1, by omega⟩
    refine decodeWith_follows (moves_decodeValue schema fuel) ?_ ok
    intro inner left call base r v r' here ok
    have less := call.reserve_lt wide grounded
    rw [← here] at less
    exact ih ok (by omega)

end BitSchema.Codec
