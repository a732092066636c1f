import BitSchema.Proofs.Canonical
import BitSchema.Proofs.EmptyValues

/-!
# Fuel of the encoder

The encoder is bounded by fuel because what is absent in a message can hold itself.  Here the fuel
is shown to be no restriction: `encodeFuel` is enough for every message that can be written with any
amount of it.

What lies in a value is absent, or less deep than the value.  In an absent value all is absent, and
if it can be written then no definition holds itself there.
-/

namespace BitSchema.Codec

open List
open Ir (Encoding)

variable {schema : Ir.Schema} {enc : Encoding} {v base : Value} {place : Place} {w w' : BitWriter}

/-! ## What a run depends on -/

theorem threaded_imp {α σ : Type} {step step' : α → σ → σ → Prop} {as : List α} {s s' : σ}
    (imp : ∀ a ∈ as, ∀ s s', step a s s' → step' a s s') (run : Threaded step as s s') :
    Threaded step' as s s' := by
  induction as generalizing s with
  | nil => exact run
  | cons a as ih =>
    obtain ⟨here, later⟩ := forall_mem_cons.mp imp
    obtain ⟨s₁, first, rest⟩ := run
    exact ⟨s₁, here s s₁ first, ih later rest⟩

/-- A run by `recur` is a run by `recur'` if `recur'` follows in the parts of the value. -/
theorem encodeBody_follows {recur recur' : Encoding → Value → Value → Encoder}
    (follows : ∀ place, Part schema (enc, v) place → ∀ base w w',
      Succeeds (recur place.1 place.2 base) w () w' →
        Succeeds (recur' place.1 place.2 base) w () w')
    (ok : Succeeds (encodeBody schema recur enc v base) w () w') :
    Succeeds (encodeBody schema recur' enc v base) w () w' := by
  cases kind : enc.native.kind with
  | bool | int | float | string | bytes | other name =>
    unfold encodeBody at ok ⊢
    simp only [kind] at ok ⊢
    exact ok
  | array =>
    obtain ⟨items, w₁, list, length, rest⟩ := (succeeds_encodeBody_array kind).mp ok
    refine (succeeds_encodeBody_array kind).mpr ⟨items, w₁, list, length, rest.imp_right ?_⟩
    rintro ⟨element, elements, run⟩
    refine ⟨element, elements, threaded_imp (fun item mem _ _ => ?_) run⟩
    exact follows _ (.item kind elements list mem) _ _ _
  | map =>
    obtain ⟨entries, w₁, map, length, rest⟩ := (succeeds_encodeBody_map kind).mp ok
    refine (succeeds_encodeBody_map kind).mpr ⟨entries, w₁, map, length, rest.imp_right ?_⟩
    rintro ⟨key, value, keys, values, run⟩
    refine ⟨key, value, keys, values, threaded_imp (fun entry mem _ _ step => ?_) run⟩
    obtain ⟨w₂, first, second⟩ := step
    exact ⟨w₂, follows _ (.key kind keys map mem) _ _ _ first,
      follows _ (.value kind values map mem) _ _ _ second⟩
  | message =>
    obtain ⟨d, m, values, descriptor, found, fields, message⟩ :=
      (succeeds_encodeBody_message kind).mp ok
    obtain ⟨present, run⟩ := succeeds_encodeMessage.mp message
    refine (succeeds_encodeBody_message kind).mpr ⟨d, m, values, descriptor, found, fields,
      succeeds_encodeMessage.mpr ⟨present, threaded_imp (fun f mem _ _ => ?_) run⟩⟩
    have field : f ∈ m.fields := (mergeSort_perm _ _).mem_iff.mp mem
    exact follows _ (.field kind descriptor found fields field) _ _ _
  | enum =>
    obtain ⟨d, descriptor, enum⟩ := (succeeds_encodeBody_enum kind).mp ok
    obtain ⟨e, name, payload, variant, w₁, found, parts, named, index, rest⟩ :=
      succeeds_encodeEnum.mp enum
    refine (succeeds_encodeBody_enum kind).mpr ⟨d, descriptor, succeeds_encodeEnum.mpr
      ⟨e, name, payload, variant, w₁, found, parts, named, index, ?_⟩⟩
    cases field : variant.field with
    | none => simpa only [field] using rest
    | some f =>
      simp only [field] at rest ⊢
      exact follows _ (.payload kind descriptor found parts named field) _ _ _ rest

/-! ## How much fuel is enough -/

theorem unfolds_of_part (part : Part schema (enc, .null) place) :
    place.2 = .null ∧ Unfolds schema enc place.1 := by
  cases part with
  | item _ _ none mem | key _ _ none mem | value _ _ none mem =>
    cases none
    cases mem
  | field kind descriptor found fields mem =>
    cases fields
    exact ⟨rfl, _, referent_message kind descriptor found, mem_map_of_mem mem⟩
  | payload kind descriptor found parts named field =>
    cases parts
    exact ⟨rfl, _, referent_enum kind descriptor found,
      mem_contents_enum.mpr ⟨_, _, named, field, rfl⟩⟩

theorem depth_of_part (part : Part schema (enc, v) place) :
    place.2 = .null ∨ place.2.depth < v.depth := by
  cases part with
  | item _ _ list mem =>
    have inside := Value.depth_le_depthItems mem
    cases v <;> cases list
    · cases mem
    · exact .inr (Nat.lt_succ_of_le inside)
  | key _ _ map mem | value _ _ map mem =>
    have inside := max_le_iff.mp (Value.depth_le_depthEntries mem)
    cases v <;> cases map
    · cases mem
    · exact .inr (Nat.lt_succ_of_le (by simp only [inside]))
  | @field _ _ _ _ f values _ _ _ fields =>
    have inside : Value.fieldOf values f.name = .null ∨
        (Value.fieldOf values f.name).depth < Value.depthFields values + 1 := by
      rw [Value.fieldOf]
      cases found : values.find? (·.1 == f.name) with
      | none => exact .inl rfl
      | some field =>
        exact .inr (Nat.lt_succ_of_le (Value.depth_le_depthFields (mem_of_find?_eq_some found)))
    cases v <;> cases fields
    · exact .inl rfl
    · exact inside
    · exact inside
  | payload _ _ _ parts =>
    cases v <;> cases parts
    · exact .inl rfl
    · exact .inl rfl
    · exact .inr (Nat.lt_succ_self _)

open Classical in
/-- The fuel with which a value is written, if it can be. -/
noncomputable def writingFuel (schema : Ir.Schema) (enc : Encoding) (v : Value) : Nat :=
  if v = .null then height schema enc + 1 else v.depth + schema.definitionCount + 1

/-- The parts of a value need less fuel than the value. -/
theorem writingFuel_lt (ends : v = .null → Finite schema enc)
    (part : Part schema (enc, v) place) :
    writingFuel schema place.1 place.2 < writingFuel schema enc v := by
  unfold writingFuel
  by_cases absent : v = .null
  · subst absent
    obtain ⟨null, step⟩ := unfolds_of_part part
    have less := height_lt (not_transGen_of_acc ((ends rfl).inv step)) step
    rw [if_pos null, if_pos rfl]
    omega
  · have few := height_le schema place.1
    have some := v.depth_pos
    rw [if_neg absent]
    split
    next => omega
    next there =>
      have less := (depth_of_part part).resolve_left there
      omega

/-- Whatever can be written at all is written with this much fuel. -/
theorem encodeValue_enough {fuel fuel' : Nat}
    (ok : Succeeds (encodeValue schema fuel enc v base) w () w')
    (enough : writingFuel schema enc v ≤ fuel') :
    Succeeds (encodeValue schema fuel' enc v base) w () w' := by
  induction fuel' generalizing fuel enc v base w w' with
  | zero =>
    rw [writingFuel] at enough
    split at enough <;> omega
  | succ fuel' ih =>
    have ends : v = .null → Finite schema enc := by
      rintro rfl
      exact (writable_iff.mp (writable_of_encodes ok)).1
    cases fuel with
    | zero => exact (succeeds_fail.mp ok).elim
    | succ fuel =>
      obtain ⟨w₁, body, rfl⟩ := succeeds_encodeWith.mp ok
      refine succeeds_encodeWith.mpr ⟨w₁, encodeBody_follows ?_ body, rfl⟩
      intro place part base w w' written
      have less := writingFuel_lt ends part
      exact ih written (by omega)

/-- The fuel of `encode` is no restriction. -/
theorem succeeds_encode_iff {d : Ir.Descriptor} {values bases : Fields} :
    Succeeds (encode schema d values bases) w () w' ↔
      ∃ fuel, Succeeds (encodeValue schema fuel (embed d) (.message values) (.message bases))
        w () w' := by
  constructor
  · intro ok
    exact ⟨_, succeeds_encode.mp ok⟩
  · rintro ⟨fuel, ok⟩
    refine succeeds_encode.mpr (encodeValue_enough ok ?_)
    have deep : (Value.message values).depth ≤
        (Value.message values).depth * (schema.definitionCount + 2) :=
      Nat.le_mul_of_pos_right _ (Nat.succ_pos _)
    rw [writingFuel, if_neg (by simp), encodeFuel, Nat.succ_mul]
    omega

end BitSchema.Codec
