import BitSchema.Proofs.DecoderProperties
import BitSchema.Proofs.Definitions

/-!
# The calls that a decoder makes

The decoder calls itself for the parts of a value.  Its recursion is taken apart here without fuel:
`Asks` says which calls a part of the decoder makes, by saying what its outcome depends on.  Every
call that is made is one of the relation `Call`, which says how many bits are left for it.
-/

namespace BitSchema.Codec

open List
open Ir (Encoding)
open Decoder (fail under ofRead repeated repeatedFrom)

/-! ## Readers go forward -/

/-- The reader has gone on over bits that were there. -/
def Passed (r r' : BitReader) : Prop := ∃ n ≤ r.unread.length, r' = r.advance n

namespace Passed

variable {r r' r'' : BitReader}

theorem refl (r : BitReader) : Passed r r := ⟨0, Nat.zero_le _, rfl⟩

theorem trans (first : Passed r r') (second : Passed r' r'') : Passed r r'' := by
  obtain ⟨m, inside, rfl⟩ := first
  obtain ⟨n, further, rfl⟩ := second
  rw [BitReader.unread_advance, length_drop] at further
  exact ⟨m + n, by omega, BitReader.advance_advance r m n⟩

theorem length_le (passed : Passed r r') : r'.unread.length ≤ r.unread.length := by
  obtain ⟨n, -, rfl⟩ := passed
  rw [BitReader.unread_advance, length_drop]
  exact Nat.sub_le _ _

end Passed

section

variable {α : Type} {r r' : BitReader}

theorem passed_readWord {n : UInt32} {v : UInt64} (ok : Succeeds (readWord n) r v r') :
    Passed r r' := by
  obtain ⟨-, inside, -, rfl⟩ := succeeds_readWord.mp ok
  exact ⟨n.toNat, inside, rfl⟩

/-- A word that is not zero took at least one bit. -/
theorem length_lt_of_readWord {n : UInt32} {v : UInt64} (ok : Succeeds (readWord n) r v r')
    (wide : 1 ≤ n.toNat ∨ v ≠ 0) : r'.unread.length < r.unread.length := by
  obtain ⟨-, inside, rfl, rfl⟩ := succeeds_readWord.mp ok
  have some : 1 ≤ n.toNat := by
    rcases wide with wide | nonzero
    · exact wide
    · by_contra none
      have zero : n.toNat = 0 := by omega
      rw [zero, take_zero] at nonzero
      exact nonzero rfl
  rw [BitReader.unread_advance, length_drop]
  omega

/-- Whatever a decoder reads it passes over. -/
theorem kept_passed : Kept (fun _ => True) fun α (x : Decoder α) =>
    ∀ r a r', Succeeds x r a r' → Passed r r' where
  pure a r a' r' ok := by
    obtain ⟨-, rfl⟩ := succeeds_pure.mp ok
    exact .refl r
  throw _ r a r' ok := (succeeds_throw.mp ok).elim
  bind first next r b r' ok := by
    obtain ⟨a, r₁, one, rest⟩ := succeeds_bind.mp ok
    exact (first r a r₁ one).trans (next a r₁ b r' rest)
  under step has r a r' ok := has r a r' (Decoder.succeeds_under.mp ok)
  word bits r v r' ok := passed_readWord ok
  count enc counted r n r' ok := by
    obtain ⟨v, read, -⟩ := succeeds_readCount.mp ok
    exact passed_readWord read
  bytes n r octets r' ok := by
    obtain ⟨length, content, rfl⟩ :=
      BitReader.succeeds_readBytes.mp (Decoder.succeeds_ofRead.mp ok)
    refine ⟨_, ?_, rfl⟩
    have same := congrArg List.length content
    rw [length_octetBits, length_take, length] at same
    omega
  padding n r u r' ok := by
    obtain ⟨zeros, rfl⟩ := BitReader.succeeds_skipPadding.mp (Decoder.succeeds_ofRead.mp ok)
    refine ⟨_, ?_, rfl⟩
    have same := congrArg List.length zeros
    rw [length_take, length_replicate] at same
    omega

end

/-! ## Calls -/

/-- Reading by `enc` with `left` bits to come reads by `inner` with `fewer` bits to come. -/
inductive Call (schema : Ir.Schema) (enc : Encoding) (left : Nat) : Encoding → Nat → Prop where
  | element {inner : Encoding} {fewer : Nat} (kind : enc.native.kind = .array)
      (part : enc.native.element = some inner) (read : fewer < left) :
      Call schema enc left inner fewer
  | key {inner : Encoding} {fewer : Nat} (kind : enc.native.kind = .map)
      (part : enc.native.key = some inner) (read : fewer < left) : Call schema enc left inner fewer
  | value {inner : Encoding} {fewer : Nat} (kind : enc.native.kind = .map)
      (part : enc.native.value = some inner) (read : fewer < left) :
      Call schema enc left inner fewer
  | field {d : Ir.Descriptor} {m : Ir.Message} {f : Ir.Field} {fewer : Nat}
      (kind : enc.native.kind = .message) (descriptor : enc.native.descriptor = some d)
      (found : schema.findMessage d = .ok (some m)) (mem : f ∈ m.fields) (read : fewer ≤ left) :
      Call schema enc left f.encoding fewer
  | payload {d : Ir.Descriptor} {e : Ir.Enum} {variant : Ir.Variant} {f : Ir.Field} {fewer : Nat}
      (kind : enc.native.kind = .enum) (descriptor : enc.native.descriptor = some d)
      (found : schema.findEnum d = .ok (some e)) (mem : variant ∈ e.variants)
      (field : variant.field = some f)
      (read : fewer ≤ left ∧ (1 ≤ e.discriminant.wire.bits.toNat → fewer < left)) :
      Call schema enc left f.encoding fewer

/-- All that `recur` reads it passes over. -/
def Moves (recur : Encoding → Value → Decoder Value) : Prop :=
  ∀ enc base r v r', Succeeds (recur enc base) r v r' → Passed r r'

/-- `recur'` does whatever `recur` does, by one encoding and with so many bits to come. -/
def Follows (recur recur' : Encoding → Value → Decoder Value) (enc : Encoding) (left : Nat) :
    Prop :=
  ∀ base r v r', r.unread.length = left → Succeeds (recur enc base) r v r' →
    Succeeds (recur' enc base) r v r'

theorem moves_decodeValue (schema : Ir.Schema) (fuel : Nat) : Moves (decodeValue schema fuel) := by
  induction fuel with
  | zero =>
    intro enc base r v r' ok
    exact (Decoder.succeeds_fail.mp ok).elim
  | succ fuel ih =>
    intro enc base
    exact kept_passed.decodeWith ih ⟨fun _ _ => trivial, .inl ⟨trivial, trivial⟩⟩

/-- The result of reading a value, and where the reader stands after it. -/
abbrev Ending : Type := Except Fault Value × BitReader

/-- A call of the decoder: by which encoding, against which baseline and from where. -/
structure CallSite where
  enc : Encoding
  base : Value
  reader : BitReader

def CallSite.answer (recur : Recur) (c : CallSite) : Ending := outcome (recur c.enc c.base) c.reader

/-- The decoder that gives these answers. -/
def Recur.ofAnswers (answers : CallSite → Ending) : Recur :=
  fun enc base r => answers ⟨enc, base, r⟩

/-- From `r`, a part of the decoder makes only these calls: whatever answers them as `recur` does
leads it to the same outcome. -/
def Asks {α : Type} (x : Recur → Decoder α) (recur : Recur) (r : BitReader)
    (made : List CallSite) : Prop :=
  ∀ recur', (∀ c ∈ made, c.answer recur' = c.answer recur) →
    outcome (x recur') r = outcome (x recur) r

/-- All calls that a part of the decoder makes from `r` are of a kind, and have to succeed for it to
succeed. -/
def AsksWithin {α : Type} (p : CallSite → Prop) (x : Recur → Decoder α) (recur : Recur)
    (r : BitReader) : Prop :=
  ∃ made, (∀ c ∈ made, p c) ∧ Asks x recur r made ∧ ∀ a r', Succeeds (x recur) r a r' →
    ∀ c ∈ made, ∃ v r'', Succeeds (recur c.enc c.base) c.reader v r''

section

variable {α β : Type} {p : CallSite → Prop} {recur : Recur} {r : BitReader}

theorem asksWithin_const (x : Decoder α) : AsksWithin p (fun _ => x) recur r :=
  ⟨[], by simp, fun _ _ => rfl, by simp⟩

theorem asksWithin_call {enc : Encoding} {base : Value} (here : p ⟨enc, base, r⟩) :
    AsksWithin p (fun recur => recur enc base) recur r := by
  refine ⟨[⟨enc, base, r⟩], by simpa using here, fun recur' same => ?_, fun v r' ok => ?_⟩
  · exact same _ mem_cons_self
  · exact forall_mem_singleton.mpr ⟨v, r', ok⟩

variable {x : Recur → Decoder α}

theorem AsksWithin.bind {f : Recur → α → Decoder β} (first : AsksWithin p x recur r)
    (next : ∀ a r', Succeeds (x recur) r a r' → AsksWithin p (fun recur => f recur a) recur r') :
    AsksWithin p (fun recur => x recur >>= f recur) recur r := by
  obtain ⟨made, within, only, done⟩ := first
  rcases ending : outcome (x recur) r with ⟨fault | a, r'⟩
  · refine ⟨made, within, fun recur' same => ?_, fun b r'' ok => ?_⟩
    · rw [outcome_bind, outcome_bind, only recur' same, ending]
    · obtain ⟨a, r', one, -⟩ := succeeds_bind.mp ok
      exact done a r' one
  · obtain ⟨more, within', only', done'⟩ := next a r' ending
    refine ⟨made ++ more, forall_mem_append.mpr ⟨within, within'⟩, fun recur' same => ?_,
      fun b r'' ok => ?_⟩
    · have before := only recur' fun c mem => same c (mem_append_left _ mem)
      have after := only' recur' fun c mem => same c (mem_append_right _ mem)
      rw [outcome_bind, outcome_bind, before, ending]
      exact after
    · obtain ⟨a', s, one, two⟩ := succeeds_bind.mp ok
      obtain ⟨rfl, rfl⟩ := Succeeds.unique ending one
      exact forall_mem_append.mpr ⟨done _ _ one, done' b r'' two⟩

theorem AsksWithin.map (asks : AsksWithin p x recur r) (f : α → β) :
    AsksWithin p (fun recur => f <$> x recur) recur r := by
  simp only [map_eq_pure_bind]
  exact asks.bind fun a r' _ => asksWithin_const _

theorem AsksWithin.under (asks : AsksWithin p x recur r) (step : Step) :
    AsksWithin p (fun recur => under step (x recur)) recur r := by
  obtain ⟨made, within, only, done⟩ := asks
  refine ⟨made, within, fun recur' same => ?_, fun a r' ok =>
    done a r' (Decoder.succeeds_under.mp ok)⟩
  have unfolded : ∀ d : Decoder α, outcome (Decoder.under step d) r =
      ((outcome d r).1.mapError (Fault.under step), (outcome d r).2) := fun _ => rfl
  rw [unfolded, unfolded, only recur' same]

theorem asksWithin_unless {c : Prop} [Decidable c] {cause : Cause} (asks : AsksWithin p x recur r) :
    AsksWithin p (fun recur => if c then fail cause >>= fun (_ : PUnit) => x recur else x recur)
      recur r := by
  by_cases refused : c
  · simp only [if_pos refused]
    exact (asksWithin_const (fail cause)).bind fun _ _ ok => (Decoder.succeeds_fail.mp ok).elim
  · simpa only [if_neg refused] using asks

/-- A loop makes the calls of its rounds, which start where the rounds before them stopped. -/
theorem asksWithin_repeatedFrom {f : Recur → Nat → Decoder α} (place : BitReader → Prop)
    (rounds : ∀ i r, place r → AsksWithin p (fun recur => f recur i) recur r)
    (stays : ∀ i r a r', place r → Succeeds (f recur i) r a r' → place r')
    (here : place r) (i n : Nat) (done : List α) :
    AsksWithin p (fun recur => repeatedFrom (f recur) i n done) recur r := by
  induction n generalizing r i done with
  | zero => exact asksWithin_const _
  | succ n ih =>
    refine (rounds i r here).bind fun a r' ok => ?_
    exact ih (stays i r a r' here ok) (i + 1) (a :: done)

end

/-! ## The calls of each kind -/

/-- A call in `r` by `enc` reads with so few bits to come as the relation `Call` says. -/
def Below (schema : Ir.Schema) (enc : Encoding) (r : BitReader) (c : CallSite) : Prop :=
  Call schema enc r.unread.length c.enc c.reader.unread.length

section

variable {schema : Ir.Schema} {recur : Recur} {enc : Encoding} {base : Value} {r : BitReader}

variable {element : Encoding} {bases : List (String × Value)} {d : Ir.Descriptor}

theorem length_lt_of_count {n : Nat} {r' : BitReader}
    (ok : Succeeds (readCount enc element) r (n + 1) r') : r'.unread.length < r.unread.length := by
  obtain ⟨v, read, count, -⟩ := succeeds_readCount.mp ok
  refine length_lt_of_readWord read (Or.inr ?_)
  rintro rfl
  cases count

theorem asksWithin_decodeFields (moves : Moves recur) {p : CallSite → Prop} {left : Nat}
    {name : String} {fs : List Ir.Field}
    (calls : ∀ f ∈ fs, ∀ base r, r.unread.length ≤ left → p ⟨f.encoding, base, r⟩)
    (few : r.unread.length ≤ left) :
    AsksWithin p (fun recur => decodeFields recur name bases fs) recur r := by
  induction fs generalizing r with
  | nil => exact asksWithin_const _
  | cons f fs ih =>
    have first := calls f mem_cons_self (Value.fieldOf bases f.name) r few
    refine ((asksWithin_call first).under _).bind fun v r' ok => ?_
    have fewer := (moves _ _ _ _ _ (Decoder.succeeds_under.mp ok)).length_le.trans few
    exact (ih (fun f mem => calls f (mem_cons_of_mem _ mem)) fewer).bind
      fun _ _ _ => asksWithin_const _

theorem asksWithin_decodeMessage (moves : Moves recur) {m : Ir.Message}
    (kind : enc.native.kind = .message) (descriptor : enc.native.descriptor = some d)
    (found : schema.findMessage d = .ok (some m)) :
    AsksWithin (Below schema enc r) (fun recur => decodeMessage recur m bases) recur r := by
  unfold decodeMessage
  refine asksWithin_unless (AsksWithin.bind ?_ fun _ _ _ => asksWithin_const _)
  refine asksWithin_decodeFields moves (fun f mem base r' few => ?_) le_rfl
  have field : f ∈ m.fields := (mergeSort_perm _ _).mem_iff.mp mem
  exact .field kind descriptor found field few

theorem asksWithin_decodeEnum (kind : enc.native.kind = .enum)
    (descriptor : enc.native.descriptor = some d) :
    AsksWithin (Below schema enc r) (fun recur => decodeEnum schema recur d) recur r := by
  unfold decodeEnum
  rcases found : schema.findEnum d with ⟨⟨⟩⟩ | _ | e
  · exact asksWithin_const _
  · exact asksWithin_const _
  · refine (asksWithin_const _).bind fun index r' read => ?_
    rcases hit : Ir.search (·.absent) (·.index.toUInt64 == index) e.variants with
      ⟨⟨⟩⟩ | _ | variant
    · simp only [hit]
      exact asksWithin_const _
    · simp only [hit]
      exact asksWithin_const _
    · simp only [hit]
      cases field : variant.field with
      | none => exact asksWithin_const _
      | some f =>
        have call : Below schema enc r ⟨f.encoding, .null, r'⟩ :=
          .payload kind descriptor found (Ir.mem_of_search hit) field
            ⟨(passed_readWord read).length_le, fun wide => length_lt_of_readWord read (Or.inl wide)⟩
        exact ((asksWithin_call call).under _).bind fun _ _ _ => asksWithin_const _

theorem asksWithin_array (moves : Moves recur) (kind : enc.native.kind = .array)
    (part : enc.native.element = some element) :
    AsksWithin (Below schema enc r) (fun recur => do
      let n ← readCount enc element
      Value.list <$> repeated (fun i => under (.item i) (recur element .null)) n) recur r := by
  refine (asksWithin_const (readCount enc element)).bind fun n r₁ read => ?_
  cases n with
  | zero => exact asksWithin_const _
  | succ n =>
    refine AsksWithin.map (asksWithin_repeatedFrom (·.unread.length < r.unread.length) ?_ ?_
      (length_lt_of_count read) _ _ _) _
    · intro i r₂ less
      exact (asksWithin_call (.element kind part less)).under _
    · intro i r₂ item r₃ less ok
      exact (moves _ _ _ _ _ (Decoder.succeeds_under.mp ok)).length_le.trans_lt less

theorem asksWithin_map (moves : Moves recur) {key : Encoding} (kind : enc.native.kind = .map)
    (part : enc.native.key = some key) :
    AsksWithin (Below schema enc r) (fun recur => do
      let n ← readCount enc key
      Value.map <$> repeated (fun i => do
        let k ← under (.key i) (recur key .null)
        match enc.native.value with
        | none => fail .incompleteType
        | some value => return (k, ← under (.value i) (recur value .null))) n) recur r := by
  refine (asksWithin_const (readCount enc key)).bind fun n r₁ read => ?_
  cases n with
  | zero => exact asksWithin_const _
  | succ n =>
    -- A key is read with fewer bits to come than the map, and so is what is read after it.
    have first : ∀ {i r₂ k r₃}, r₂.unread.length < r.unread.length →
        Succeeds (Decoder.under (.key i) (recur key .null)) r₂ k r₃ →
        r₃.unread.length < r.unread.length := fun less ok =>
      (moves _ _ _ _ _ (Decoder.succeeds_under.mp ok)).length_le.trans_lt less
    refine AsksWithin.map (asksWithin_repeatedFrom (·.unread.length < r.unread.length) ?_ ?_
      (length_lt_of_count read) _ _ _) _
    · intro i r₂ less
      refine ((asksWithin_call (.key kind part less)).under _).bind fun k r₃ ok => ?_
      cases values : enc.native.value with
      | none => exact asksWithin_const _
      | some value =>
        exact ((asksWithin_call (.value kind values (first less ok))).under _).bind
          fun _ _ _ => asksWithin_const _
    · intro i r₂ entry r₄ less ok
      obtain ⟨k, r₃, one, rest⟩ := succeeds_bind.mp ok
      have fewer := first less one
      cases values : enc.native.value with
      | none =>
        simp only [values] at rest
        exact (Decoder.succeeds_fail.mp rest).elim
      | some value =>
        simp only [values, succeeds_bind, succeeds_pure, Decoder.succeeds_under] at rest
        obtain ⟨v, r₅, two, -, rfl⟩ := rest
        exact (moves _ _ _ _ _ two).length_le.trans_lt fewer

theorem asksWithin_decodeBody (moves : Moves recur) :
    AsksWithin (Below schema enc r) (fun recur => decodeBody schema recur enc base) recur r := by
  unfold decodeBody
  cases kind : enc.native.kind with
  | bool | int | float | string | bytes | other name => exact asksWithin_const _
  | array =>
    cases part : enc.native.element with
    | none => exact asksWithin_const _
    | some element => exact asksWithin_array moves kind part
  | map =>
    cases part : enc.native.key with
    | none => exact asksWithin_const _
    | some key => exact asksWithin_map moves kind part
  | message =>
    cases descriptor : enc.native.descriptor with
    | none => exact asksWithin_const _
    | some d =>
      dsimp only
      rcases found : schema.findMessage d with ⟨⟨⟩⟩ | _ | m
      · exact asksWithin_const _
      · exact asksWithin_const _
      · exact asksWithin_decodeMessage moves kind descriptor found
  | enum =>
    cases descriptor : enc.native.descriptor with
    | none => exact asksWithin_const _
    | some d => exact asksWithin_decodeEnum kind descriptor

/-- All calls that the decoder makes for a value are below it. -/
theorem asksWithin_decodeWith (moves : Moves recur) :
    AsksWithin (Below schema enc r) (fun recur => decodeWith schema recur enc base) recur r := by
  unfold decodeWith
  exact (asksWithin_decodeBody moves).bind fun _ _ _ => asksWithin_const _

/-- A run by `recur` is a run by `recur'` if `recur'` follows in the calls that are made. -/
theorem decodeWith_follows {recur' : Recur} {v : Value} {r' : BitReader} (moves : Moves recur)
    (follows : ∀ inner left, Call schema enc r.unread.length inner left →
      Follows recur recur' inner left)
    (ok : Succeeds (decodeWith schema recur enc base) r v r') :
    Succeeds (decodeWith schema recur' enc base) r v r' := by
  have asks : AsksWithin (Below schema enc r) (decodeWith schema · enc base) recur r :=
    asksWithin_decodeWith moves
  obtain ⟨made, within, only, done⟩ := asks
  rw [Succeeds, only recur' fun c mem => ?_]
  · exact ok
  · obtain ⟨v, r', answered⟩ := done _ _ ok c mem
    exact (follows _ _ (within c mem) _ _ _ _ rfl answered).trans answered.symm

end

end BitSchema.Codec
