import BitSchema.Proofs.Messages
import BitSchema.Proofs.Octets

/-!
# Canonical bytes

Where no transform is a delta, no two byte strings stand for the same message: whatever the decoder
reads, the encoder writes again bit by bit.  Every slack of the format has to be refused for that,
so the proof follows the decoder, by induction on its fuel and with one lemma for each kind of
value.
-/

namespace BitSchema.Codec

open List
open Ir (Encoding Transform)
open Encoder (word)

/-- The bits between two places of a reader are those that `write` appends, to any writer. -/
def Reproduces (r r' : BitReader) (write : BitWriter → BitWriter → Prop) : Prop :=
  ∃ bs, r.unread = bs ++ r'.unread ∧ ∀ w, w.Sound → ∃ w', write w w' ∧ Appended w w' bs

namespace Reproduces

variable {r r₁ r' : BitReader} {write next : BitWriter → BitWriter → Prop}

theorem refl (r : BitReader) : Reproduces r r (· = ·) :=
  ⟨[], rfl, fun w sound => ⟨w, rfl, Appended.refl sound⟩⟩

theorem trans (first : Reproduces r r₁ write) (second : Reproduces r₁ r' next) :
    Reproduces r r' fun w w' => ∃ w₁, write w w₁ ∧ next w₁ w' := by
  obtain ⟨bs, unread, writes⟩ := first
  obtain ⟨bs', unread', writes'⟩ := second
  refine ⟨bs ++ bs', by rw [unread, unread', append_assoc], fun w sound => ?_⟩
  obtain ⟨w₁, head, appended⟩ := writes w sound
  obtain ⟨w', tail, appended'⟩ := writes' w₁ appended.sound
  exact ⟨w', ⟨w₁, head, tail⟩, appended.trans appended'⟩

theorem imp (reproduces : Reproduces r r' write) (step : ∀ {w w'}, write w w' → next w w') :
    Reproduces r r' next := by
  obtain ⟨bs, unread, writes⟩ := reproduces
  refine ⟨bs, unread, fun w sound => ?_⟩
  obtain ⟨w', written, appended⟩ := writes w sound
  exact ⟨w', step written, appended⟩

end Reproduces

variable {r r' : BitReader}

/-- What was read for the elements of a list is reproduced element by element. -/
theorem reproduces_threaded {α : Type} {read : α → BitReader → BitReader → Prop}
    {write : α → BitWriter → BitWriter → Prop} {as : List α} (run : Threaded read as r r')
    (steps : ∀ a ∈ as, ∀ r r', read a r r' → Reproduces r r' (write a)) :
    Reproduces r r' (Threaded write as) := by
  induction as generalizing r with
  | nil =>
    obtain rfl := threaded_nil.mp run
    exact Reproduces.refl r
  | cons a as ih =>
    obtain ⟨r₁, first, rest⟩ := threaded_cons.mp run
    have head := steps a mem_cons_self r r₁ first
    exact head.trans (ih rest fun b mem => steps b (mem_cons_of_mem _ mem))

/-! ## Words and octets -/

variable {n : UInt32} {v : UInt64} {enc : Encoding}

section

variable (read : Succeeds (readWord n) r v r')

include read

theorem toNat_lt_of_readWord : v.toNat < 2 ^ n.toNat := by
  obtain ⟨narrow, held, rfl, -⟩ := succeeds_readWord.mp read
  have small := valueOf_lt (r.unread.take n.toNat)
  rw [length_take_of_le held] at small
  rwa [UInt64.toNat_ofNat_of_lt' (small.trans_le (Nat.pow_le_pow_right (by decide) narrow))]

/-- A word was read from its own bits. -/
theorem unread_of_readWord : r.unread = bitsOf v.toNat n.toNat ++ r'.unread := by
  obtain ⟨narrow, held, rfl, rfl⟩ := succeeds_readWord.mp read
  have small := valueOf_lt (r.unread.take n.toNat)
  have bits := bitsOf_valueOf (r.unread.take n.toNat)
  rw [length_take_of_le held] at small bits
  rw [UInt64.toNat_ofNat_of_lt' (small.trans_le (Nat.pow_le_pow_right (by decide) narrow)), bits,
    BitReader.unread_advance, take_append_drop]

/-- A word that agrees with the one that was read in as many bits. -/
theorem reproduces_word {u : UInt64} (same : u.toNat % 2 ^ n.toNat = v.toNat) :
    Reproduces r r' fun w w' => Succeeds (word u n.toNat) w () w' := by
  obtain ⟨narrow, -⟩ := succeeds_readWord.mp read
  refine ⟨bitsOf u.toNat n.toNat, ?_, fun w sound => ?_⟩
  · rw [unread_of_readWord read, ← same, bitsOf_mod]
  · exact ⟨_, succeeds_word.mpr ⟨narrow, rfl⟩, Appended.writeBits sound _ _⟩

end

theorem reproduces_length (read : Succeeds (readWord enc.wire.prefixBits) r v r') :
    Reproduces r r' fun w w' => Succeeds (writeLength enc v.toNat) w () w' := by
  obtain ⟨narrow, -⟩ := succeeds_readWord.mp read
  refine ⟨_, unread_of_readWord read, fun w sound => ?_⟩
  exact ⟨_, succeeds_writeLength.mpr ⟨narrow, toNat_lt_of_readWord read, rfl⟩,
    Appended.writeBits sound _ _⟩

theorem reproduces_count {element : Encoding} {n : Nat}
    (read : Succeeds (readCount enc element) r n r') :
    Reproduces r r' fun w w' => Succeeds (writeLength enc n) w () w' := by
  obtain ⟨v, first, rfl, -⟩ := succeeds_readCount.mp read
  exact reproduces_length first

theorem reproduces_octets {octets : List UInt8} (read : Succeeds (readOctets enc) r octets r') :
    Reproduces r r' fun w w' => Succeeds (writeOctets enc octets) w () w' := by
  obtain ⟨n, r₁, first, length, content, rfl⟩ := succeeds_readOctets.mp read
  have tail : Reproduces r₁ (r₁.advance (8 * n.toNat))
      fun w w' => w' = w.writeBytes octets := by
    refine ⟨octetBits octets, ?_, fun w sound => ⟨_, rfl, Appended.writeBytes sound octets⟩⟩
    rw [content, BitReader.unread_advance, take_append_drop]
  refine ((reproduces_length first).trans tail).imp fun {w w'} written => ?_
  rw [← length] at written
  exact succeeds_writeOctets.mpr written

/-! ## Numbers -/

/-- Between integers, the only transform that is not a delta is a zig-zag. -/
theorem zigZag_of_stepDomain {t : Transform} {d next : Domain} (exact : d ≠ .float)
    (plain : t.kind ≠ .delta) (step : stepDomain t d = .ok next) :
    t.kind = .zigZag ∧ next ≠ .float := by
  unfold stepDomain at step
  cases kind : t.kind with
  | delta => exact absurd kind plain
  | fixedPoint => cases d <;> simp [kind] at step exact
  | zigZag =>
    cases d <;> simp [kind] at step
    subst step
    exact ⟨rfl, nofun⟩
  | other name => simp [kind] at step

variable {last : Domain} {raw : UInt64}

theorem zigZags_of_domains {ts : List Transform} {d : Domain} {befores : List Domain}
    (exact : d ≠ .float) (plain : hasDelta ts = false) (ends : domains ts d = .ok (befores, last)) :
    (∀ t ∈ ts, t.kind = .zigZag) ∧ last ≠ .float := by
  induction ts generalizing d befores with
  | nil =>
    cases ends
    exact ⟨by simp, exact⟩
  | cons t ts ih =>
    obtain ⟨next, befores, rfl, step, ends⟩ := domains_cons_ok_iff.mp ends
    simp only [hasDelta, any_cons, Bool.or_eq_false_iff, beq_eq_false_iff_ne] at plain
    obtain ⟨kind, nextExact⟩ := zigZag_of_stepDomain exact plain.1 step
    obtain ⟨kinds, lastExact⟩ := ih nextExact plain.2 ends
    exact ⟨forall_mem_cons.mpr ⟨kind, kinds⟩, lastExact⟩

namespace Number

variable {n : Number} {bits more : Nat}

/-- A number that fits a width fits a greater one. -/
theorem Fits.mono (fits : n.Fits bits) (exact : n.domain ≠ .float) (some : 1 ≤ bits)
    (narrow : bits ≤ 64) (le : bits ≤ more) : n.Fits more := by
  cases n with
  | unsigned n =>
    by_cases wide : 64 ≤ more
    · simp [Fits, Word.fitsUnsigned, wide]
    · have small := (Word.fitsUnsigned_iff narrow).mp fits
      refine (Word.fitsUnsigned_iff (by omega)).mpr (small.trans_le ?_)
      exact Nat.pow_le_pow_right (by decide) le
  | signed n =>
    by_cases wide : 64 ≤ more
    · simp [Fits, Word.fitsSigned, wide]
    · have range := (Word.fitsSigned_iff some narrow).mp fits
      have half : (2 : Int) ^ (bits - 1) ≤ 2 ^ (more - 1) :=
        pow_le_pow_right₀ (by decide) (by omega)
      refine (Word.fitsSigned_iff (by omega) (by omega)).mpr ?_
      omega
  | float n => exact absurd rfl exact

/-- Running a zig-zag back keeps the width of a number. -/
theorem fits_backward_iff {t : Transform} {base : Number} (kind : t.kind = .zigZag)
    (some : 1 ≤ bits) (narrow : bits ≤ 64) : (backward t n base).Fits bits ↔ n.Fits bits := by
  cases n with
  | unsigned u =>
    have same := Word.fitsUnsigned_zigZag_iff (v := Word.unZigZag u) some narrow
    rw [Word.zigZag_unZigZag] at same
    simpa [backward, kind, Fits] using same.symm
  | signed n | float n => simp [backward, kind]

theorem Fits.unrun {ts : List Transform} {bases : List Number} (fits : n.Fits bits)
    (kinds : ∀ t ∈ ts, t.kind = .zigZag) (some : 1 ≤ bits) (narrow : bits ≤ 64) :
    (unrun ts bases n).Fits bits := by
  induction ts generalizing bases with
  | nil => simpa [Codec.unrun] using fits
  | cons t ts ih =>
    cases bases with
    | nil => simpa [Codec.unrun] using fits
    | cons base bases =>
      have inner : (Codec.unrun ts bases n).Fits bits :=
        ih fun t mem => kinds t (mem_cons_of_mem _ mem)
      exact (fits_backward_iff (kinds t mem_cons_self) some narrow).mpr inner

end Number

theorem loadNumber_toValue {native : Ir.NativeType} {n : Number}
    (domain : n.domain = nativeDomain native) (exact : n.domain ≠ .float)
    (fits : n.Fits native.bits.toNat) : loadNumber native n.toValue = .ok n := by
  cases n with
  | unsigned m => exact (loadNumber_unsigned_iff domain.symm).mpr ⟨m, rfl, rfl, fits⟩
  | signed m => exact (loadNumber_signed_iff domain.symm).mpr ⟨m, rfl, rfl, fits⟩
  | float m => exact absurd rfl exact

/-- An integer that was read fits the width it was read in, and is written as the same word. -/
theorem word_of_ofWord {d : Domain} {bits : Nat} {n : Number} (exact : d ≠ .float) (some : 1 ≤ bits)
    (narrow : bits ≤ 64) (small : raw.toNat < 2 ^ bits) (ok : ofWord d raw bits = .ok n) :
    n.domain = d ∧ n.Fits bits ∧ (n.word bits).toNat % 2 ^ bits = raw.toNat := by
  cases d with
  | unsigned =>
    cases ok
    exact ⟨rfl, (Word.fitsUnsigned_iff narrow).mpr small, Nat.mod_eq_of_lt small⟩
  | signed =>
    cases ok
    refine ⟨rfl, Word.fitsSigned_signExtend raw some narrow, ?_⟩
    rw [Number.word, Word.toUInt64_signExtend_mod raw some narrow, Nat.mod_eq_of_lt small]
  | float => exact absurd rfl exact

/-- Whatever number the decoder gives, the encoder transforms into what was read. -/
theorem transformed_of_prepared {base : Value} {bases : List Number} {n : Number}
    (integer : nativeDomain enc.native ≠ .float) (plain : hasDelta enc.transforms = false)
    (some : 1 ≤ enc.wire.bits.toNat) (narrow : enc.wire.bits.toNat ≤ 64)
    (within : enc.wire.bits.toNat ≤ enc.native.bits.toNat)
    (small : raw.toNat < 2 ^ enc.wire.bits.toNat) (ready : prepared enc base = .ok (last, bases))
    (ok : ofWord last raw enc.wire.bits.toNat = .ok n) :
    transformed enc (unrun enc.transforms bases n).toValue base = .ok n ∧
      n.Fits enc.wire.bits.toNat ∧
      (n.word enc.wire.bits.toNat).toNat % 2 ^ enc.wire.bits.toNat = raw.toNat := by
  obtain ⟨befores, b, lastBase, ends, baseline, ran⟩ := prepared_ok_iff.mp ready
  obtain ⟨kinds, exact⟩ := zigZags_of_domains integer plain ends
  obtain ⟨rfl, fits, same⟩ := word_of_ofWord exact some narrow small ok
  obtain ⟨domain, again⟩ := run_unrun kinds ends ran
  have nativeExact : (unrun enc.transforms bases n).domain ≠ .float := domain ▸ integer
  have back : (unrun enc.transforms bases n).Fits enc.wire.bits.toNat :=
    fits.unrun kinds some narrow
  have loaded := loadNumber_toValue domain nativeExact (back.mono nativeExact some narrow within)
  exact ⟨transformed_ok_iff.mpr ⟨_, b, bases, loaded, baseline, again⟩, fits, same⟩

/-! ## Depths and names -/

namespace Value

theorem depth_pos (v : Value) : 1 ≤ v.depth := by
  cases v <;> simp [depth]

theorem depth_le_depthItems {v : Value} {items : List Value} (mem : v ∈ items) :
    v.depth ≤ depthItems items :=
  le_of_max (fun _ _ => by rw [depthItems]) mem

theorem depth_le_depthEntries {entry : Value × Value} {entries : List (Value × Value)}
    (mem : entry ∈ entries) : max entry.1.depth entry.2.depth ≤ depthEntries entries :=
  le_of_max (f := fun e => max e.1.depth e.2.depth) (fun _ _ => by rw [depthEntries]) mem

variable {field : String × Value} {fields : List (String × Value)}

theorem depth_le_depthFields (mem : field ∈ fields) : field.2.depth ≤ depthFields fields :=
  le_of_max (f := fun f => f.2.depth) (fun _ _ => by rw [depthFields]) mem

/-- Fields of different names are found by their names. -/
theorem fieldOf_of_nodup (distinct : (fields.map Prod.fst).Nodup) (mem : field ∈ fields) :
    fieldOf fields field.1 = field.2 := by
  induction fields with
  | nil => cases mem
  | cons first fields ih =>
    rw [map_cons, nodup_cons] at distinct
    rcases mem_cons.mp mem with rfl | mem
    · simp [fieldOf]
    · have other : first.1 ≠ field.1 := by
        intro same
        exact distinct.1 (same ▸ mem_map_of_mem mem)
      have rest := ih distinct.2 mem
      simpa [fieldOf, find?_cons, other] using rest

end Value

/-- The encoder finds a variant by its name. -/
theorem variantNamed_name {e : Ir.Enum} (indexed : e.Indexed)
    (distinct : (e.variants.map (·.name)).Nodup) {v : Ir.Variant} (mem : v ∈ e.variants)
    (named : v.name ≠ "") : variantNamed e (Octets.ofString v.name) = .ok (some v) := by
  have nonempty : (Octets.ofString v.name).isEmpty = false := by
    have empty : Octets.ofString "" = [] := toList_loop _ 0 []
    rw [isEmpty_eq_false_iff, ← empty, Ne, Octets.ofString_inj]
    exact named
  rw [variantNamed, nonempty]
  refine Ir.search_of_nodup indexed.present distinct (fun other _ => ?_) mem
  rw [beq_iff_eq, Octets.ofString_inj]

/-! ## Values by kind -/

/-- One level of an encoding that leaves no choice: an integer takes no more bits on the wire than
its type has, and nothing depends on a baseline. -/
structure Strict (e : Encoding) : Prop extends e.Fits where
  within : e.native.kind = .int → e.wire.bits.toNat ≤ e.native.bits.toNat
  deltaFree : hasDelta e.transforms = false

/-- What `read` read, `write` writes again, for values up to a depth. -/
def Rewrites (write : Encoding → Value → Value → Encoder) (read : Encoding → Value → Decoder Value)
    (depth : Nat) : Prop :=
  ∀ enc base r v r', enc.Throughout Strict → v.depth ≤ depth → Succeeds (read enc base) r v r' →
    Reproduces r r' fun w w' => Succeeds (write enc v base) w () w'

section

variable {schema : Ir.Schema} {write : Encoding → Value → Value → Encoder}
  {read : Encoding → Value → Decoder Value} {depth : Nat} {enc : Encoding} {v base : Value}

/-- The body of a value, as it was read, is written again. -/
def RewritesBody (schema : Ir.Schema) (write : Encoding → Value → Value → Encoder)
    (read : Encoding → Value → Decoder Value) (enc : Encoding) (v base : Value) : Prop :=
  ∀ {r r'}, Succeeds (decodeBody schema read enc base) r v r' →
    Reproduces r r' fun w w' => Succeeds (encodeBody schema write enc v base) w () w'

theorem rewrites_bool (kind : enc.native.kind = .bool) :
    RewritesBody schema write read enc v base := by
  intro r r' ok
  obtain ⟨n, word, small, rfl⟩ := (succeeds_decodeBody_bool kind).mp ok
  have bit : (if n == 1 then 1 else 0) = n := by
    have cases : n.toNat = 0 ∨ n.toNat = 1 := by
      have : n.toNat ≤ 1 := small
      omega
    rcases cases with zero | one
    · rw [show n = 0 from UInt64.toNat_inj.mp zero]; rfl
    · rw [show n = 1 from UInt64.toNat_inj.mp one]; rfl
  have again := reproduces_word word (Nat.mod_eq_of_lt (toNat_lt_of_readWord word))
  refine again.imp fun written => (succeeds_encodeBody_bool kind).mpr ⟨_, rfl, ?_⟩
  rwa [bit]

theorem rewrites_integer (kind : enc.native.kind = .int) (strict : Strict enc) :
    RewritesBody schema write read enc v base := by
  intro r r' ok
  have number := (succeeds_decodeBody_number (Or.inl kind)).mp ok
  obtain ⟨last, bases, raw, n, ready, word, shape, rfl⟩ := succeeds_decodeNumber.mp number
  obtain ⟨some, narrow⟩ := strict.bits (by simp [kind])
  have integer : nativeDomain enc.native ≠ .float := by
    cases signed : enc.native.signed <;> simp [nativeDomain, kind, signed]
  obtain ⟨transformed, fits, same⟩ := transformed_of_prepared integer strict.deltaFree some narrow
    (strict.within kind) (toNat_lt_of_readWord word) ready shape
  refine (reproduces_word word same).imp fun written => ?_
  obtain ⟨-, rfl⟩ := succeeds_word.mp written
  refine (succeeds_encodeBody_number (Or.inl kind)).mpr ?_
  exact succeeds_encodeNumber.mpr ⟨n, transformed, succeeds_writeNumber.mpr ⟨fits, narrow, rfl⟩⟩

theorem rewrites_string (kind : enc.native.kind = .string) :
    RewritesBody schema write read enc v base := by
  intro r r' ok
  obtain ⟨octets, content, -, rfl⟩ := (succeeds_decodeBody_string kind).mp ok
  exact (reproduces_octets content).imp fun written =>
    (succeeds_encodeBody_string kind).mpr ⟨octets, rfl, written⟩

theorem rewrites_bytes (kind : enc.native.kind = .bytes) :
    RewritesBody schema write read enc v base := by
  intro r r' ok
  obtain ⟨octets, content, rfl⟩ := (succeeds_decodeBody_bytes kind).mp ok
  exact (reproduces_octets content).imp fun written =>
    (succeeds_encodeBody_bytes kind).mpr ⟨octets, rfl, written⟩

theorem rewrites_array (inner : Rewrites write read depth) (kind : enc.native.kind = .array)
    (strict : enc.Throughout Strict) (shallow : v.depth ≤ depth + 1) :
    RewritesBody schema write read enc v base := by
  intro r r' ok
  obtain ⟨element, items, r₁, elements, count, run, rfl⟩ := (succeeds_decodeBody_array kind).mp ok
  rw [Value.depth] at shallow
  have each : ∀ item ∈ items, ∀ r r', DecodesAs read element item r r' →
      Reproduces r r' (EncodesAs write element item) := by
    intro item mem r r' ok
    have within := Value.depth_le_depthItems mem
    exact inner _ _ _ _ _ (strict.element elements) (by omega) ok
  refine ((reproduces_count count).trans (reproduces_threaded run each)).imp ?_
  intro w w' ⟨w₁, length, written⟩
  exact (succeeds_encodeBody_array kind).mpr
    ⟨items, w₁, rfl, length, Or.inr ⟨element, elements, written⟩⟩

theorem rewrites_map (inner : Rewrites write read depth) (kind : enc.native.kind = .map)
    (strict : enc.Throughout Strict) (shallow : v.depth ≤ depth + 1) :
    RewritesBody schema write read enc v base := by
  intro r r' ok
  obtain ⟨key, entries, r₁, keys, count, run, rfl⟩ := (succeeds_decodeBody_map kind).mp ok
  rw [Value.depth] at shallow
  rcases run with ⟨rfl, rfl⟩ | ⟨value, values, run⟩
  · refine (reproduces_count count).imp fun {w w'} length => ?_
    exact (succeeds_encodeBody_map kind).mpr ⟨[], w', rfl, length, Or.inl ⟨rfl, rfl⟩⟩
  · have each : ∀ entry ∈ entries, ∀ r r', DecodesEntry read key value entry r r' →
        Reproduces r r' (EncodesEntry write key value entry) := by
      intro entry mem r r' ⟨r₁, first, second⟩
      have within := Value.depth_le_depthEntries mem
      exact (inner _ _ _ _ _ (strict.key keys) (by omega) first).trans
        (inner _ _ _ _ _ (strict.value values) (by omega) second)
    refine ((reproduces_count count).trans (reproduces_threaded run each)).imp ?_
    intro w w' ⟨w₁, length, written⟩
    exact (succeeds_encodeBody_map kind).mpr
      ⟨entries, w₁, rfl, length, Or.inr ⟨key, value, keys, values, written⟩⟩

theorem rewrites_message (codable : schema.Codable) (strict : ∀ e ∈ schema.encodings, Strict e)
    (inner : Rewrites write read depth) (kind : enc.native.kind = .message)
    (shallow : v.depth ≤ depth + 1) : RewritesBody schema write read enc v base := by
  intro r r' ok
  obtain ⟨d, m, descriptor, found, message⟩ := (succeeds_decodeBody_message kind).mp ok
  obtain ⟨present, vs, length, run, rfl⟩ := succeeds_decodeMessage.mp message
  have names : (((sortedFields m).map (·.name)).zip vs).map Prod.fst =
      (sortedFields m).map (·.name) :=
    map_fst_zip (by rw [length_map, length])
  have distinct : ((((sortedFields m).map (·.name)).zip vs).map Prod.fst).Nodup := by
    rw [names]
    exact ((sortedFields_perm m).map _).nodup_iff.mpr
      (codable.fieldNames m (Ir.Schema.mem_allMessages found))
  rw [messageValue_of_nodup distinct] at shallow ⊢
  rw [Value.depth] at shallow
  have each : ∀ p ∈ (sortedFields m).zip vs, ∀ r r',
      DecodesField read (base.asFields?.getD []) p r r' →
      Reproduces r r' (EncodesField write (((sortedFields m).map (·.name)).zip vs)
        (base.asFields?.getD []) p.1) := by
    intro p mem r r' ok
    have field : (p.1.name, p.2) ∈ ((sortedFields m).map (·.name)).zip vs := by
      rw [zip_map_left]
      exact mem_map_of_mem mem
    have within := Value.depth_le_depthFields field
    have member := (sortedFields_perm m).mem_iff.mp (of_mem_zip mem).1
    unfold EncodesField
    rw [Value.fieldOf_of_nodup distinct field]
    exact inner _ _ _ _ _ (Ir.Schema.throughout_field strict found member) (by omega) ok
  refine (reproduces_threaded run each).imp fun {w w'} written => ?_
  refine (succeeds_encodeBody_message kind).mpr ⟨d, m, _, descriptor, found, rfl, ?_⟩
  exact succeeds_encodeMessage.mpr ⟨present, (threaded_zip_left length).mp written⟩

section

variable (wellFormed : schema.WellFormed) (strict : ∀ e ∈ schema.encodings, Strict e)
  (inner : Rewrites write read depth)

include wellFormed strict inner

theorem rewrites_enum (kind : enc.native.kind = .enum)
    (shallow : v.depth ≤ depth + 1) : RewritesBody schema write read enc v base := by
  intro r r' ok
  obtain ⟨d, descriptor, enum⟩ := (succeeds_decodeBody_enum kind).mp ok
  obtain ⟨e, index, r₁, variant, found, word, hit, rest⟩ := succeeds_decodeEnum.mp enum
  have declared := Ir.Schema.mem_allEnums found
  have mem := Ir.mem_of_search hit
  obtain ⟨distinct, named⟩ := wellFormed.variantNames e declared
  have again := variantNamed_name (wellFormed.enums e declared) distinct mem (named variant mem)
  obtain ⟨-, -, -, -, -, isIndex⟩ := Ir.search_eq_some_iff.mp hit
  obtain rfl : variant.index.toUInt64 = index := by simpa using isIndex
  have head := reproduces_word word (Nat.mod_eq_of_lt (toNat_lt_of_readWord word))
  cases field : variant.field with
  | none =>
    simp only [field] at rest
    obtain ⟨rfl, rfl⟩ := rest
    refine head.imp fun {w w'} written => ?_
    refine (succeeds_encodeBody_enum kind).mpr ⟨d, descriptor, ?_⟩
    refine succeeds_encodeEnum.mpr ⟨e, _, _, variant, w', found, rfl, again, written, ?_⟩
    simp only [field]
    exact ⟨rfl, trivial⟩
  | some f =>
    simp only [field] at rest
    obtain ⟨payload, rfl, payloadOk⟩ := rest
    rw [Value.depth] at shallow
    have tail := inner _ _ _ _ _ (Ir.Schema.throughout_payload strict found mem field)
      (by omega) payloadOk
    refine (head.trans tail).imp fun {w w'} ⟨w₁, written, inside⟩ => ?_
    refine (succeeds_encodeBody_enum kind).mpr ⟨d, descriptor, ?_⟩
    refine succeeds_encodeEnum.mpr ⟨e, _, _, variant, w₁, found, rfl, again, written, ?_⟩
    simp only [field]
    exact inside

theorem rewrites_body (all : enc.Throughout Strict)
    (shallow : v.depth ≤ depth + 1) : RewritesBody schema write read enc v base := by
  intro r r' ok
  have exact := all.here.kind
  cases kind : enc.native.kind with
  | bool => exact rewrites_bool kind ok
  | int => exact rewrites_integer kind all.here ok
  | string => exact rewrites_string kind ok
  | bytes => exact rewrites_bytes kind ok
  | array => exact rewrites_array inner kind all shallow ok
  | map => exact rewrites_map inner kind all shallow ok
  | message => exact rewrites_message wellFormed.toCodable strict inner kind shallow ok
  | enum => exact rewrites_enum wellFormed strict inner kind shallow ok
  | float | other name => simp [kind, Ir.NativeKind.exact] at exact

/-- The padding that was read is all zeros, and so is the padding that is written. -/
theorem rewrites_with :
    Rewrites (encodeWith schema write) (decodeWith schema read) (depth + 1) := by
  intro enc base r v r' all shallow ok
  obtain ⟨r₁, body, zeros, rfl⟩ := succeeds_decodeWith.mp ok
  have padded : Reproduces r₁ (r₁.advance (padding enc)) fun w w' =>
      w' = enc.paddingBits.elim w fun n => w.pad n.toNat := by
    refine ⟨List.replicate (padding enc) false, ?_, fun w sound => ⟨_, rfl, ?_⟩⟩
    · rw [← zeros, BitReader.unread_advance, take_append_drop]
    · unfold padding
      cases enc.paddingBits with
      | none => exact Appended.refl sound
      | some n => exact Appended.pad sound n.toNat
  have head := rewrites_body wellFormed strict inner all shallow body
  refine (head.trans padded).imp fun {w w'} written => succeeds_encodeWith.mpr ?_
  obtain ⟨w₁, first, rfl⟩ := written
  refine ⟨w₁, first, ?_⟩
  cases enc.paddingBits with
  | none | some n => rfl

end

end

variable {schema : Ir.Schema} {d : Ir.Descriptor}

/-- A value is written back as the bits that it was read from. -/
theorem rewrites_value (wellFormed : schema.WellFormed)
    (strict : ∀ e ∈ schema.encodings, Strict e) (fuel depth : Nat) :
    Rewrites (encodeValue schema depth) (decodeValue schema fuel) depth := by
  induction fuel generalizing depth with
  | zero =>
    intro enc base r v r' all shallow ok
    exact (Decoder.succeeds_fail.mp ok).elim
  | succ fuel ih =>
    cases depth with
    | zero =>
      intro enc base r v r' all shallow ok
      have := v.depth_pos
      omega
    | succ depth => exact rewrites_with wellFormed strict (ih depth)

/-! ## Messages -/

theorem strict_embed (d : Ir.Descriptor) : (embed d).Throughout Strict :=
  throughout_embed ⟨(formed_embed d).here, by simp [embed], rfl⟩

theorem message_of_decode {bases : Fields} {v : Value}
    (ok : Succeeds (decode schema d bases) r v r') : ∃ fields, v = .message fields := by
  have body := succeeds_decode.mp ok
  rw [decodeValue, succeeds_decodeWith] at body
  obtain ⟨r₁, body, -⟩ := body
  obtain ⟨d, m, -, -, message⟩ := (succeeds_decodeBody_message rfl).mp body
  obtain ⟨-, vs, -, -, rfl⟩ := succeeds_decodeMessage.mp message
  exact ⟨_, rfl⟩

/-- Bytes that stand for a message are the bytes of that message. -/
theorem marshal_of_unmarshal (wellFormed : schema.WellFormed)
    (strict : ∀ e ∈ schema.encodings, Strict e) {data : Array UInt8} {v : Value}
    (ok : unmarshal schema d data = .ok v) :
    ∃ fields, v = .message fields ∧ marshal schema d fields = .ok data := by
  obtain ⟨r, read, few, zeros⟩ := unmarshal_ok_iff.mp ok
  obtain ⟨fields, rfl⟩ := message_of_decode read
  have fuel : (Value.message fields).depth ≤ encodeFuel schema fields + 1 := by
    unfold encodeFuel
    have : (Value.message fields).depth * 1 ≤
        ((Value.message fields).depth + 1) * (schema.definitionCount + 2) :=
      Nat.mul_le_mul (by omega) (by omega)
    omega
  obtain ⟨bs, unread, writes⟩ := rewrites_value wellFormed strict _ _ _ _ _ _ _ (strict_embed d)
    fuel (succeeds_decode.mp read)
  obtain ⟨w, written, appended⟩ := writes BitWriter.empty BitWriter.sound_empty
  refine ⟨fields, rfl, marshal_ok_iff.mpr ⟨w, succeeds_encode.mpr written, ?_⟩⟩
  refine appended.sound.toBytes_align_eq few ?_
  rw [appended.bits, BitWriter.bits_empty, nil_append, ← zeros, ← unread]
  rfl

/-- Without deltas the format is canonical: whatever bytes can be read, they are exactly the bytes
that the message they stand for is written as, and so no others stand for it. -/
theorem marshal_unmarshal (wellFormed : schema.WellFormed)
    (within : ∀ e ∈ schema.encodings, e.native.kind = .int →
      e.wire.bits.toNat ≤ e.native.bits.toNat)
    (deltaFree : ∀ e ∈ schema.encodings, hasDelta e.transforms = false) {data : Array UInt8}
    {v : Value} (ok : unmarshal schema d data = .ok v) :
    (∃ fields, v = .message fields ∧ marshal schema d fields = .ok data) ∧
      ∀ data', unmarshal schema d data' = .ok v → data' = data := by
  have strict : ∀ e ∈ schema.encodings, Strict e := fun e mem =>
    ⟨wellFormed.encodings e mem, within e mem, deltaFree e mem⟩
  obtain ⟨fields, rfl, marshalled⟩ := marshal_of_unmarshal wellFormed strict ok
  refine ⟨⟨fields, rfl, marshalled⟩, fun data' ok' => ?_⟩
  obtain ⟨fields', same, marshalled'⟩ := marshal_of_unmarshal wellFormed strict ok'
  cases same
  exact Except.ok.inj (marshalled'.symm.trans marshalled)

/-- A message of an array of an enum, one of whose variants holds a padded number. -/
def signalSchema : Ir.Schema :=
  let level : Encoding :=
    { wire := .ofBits 5, native := { kind := .int, bits := 8, signed := true },
      transforms := [.zigZag], paddingBits := some 2 }
  let signal : Ir.Enum :=
    { name := "Signal", discriminant := { wire := .ofBits 2, native := { kind := .int, bits := 2 } }
      variants? := some [{ name := "off" },
        { name := "on", index := 3, field := some { name := "on", encoding := level } }] }
  let element : Encoding :=
    { wire := .embedded, native := { kind := .enum, descriptor := some ⟨"p", [], "Signal"⟩ } }
  let signals : Encoding :=
    { wire := .lengthPrefixed 4, native := { kind := .array, element := some element } }
  let log : Ir.Message :=
    { name := "Log", fields? := some [{ name := "signals", encoding := signals }] }
  { packages? := some [{ path := "p", messages? := some [log], enums? := some [signal] }] }

theorem marshal_unmarshal_signals :
    ∃ v, unmarshal signalSchema ⟨"p", [], "Log"⟩ #[242, 2] = .ok v ∧
      (∃ fields, v = .message fields ∧
        marshal signalSchema ⟨"p", [], "Log"⟩ fields = .ok #[242, 2]) ∧
      ∀ data', unmarshal signalSchema ⟨"p", [], "Log"⟩ data' = .ok v → data' = #[242, 2] := by
  have read : (unmarshal signalSchema ⟨"p", [], "Log"⟩ #[242, 2]).isOk = true := by decide +kernel
  cases ok : unmarshal signalSchema ⟨"p", [], "Log"⟩ #[242, 2] with
  | error fault =>
      rw [ok] at read
      cases read
  | ok v =>
      refine ⟨v, rfl, ?_⟩
      exact marshal_unmarshal (by decide +kernel) (by decide +kernel) (by decide +kernel) ok

end BitSchema.Codec
