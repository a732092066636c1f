import BitSchema.Proofs.ReadBack

/-!
# Round trips

What the decoder makes of bits that the encoder wrote, for a value of any encoding, in the middle of
a stream and against any baseline: it succeeds exactly if the value is readable, and then gives the
form in which the value reads back and stops where the encoder stopped.  The two walk over schema
and value in step, so the proof is an induction on the fuel of the encoder, with one lemma for each
kind of value.
-/

namespace BitSchema.Codec

open List
open Ir (Encoding)
open Encoder (word)

/-- On these bits, whatever comes after them, a reading step succeeds exactly if `ok`, gives exactly
the results in `back`, and stops at the end of the bits. -/
def Recovers {β : Type} (read : β → BitReader → BitReader → Prop) (bs : List Bool) (ok : Prop)
    (back : β → Prop) : Prop :=
  ∀ r rest, r.unread = bs ++ rest → ∀ b r', read b r r' ↔ ok ∧ back b ∧ r' = r.advance bs.length

variable {r : BitReader} {bs rest : List Bool} {n : UInt32} {enc element : Encoding}
  {v : Ir.Variant} {e : Ir.Enum}

theorem unread_advance_append (unread : r.unread = bs ++ rest) :
    (r.advance bs.length).unread = rest := by
  rw [BitReader.unread_advance, unread, drop_left]

section

variable {β γ : Type} {read : β → BitReader → BitReader → Prop}
  {next : γ → BitReader → BitReader → Prop} {bs bs' : List Bool} {ok ok' : Prop} {back : β → Prop}
  {back' : γ → Prop}

/-- Two readings, one after the other. -/
theorem Recovers.seq (first : Recovers read bs ok back) (second : Recovers next bs' ok' back') :
    Recovers (fun (p : β × γ) r r' => ∃ r₁, read p.1 r r₁ ∧ next p.2 r₁ r') (bs ++ bs') (ok ∧ ok')
      fun p => back p.1 ∧ back' p.2 := by
  intro r rest unread p r'
  rw [append_assoc] at unread
  have one := first r _ unread
  have other := second _ rest (unread_advance_append unread)
  rw [length_append, ← BitReader.advance_advance]
  constructor
  · rintro ⟨r₁, readOne, readOther⟩
    obtain ⟨okOne, backOne, rfl⟩ := (one _ r₁).mp readOne
    obtain ⟨okOther, backOther, stop⟩ := (other _ r').mp readOther
    exact ⟨⟨okOne, okOther⟩, ⟨backOne, backOther⟩, stop⟩
  · rintro ⟨⟨okOne, okOther⟩, ⟨backOne, backOther⟩, stop⟩
    have readOne := (one _ _).mpr ⟨okOne, backOne, rfl⟩
    exact ⟨_, readOne, (other _ r').mpr ⟨okOther, backOther, stop⟩⟩

/-- A reading whose results are made into others. -/
theorem Recovers.map (make : β → γ → Prop) (reads : Recovers read bs ok back)
    (runs : ∀ {c r r'}, next c r r' ↔ ∃ b, read b r r' ∧ make b c)
    (backs : ∀ c, ok' ∧ back' c ↔ ok ∧ ∃ b, back b ∧ make b c) : Recovers next bs ok' back' := by
  intro r rest unread c r'
  have one := reads r rest unread
  rw [runs, ← and_assoc, backs]
  constructor
  · rintro ⟨b, read, made⟩
    obtain ⟨okOne, here, stop⟩ := (one b r').mp read
    exact ⟨⟨okOne, b, here, made⟩, stop⟩
  · rintro ⟨⟨okOne, b, here, made⟩, stop⟩
    exact ⟨b, (one b r').mpr ⟨okOne, here, stop⟩, made⟩

end

/-! ## Words and octets -/

theorem recovers_readWord (narrow : n.toNat ≤ 64) (u : Nat) :
    Recovers (fun v r r' => Succeeds (readWord n) r v r') (bitsOf u n.toNat) True
      (· = UInt64.ofNat (u % 2 ^ n.toNat)) := by
  intro r rest unread v r'
  have held : n.toNat ≤ r.unread.length := by
    rw [unread, length_append, length_bitsOf]
    exact Nat.le_add_right _ _
  have front : r.unread.take n.toNat = bitsOf u n.toNat := by
    rw [unread]
    exact take_left' (length_bitsOf u _)
  beta_reduce
  rw [succeeds_readWord, front, valueOf_bitsOf, length_bitsOf]
  simp [narrow, held]

/-- A word that fits is read as it was written. -/
theorem recovers_readWord_of_lt (narrow : n.toNat ≤ 64) {u : Nat} (fits : u < 2 ^ n.toNat) :
    Recovers (fun v r r' => Succeeds (readWord n) r v r') (bitsOf u n.toNat) True
      (fun v => v.toNat = u) := by
  have small : u < 2 ^ 64 := fits.trans_le (Nat.pow_le_pow_right (by decide) narrow)
  have same : ∀ v : UInt64, v = UInt64.ofNat (u % 2 ^ n.toNat) ↔ v.toNat = u := by
    intro v
    rw [Nat.mod_eq_of_lt fits, ← UInt64.toNat_inj, UInt64.toNat_ofNat_of_lt' small]
  intro r rest unread v r'
  beta_reduce
  rw [← same]
  exact recovers_readWord narrow u r rest unread v r'

theorem recovers_readOctets {octets : List UInt8} (narrow : enc.wire.prefixBits.toNat ≤ 64)
    (fits : octets.length < 2 ^ enc.wire.prefixBits.toNat) :
    Recovers (fun o r r' => Succeeds (readOctets enc) r o r')
      (bitsOf octets.length enc.wire.prefixBits.toNat ++ octetBits octets) True (· = octets) := by
  intro r rest unread o r'
  rw [append_assoc] at unread
  have word := recovers_readWord_of_lt narrow fits r _ unread
  have after := unread_advance_append unread
  beta_reduce
  rw [succeeds_readOctets, length_append, length_octetBits, ← BitReader.advance_advance]
  constructor
  · intro read
    obtain ⟨n, r₁, first, length, content, rfl⟩ := read
    obtain ⟨-, count, rfl⟩ := (word n r₁).mp first
    rw [count, after, take_left' (length_octetBits octets)] at content
    exact ⟨trivial, octetBits_injective content, by rw [count]⟩
  · intro ⟨_, same, stop⟩
    subst same
    have first : Succeeds (readWord enc.wire.prefixBits) r (UInt64.ofNat o.length)
        (r.advance (bitsOf o.length enc.wire.prefixBits.toNat).length) := by
      refine (word _ _).mpr ⟨trivial, ?_, rfl⟩
      exact UInt64.toNat_ofNat_of_lt' (fits.trans_le (Nat.pow_le_pow_right (by decide) narrow))
    obtain ⟨-, count, -⟩ := (word _ _).mp first
    refine ⟨_, _, first, count.symm, ?_, ?_⟩
    · rw [count, after, take_left' (length_octetBits o)]
    · rw [count, stop]

/-! ## Numbers -/

/-- The word of an integer that fits is read as that integer. -/
theorem ofWord_word {n : Number} {bits : Nat} (some : 1 ≤ bits) (narrow : bits ≤ 64)
    (exact : n.domain ≠ .float) (fits : n.Fits bits) :
    ofWord n.domain (UInt64.ofNat ((n.word bits).toNat % 2 ^ bits)) bits = .ok n := by
  cases n with
  | unsigned n =>
    have small : n.toNat < 2 ^ bits := (Word.fitsUnsigned_iff narrow).mp fits
    rw [Number.word, Nat.mod_eq_of_lt small, UInt64.ofNat_toNat]
    rfl
  | signed n =>
    have below : n.toUInt64.toNat % 2 ^ bits < 2 ^ 64 :=
      (Nat.mod_lt _ (Nat.two_pow_pos _)).trans_le (Nat.pow_le_pow_right (by decide) narrow)
    have low : (UInt64.ofNat (n.toUInt64.toNat % 2 ^ bits)).toNat % 2 ^ bits =
        n.toUInt64.toNat % 2 ^ bits := by
      rw [UInt64.toNat_ofNat_of_lt' below, Nat.mod_mod]
    have extended := Word.signExtend_of_fits some narrow fits low
    rw [Number.word, Number.domain, ofWord, extended]
  | float n => exact absurd rfl exact

theorem integer_of_loadNumber {native : Ir.NativeType} (kind : native.kind = .int) {v : Value}
    {n : Number} (ok : loadNumber native v = .ok n) :
    ∃ k, v.integer? = some k ∧ n.toValue = .int (integerType native) k := by
  have domain : nativeDomain native = if native.signed then .signed else .unsigned := by
    simp [nativeDomain, kind]
  cases signed : native.signed with
  | false =>
    rw [signed] at domain
    obtain ⟨m, rfl, value, -⟩ := (loadNumber_unsigned_iff domain).mp ok
    exact ⟨m.toNat, value, by simp [Number.toValue, integerType, signed]⟩
  | true =>
    rw [signed] at domain
    obtain ⟨m, rfl, value, -⟩ := (loadNumber_signed_iff domain).mp ok
    exact ⟨m.toInt, value, by simp [Number.toValue, integerType, signed]⟩

/-! ## Elements -/

variable {w w' : BitWriter}

/-- What was written for the elements of a list is read element by element. -/
theorem recovers_threaded {α β : Type} {write : α → BitWriter → BitWriter → Prop}
    {read : α → β → BitReader → BitReader → Prop} {ok : α → Prop} {back : α → β → Prop}
    {as : List α} (sound : w.Sound) (run : Threaded write as w w')
    (steps : ∀ a ∈ as, ∀ w w', w.Sound → write a w w' →
      ∃ bs, Appended w w' bs ∧ (∃ b, back a b) ∧ Recovers (read a) bs (ok a) (back a)) :
    ∃ bs, Appended w w' bs ∧ (∃ later, List.Forall₂ back as later) ∧
      Recovers (fun later r r' => as.length = later.length ∧
          Threaded (fun p => read p.1 p.2) (as.zip later) r r')
        bs (∀ a ∈ as, ok a) (List.Forall₂ back as) := by
  induction as generalizing w with
  | nil =>
    obtain rfl := threaded_nil.mp run
    refine ⟨[], Appended.refl sound, ⟨[], .nil⟩, ?_⟩
    intro r rest unread later r'
    cases later <;> simp [eq_comm]
  | cons a as ih =>
    obtain ⟨w₁, first, others⟩ := threaded_cons.mp run
    obtain ⟨bs, head, ⟨b, here⟩, reads⟩ := steps a mem_cons_self w w₁ sound first
    obtain ⟨bs', tail, ⟨later, there⟩, readsLater⟩ :=
      ih head.sound others fun a mem => steps a (mem_cons_of_mem _ mem)
    refine ⟨bs ++ bs', head.trans tail, ⟨b :: later, .cons here there⟩,
      (reads.seq readsLater).map (fun p later => later = p.1 :: p.2) ?_ fun later => ?_⟩
    · intro later r r'
      cases later <;> simp [threaded_cons, ← exists_and_left, and_left_comm]
    · rw [forall_mem_cons]
      cases later <;> simp

/-- The early check of a count does not stand in the way of what the encoder wrote, except where
elements may take no bits. -/
theorem countHeld_iff {n : Nat} (unread : r.unread = bs ++ rest)
    (enough : minEncodedBits element * n ≤ bs.length) :
    CountHeld element n r ↔ (minEncodedBits element = 0 → n ≤ maxEmptyElements) := by
  unfold CountHeld
  split
  next positive =>
    have held : n ≤ r.unread.length / minEncodedBits element := by
      rw [Nat.le_div_iff_mul_le positive, unread, length_append, Nat.mul_comm]
      exact enough.trans (Nat.le_add_right _ _)
    simp [held, Nat.ne_of_gt positive]
  next zero =>
    have zero : minEncodedBits element = 0 := Nat.eq_zero_of_not_pos zero
    simp [zero]

/-- What was written for a count and its elements is read count first. -/
theorem recovers_counted {α β : Type} {write : α → BitWriter → BitWriter → Prop}
    {read : β → BitReader → BitReader → Prop} {ok : α → Prop} {back : α → β → Prop} {as : List α}
    {w₁ : BitWriter} (shaped : element.Shaped) (sound : w.Sound)
    (length : Succeeds (writeLength enc as.length) w () w₁) (run : Threaded write as w₁ w')
    (grows : ∀ {a w w'}, w.Sound → write a w w' → ∃ bs, Appended w w' bs ∧ (element.Shaped →
      minEncodedBits element ≤ bs.length))
    (steps : ∀ a ∈ as, ∀ w w', w.Sound → write a w w' → ∃ bs, Appended w w' bs ∧ (∃ b, back a b) ∧
      Recovers read bs (ok a) (back a)) :
    ∃ bs, Appended w w' bs ∧ (∃ later, List.Forall₂ back as later) ∧
      Recovers (fun later r r' => ∃ r₁, Succeeds (readCount enc element) r later.length r₁ ∧
          Threaded read later r₁ r')
        bs ((minEncodedBits element = 0 → as.length ≤ maxEmptyElements) ∧ ∀ a ∈ as, ok a)
        (List.Forall₂ back as) := by
  obtain ⟨narrow, fits, -⟩ := succeeds_writeLength.mp length
  have head := appended_writeLength sound length
  obtain ⟨bs, tail, some, reads⟩ := recovers_threaded head.sound run steps
  obtain ⟨bs', tail', enough⟩ := appended_threaded grows head.sound run
  obtain rfl := tail.unique tail'
  refine ⟨_, head.trans tail, some, ?_⟩
  intro r rest unread later r'
  rw [append_assoc] at unread
  have word := recovers_readWord_of_lt narrow fits r _ unread
  have after := unread_advance_append unread
  have held := countHeld_iff after (enough shaped)
  have elements := reads _ rest after
  rw [length_append, ← BitReader.advance_advance]
  constructor
  · intro ⟨r₁, count, readAll⟩
    obtain ⟨u, first, eq, few⟩ := succeeds_readCount.mp count
    obtain ⟨-, same, rfl⟩ := (word u r₁).mp first
    have same : as.length = later.length := same.symm.trans eq
    obtain ⟨okAll, backAll, stop⟩ :=
      (elements later r').mp ⟨same, (threaded_zip_right same).mpr readAll⟩
    exact ⟨⟨same ▸ held.mp (same ▸ few), okAll⟩, backAll, stop⟩
  · intro ⟨⟨few, okAll⟩, backAll, stop⟩
    obtain ⟨same, readAll⟩ := (elements later r').mpr ⟨okAll, backAll, stop⟩
    have small := fits.trans_le (Nat.pow_le_pow_right (by decide) narrow)
    have value : (UInt64.ofNat as.length).toNat = as.length := UInt64.toNat_ofNat_of_lt' small
    have first := (word (UInt64.ofNat as.length) _).mpr ⟨trivial, value, rfl⟩
    refine ⟨_, succeeds_readCount.mpr ⟨_, first, value.trans same, ?_⟩,
      (threaded_zip_right same).mp readAll⟩
    exact same ▸ held.mpr few

/-! ## Fields and variants -/

theorem sortedFields_perm (m : Ir.Message) : (sortedFields m).Perm m.fields :=
  mergeSort_perm _ _

/-- Fields of different names all count. -/
theorem messageValue_of_nodup {fields : List (String × Value)}
    (distinct : (fields.map Prod.fst).Nodup) : messageValue fields = .message fields := by
  have kept : fields.foldr
      (fun f rest => if rest.any (·.1 == f.1) then rest else f :: rest) [] = fields := by
    induction fields with
    | nil => rfl
    | cons f fields ih =>
      rw [map_cons, nodup_cons] at distinct
      have fresh : fields.any (·.1 == f.1) = false := by
        rw [any_eq_false]
        intro p mem same
        exact distinct.1 (mem_map.mpr ⟨p, mem, by simpa using same⟩)
      rw [foldr_cons, ih distinct.2, fresh]
      rfl
  rw [messageValue, kept]

theorem mem_of_lowestVariant {lowest : Option Ir.Variant} {vs : List Ir.Variant}
    (found : lowestVariant lowest vs = .ok (some v)) : v ∈ vs ∨ lowest = some v := by
  induction vs generalizing lowest with
  | nil =>
    rw [lowestVariant, Except.ok.injEq] at found
    exact Or.inr found
  | cons first vs ih =>
    cases lowest with
    | none =>
      rw [lowestVariant] at found
      rcases ih found with mem | same
      · exact Or.inl (mem_cons_of_mem _ mem)
      · split at same
        · cases same
        · cases same
          exact Or.inl mem_cons_self
    | some l =>
      rw [lowestVariant] at found
      split at found
      · cases found
      · rcases ih found with mem | same
        · exact Or.inl (mem_cons_of_mem _ mem)
        · split at same
          · cases same
            exact Or.inl mem_cons_self
          · exact Or.inr same

theorem mem_of_variantNamed {name : Octets} (found : variantNamed e name = .ok (some v)) :
    v ∈ e.variants := by
  unfold variantNamed at found
  split at found
  · rcases mem_of_lowestVariant found with mem | same
    · exact mem
    · cases same
  · exact Ir.mem_of_search found

theorem toUInt64_toNat (n : UInt32) : n.toUInt64.toNat = n.toNat := by simp

/-- The decoder finds a variant by its index. -/
theorem search_index (indexed : e.Indexed) (mem : v ∈ e.variants) {index : UInt64}
    (same : index.toNat = v.index.toNat) :
    Ir.search (·.absent) (·.index.toUInt64 == index) e.variants = .ok (some v) := by
  refine Ir.search_of_nodup indexed.present indexed.distinct (fun other _ => ?_) mem
  rw [beq_iff_eq, ← UInt64.toNat_inj, toUInt64_toNat, same, UInt32.toNat_inj]

/-! ## Values by kind -/

/-- What `write` wrote for a value is what `read` reads back. -/
def Mirrors (schema : Ir.Schema) (write : Encoding → Value → Value → Encoder)
    (read : Encoding → Value → Decoder Value) : Prop :=
  ∀ enc v base w w', enc.Throughout Encoding.Fits → w.Sound → Succeeds (write enc v base) w () w' →
    ∃ bs, Appended w w' bs ∧ (∃ v', ReadsBackAs schema enc v v') ∧
      Recovers (fun v' r r' => Succeeds (read enc base) r v' r') bs (Readable schema enc v)
        (ReadsBackAs schema enc v)

section

variable {schema : Ir.Schema} {write : Encoding → Value → Value → Encoder}
  {read : Encoding → Value → Decoder Value} {enc : Encoding} {v base : Value}

/-- A key and the value after it. -/
theorem recovered_entry (inner : Mirrors schema write read) {key value : Encoding}
    (keyFormed : key.Throughout Encoding.Fits) (valueFormed : value.Throughout Encoding.Fits)
    {entry : Value × Value}
    (sound : w.Sound) (ok : EncodesEntry write key value entry w w') :
    ∃ bs, Appended w w' bs ∧
      (∃ entry' : Value × Value, ReadsBackAs schema key entry.1 entry'.1 ∧
        ReadsBackAs schema value entry.2 entry'.2) ∧
      Recovers (DecodesEntry read key value) bs
        (Readable schema key entry.1 ∧ Readable schema value entry.2)
        fun entry' => ReadsBackAs schema key entry.1 entry'.1 ∧
          ReadsBackAs schema value entry.2 entry'.2 := by
  obtain ⟨w₁, first, second⟩ := ok
  obtain ⟨bs, head, ⟨k, keyBack⟩, keyReads⟩ := inner key entry.1 .null w w₁ keyFormed sound first
  obtain ⟨bs', tail, ⟨x, valueBack⟩, valueReads⟩ :=
    inner value entry.2 .null w₁ w' valueFormed head.sound second
  exact ⟨bs ++ bs', head.trans tail, ⟨(k, x), keyBack, valueBack⟩, keyReads.seq valueReads⟩

/-- Where the index of a variant is next, the decoder reads that variant. -/
theorem succeeds_decodeEnum_at {d : Ir.Descriptor} {e : Ir.Enum}
    (found : schema.findEnum d = .ok (some e)) (indexed : e.Indexed) {variant : Ir.Variant}
    (mem : variant ∈ e.variants) {r r' : BitReader} {rest : List Bool} {v' : Value}
    (unread : r.unread = bitsOf variant.index.toNat e.discriminant.wire.bits.toNat ++ rest) :
    Succeeds (decodeEnum schema read d) r v' r' ↔
      match variant.field with
      | none => v' = .enum variant.name .null ∧ r.advance e.discriminant.wire.bits.toNat = r'
      | some f => ∃ payload, v' = .enum variant.name payload ∧
          DecodesAs read f.encoding payload (r.advance e.discriminant.wire.bits.toNat) r' := by
  have fits := indexed.fit variant mem
  have word := recovers_readWord_of_lt indexed.discriminant.2 fits r rest unread
  rw [length_bitsOf] at word
  rw [succeeds_decodeEnum]
  constructor
  · intro ⟨e', u, r₁, other, found', first, hit, result⟩
    cases found.symm.trans found'
    obtain ⟨-, same, rfl⟩ := (word u r₁).mp first
    cases (search_index indexed mem same).symm.trans hit
    exact result
  · intro result
    have same : (variant.index.toUInt64).toNat = variant.index.toNat := toUInt64_toNat _
    have first := (word _ _).mpr ⟨trivial, same, rfl⟩
    exact ⟨e, _, _, variant, found, first, search_index indexed mem same, result⟩

/-- The body of a value is recovered from what was written for it. -/
def BodyRecovered (schema : Ir.Schema) (read : Encoding → Value → Decoder Value) (enc : Encoding)
    (v base : Value) (w w' : BitWriter) : Prop :=
  ∃ bs, Appended w w' bs ∧ (∃ v', ReadsBackAs schema enc v v') ∧
    Recovers (fun v' r r' => Succeeds (decodeBody schema read enc base) r v' r') bs
      (Readable schema enc v) (ReadsBackAs schema enc v)

variable (sound : w.Sound) (ok : Succeeds (encodeBody schema write enc v base) w () w')

include sound ok

theorem recovered_bool (kind : enc.native.kind = .bool) (formed : enc.Throughout Encoding.Fits) :
    BodyRecovered schema read enc v base w w' := by
  obtain ⟨b, value, written⟩ := (succeeds_encodeBody_bool kind).mp ok
  obtain ⟨some, narrow⟩ := formed.here.bits (by simp [kind])
  have fits : (if b then 1 else 0 : UInt64).toNat < 2 ^ enc.wire.bits.toNat := by
    have two : 2 ^ 1 ≤ 2 ^ enc.wire.bits.toNat := Nat.pow_le_pow_right (by decide) some
    cases b with
    | false => simp
    | true =>
      rw [if_pos rfl, UInt64.toNat_one]
      omega
  refine ⟨_, appended_word sound written, ⟨_, .bool kind value⟩,
    (recovers_readWord_of_lt narrow fits).map _ (succeeds_decodeBody_bool kind) fun v' => ?_⟩
  rw [readsBackAs_scalar (by simp [kind]) (.bool kind value),
    and_iff_right (readable_scalar (by simp [kind]))]
  simp only [UInt64.toNat_inj, exists_eq_left]
  cases b <;> simp

theorem recovered_integer (kind : enc.native.kind = .int) (formed : enc.Throughout Encoding.Fits) :
    BodyRecovered schema read enc v base w w' := by
  obtain ⟨last, transformed, written⟩ :=
    succeeds_encodeNumber.mp ((succeeds_encodeBody_number (Or.inl kind)).mp ok)
  obtain ⟨some, narrow⟩ := formed.here.bits (by simp [kind])
  obtain ⟨fits, -, -⟩ := succeeds_writeNumber.mp written
  have integer : nativeDomain enc.native ≠ .float := by
    cases signed : enc.native.signed <;> simp [nativeDomain, kind, signed]
  obtain ⟨n, bases, loaded, ready, exact, back⟩ := prepared_of_transformed integer transformed
  obtain ⟨k, value, shown⟩ := integer_of_loadNumber kind loaded
  have word := ofWord_word some narrow exact fits
  refine ⟨_, appended_writeNumber sound written, ⟨_, .integer kind value⟩, ?_⟩
  intro r rest unread v' r'
  have raw := recovers_readWord narrow (last.word enc.wire.bits.toNat).toNat r rest unread
  beta_reduce
  rw [succeeds_decodeBody_number (Or.inl kind), succeeds_decodeNumber,
    readsBackAs_scalar (by simp [kind]) (.integer kind value)]
  constructor
  · intro ⟨domain, bases', u, m, ready', first, shape, result⟩
    cases ready.symm.trans ready'
    obtain ⟨-, rfl, stop⟩ := (raw u r').mp first
    cases word.symm.trans shape
    exact ⟨readable_scalar (by simp [kind]), by rw [result, back, shown], stop⟩
  · intro ⟨_, result, stop⟩
    refine ⟨last.domain, bases, _, last, ready, (raw _ r').mpr ⟨trivial, rfl, stop⟩, word, ?_⟩
    rw [result, back, shown]

theorem recovered_string (kind : enc.native.kind = .string) :
    BodyRecovered schema read enc v base w w' := by
  obtain ⟨octets, value, written⟩ := (succeeds_encodeBody_string kind).mp ok
  obtain ⟨w₁, length, -⟩ := succeeds_writeOctets.mp written
  obtain ⟨narrow, fits, -⟩ := succeeds_writeLength.mp length
  refine ⟨_, appended_writeOctets sound written, ⟨_, .text kind value⟩,
    (recovers_readOctets narrow fits).map _ (succeeds_decodeBody_string kind) fun v' => ?_⟩
  rw [readable_string kind value, readsBackAs_scalar (by simp [kind]) (.text kind value),
    exists_eq_left, true_and]

theorem recovered_bytes (kind : enc.native.kind = .bytes) :
    BodyRecovered schema read enc v base w w' := by
  obtain ⟨octets, value, written⟩ := (succeeds_encodeBody_bytes kind).mp ok
  obtain ⟨w₁, length, -⟩ := succeeds_writeOctets.mp written
  obtain ⟨narrow, fits, -⟩ := succeeds_writeLength.mp length
  refine ⟨_, appended_writeOctets sound written, ⟨_, .bytes kind value⟩,
    (recovers_readOctets narrow fits).map _ (succeeds_decodeBody_bytes kind) fun v' => ?_⟩
  rw [readsBackAs_scalar (by simp [kind]) (.bytes kind value),
    and_iff_right (readable_scalar (by simp [kind])), exists_eq_left, true_and]

variable (inner : Mirrors schema write read)
include inner

theorem recovered_array (grows : Grows write) (kind : enc.native.kind = .array)
    (formed : enc.Throughout Encoding.Fits) :
    BodyRecovered schema read enc v base w w' := by
  obtain ⟨items, w₁, value, length, written⟩ := (succeeds_encodeBody_array kind).mp ok
  obtain ⟨element, elements⟩ := Option.isSome_iff_exists.mp (formed.here.element kind)
  have elementFormed := formed.element elements
  have run : Threaded (EncodesAs write element) items w₁ w' := by
    rcases written with ⟨rfl, rfl⟩ | ⟨element', elements', run⟩
    · rfl
    · cases elements.symm.trans elements'
      exact run
  obtain ⟨bs, appended, ⟨later, some⟩, reads⟩ :=
    recovers_counted elementFormed.here.toShaped sound length run grows.item
      fun item _ w w' sound ok => inner element item .null w w' elementFormed sound ok
  refine ⟨bs, appended, ⟨_, (readsBackAs_array kind elements value).mpr ⟨later, some, rfl⟩⟩, ?_⟩
  refine reads.map (fun items' v' => v' = .list items') ?_ fun v' => ?_
  · intro v' r r'
    simp only [succeeds_decodeBody_array kind, elements, Option.some_inj, ← exists_and_right,
      and_assoc, exists_and_left, exists_eq_left']
    rfl
  · rw [readable_array kind elements value, readsBackAs_array kind elements value]

theorem recovered_map (grows : Grows write) (kind : enc.native.kind = .map)
    (formed : enc.Throughout Encoding.Fits) :
    BodyRecovered schema read enc v base w w' := by
  obtain ⟨entries, w₁, map, length, written⟩ := (succeeds_encodeBody_map kind).mp ok
  obtain ⟨someKey, someValue⟩ := formed.here.entry kind
  obtain ⟨key, keys⟩ := Option.isSome_iff_exists.mp someKey
  obtain ⟨value, values⟩ := Option.isSome_iff_exists.mp someValue
  have keyFormed := formed.key keys
  have run : Threaded (EncodesEntry write key value) entries w₁ w' := by
    rcases written with ⟨rfl, rfl⟩ | ⟨key', value', keys', values', run⟩
    · rfl
    · cases keys.symm.trans keys'
      cases values.symm.trans values'
      exact run
  obtain ⟨bs, appended, ⟨later, some⟩, reads⟩ :=
    recovers_counted keyFormed.here.toShaped sound length run grows.entry
      fun entry _ w w' sound ok => recovered_entry inner keyFormed (formed.value values) sound ok
  refine ⟨bs, appended, ⟨_, (readsBackAs_map kind keys values map).mpr ⟨later, some, rfl⟩⟩, ?_⟩
  have merged : ∀ {entries : List (Value × Value)} {r r' : BitReader},
      entries = [] ∧ r = r' ∨ Threaded (DecodesEntry read key value) entries r r' ↔
        Threaded (DecodesEntry read key value) entries r r' := by
    intro entries r r'
    rw [or_iff_right_iff_imp]
    rintro ⟨rfl, rfl⟩
    rfl
  refine reads.map (fun entries' v' => v' = .map entries') ?_ fun v' => ?_
  · intro v' r r'
    simp only [succeeds_decodeBody_map kind, keys, values, Option.some_inj, ← exists_and_right,
      and_assoc, exists_and_left, exists_eq_left', merged]
  · rw [readable_map kind keys values map, readsBackAs_map kind keys values map]

theorem recovered_message (codable : schema.Codable) (kind : enc.native.kind = .message) :
    BodyRecovered schema read enc v base w w' := by
  obtain ⟨d, m, values, descriptor, found, value, written⟩ :=
    (succeeds_encodeBody_message kind).mp ok
  obtain ⟨present, run⟩ := succeeds_encodeMessage.mp written
  have member : ∀ {f}, f ∈ sortedFields m ↔ f ∈ m.fields := (sortedFields_perm m).mem_iff
  have distinct : ((sortedFields m).map (·.name)).Nodup :=
    ((sortedFields_perm m).map _).nodup_iff.mpr
      (codable.fieldNames m (Ir.Schema.mem_allMessages found))
  have names : ∀ {vs : List Value}, (sortedFields m).length = vs.length →
      messageValue (((sortedFields m).map (·.name)).zip vs) =
        .message (((sortedFields m).map (·.name)).zip vs) := by
    intro vs length
    refine messageValue_of_nodup ?_
    rw [map_fst_zip (by rw [length_map, length])]
    exact distinct
  have steps : ∀ f ∈ sortedFields m, ∀ w w', w.Sound →
      EncodesField write values (base.asFields?.getD []) f w w' →
      ∃ bs, Appended w w' bs ∧
        (∃ v', ReadsBackAs schema f.encoding (Value.fieldOf values f.name) v') ∧
        Recovers (fun v' => DecodesField read (base.asFields?.getD []) (f, v')) bs
          (Readable schema f.encoding (Value.fieldOf values f.name))
          (ReadsBackAs schema f.encoding (Value.fieldOf values f.name)) := by
    intro f mem w w' sound ok
    have formed := Ir.Schema.throughout_field codable.encodings found (member.mp mem)
    exact inner _ _ _ w w' formed sound ok
  obtain ⟨bs, appended, ⟨later, some⟩, reads⟩ := recovers_threaded sound run steps
  refine ⟨bs, appended,
    ⟨_, (readsBackAs_message kind descriptor found value).mpr ⟨later, some, rfl⟩⟩, ?_⟩
  intro r rest unread v' r'
  have list := reads r rest unread
  beta_reduce
  rw [succeeds_decodeBody_message kind, readable_message kind descriptor found value,
    readsBackAs_message kind descriptor found value]
  constructor
  · intro ⟨d', m', descriptor', found', message⟩
    cases descriptor.symm.trans descriptor'
    cases found.symm.trans found'
    obtain ⟨-, vs, length, readAll, result⟩ := succeeds_decodeMessage.mp message
    obtain ⟨readable, back, stop⟩ := (list vs r').mp ⟨length, readAll⟩
    rw [names length] at result
    exact ⟨fun f mem => readable f (member.mpr mem), ⟨vs, back, result⟩, stop⟩
  · intro ⟨readable, ⟨vs, back, result⟩, stop⟩
    obtain ⟨length, readAll⟩ :=
      (list vs r').mpr ⟨fun f mem => readable f (member.mp mem), back, stop⟩
    rw [← names length] at result
    have message := succeeds_decodeMessage.mpr ⟨present, vs, length, readAll, result⟩
    exact ⟨d, m, descriptor, found, message⟩

theorem recovered_enum (codable : schema.Codable) (kind : enc.native.kind = .enum) :
    BodyRecovered schema read enc v base w w' := by
  obtain ⟨d, descriptor, written⟩ := (succeeds_encodeBody_enum kind).mp ok
  obtain ⟨e, name, payload, variant, w₁, found, parts, named, index, rest⟩ :=
    succeeds_encodeEnum.mp written
  have indexed := codable.enums e (Ir.Schema.mem_allEnums found)
  have mem := mem_of_variantNamed named
  have head := appended_word sound index
  rw [toUInt64_toNat] at head
  have body : ∀ {r r' : BitReader} {v' : Value},
      Succeeds (decodeBody schema read enc base) r v' r' ↔
        Succeeds (decodeEnum schema read d) r v' r' := by
    intro r r' v'
    rw [succeeds_decodeBody_enum kind, descriptor]
    simp
  cases field : variant.field with
  | none =>
    simp only [field] at rest
    obtain ⟨-, rfl⟩ := rest
    refine ⟨_, head, ⟨_, .unit kind descriptor found parts named field⟩, ?_⟩
    intro r rest unread v' r'
    beta_reduce
    rw [body, succeeds_decodeEnum_at found indexed mem unread,
      readable_enum kind descriptor found parts named,
      readsBackAs_enum kind descriptor found parts named, length_bitsOf]
    simp only [field]
    constructor
    · intro ⟨result, stop⟩
      exact ⟨nofun, result, stop.symm⟩
    · intro ⟨_, result, stop⟩
      exact ⟨result, stop.symm⟩
  | some f =>
    simp only [field] at rest
    have formed := Ir.Schema.throughout_payload codable.encodings found mem field
    obtain ⟨bs, tail, ⟨inside, back⟩, reads⟩ := inner _ _ _ _ _ formed head.sound rest
    refine ⟨_, head.trans tail, ⟨_, .payload kind descriptor found parts named field back⟩, ?_⟩
    intro r rest unread v' r'
    rw [append_assoc] at unread
    have payloads := reads _ rest (unread_advance_append unread)
    rw [length_bitsOf] at payloads
    beta_reduce
    rw [body, succeeds_decodeEnum_at found indexed mem unread,
      readable_enum kind descriptor found parts named,
      readsBackAs_enum kind descriptor found parts named, length_append, length_bitsOf,
      ← BitReader.advance_advance]
    simp only [field]
    constructor
    · intro ⟨payload', result, readPayload⟩
      obtain ⟨readable, back, stop⟩ := (payloads payload' r').mp readPayload
      exact ⟨by simpa using readable, ⟨payload', back, result⟩, stop⟩
    · intro ⟨readable, ⟨payload', back, result⟩, stop⟩
      exact ⟨payload', result, (payloads payload' r').mpr ⟨readable f rfl, back, stop⟩⟩

theorem recovered_body (codable : schema.Codable) (grows : Grows write)
    (formed : enc.Throughout Encoding.Fits) :
    BodyRecovered schema read enc v base w w' := by
  have exact := formed.here.kind
  cases kind : enc.native.kind with
  | bool => exact recovered_bool sound ok kind formed
  | int => exact recovered_integer sound ok kind formed
  | string => exact recovered_string sound ok kind
  | bytes => exact recovered_bytes sound ok kind
  | array => exact recovered_array sound ok inner grows kind formed
  | map => exact recovered_map sound ok inner grows kind formed
  | message => exact recovered_message sound ok inner codable kind
  | enum => exact recovered_enum sound ok inner codable kind
  | float | other name => simp [kind, Ir.NativeKind.exact] at exact

omit sound ok in
/-- Reading undoes writing, padding included. -/
theorem mirrors_with (codable : schema.Codable) (grows : Grows write) :
    Mirrors schema (encodeWith schema write) (decodeWith schema read) := by
  intro enc v base w w' formed sound ok
  obtain ⟨w₁, body, padded⟩ := appended_padding ok
  obtain ⟨bs, appended, some, reads⟩ := recovered_body sound body inner codable grows formed
  refine ⟨_, padded bs appended, some, ?_⟩
  intro r rest unread v' r'
  rw [append_assoc] at unread
  have one := reads r _ unread
  have zeros : (r.advance bs.length).unread.take (padding enc) =
      List.replicate (padding enc) false := by
    rw [unread_advance_append unread]
    exact take_left' length_replicate
  beta_reduce
  rw [succeeds_decodeWith, length_append, length_replicate, ← BitReader.advance_advance]
  constructor
  · intro ⟨r₁, readBody, _, stop⟩
    obtain ⟨readable, back, rfl⟩ := (one v' r₁).mp readBody
    exact ⟨readable, back, stop⟩
  · intro ⟨readable, back, stop⟩
    exact ⟨_, (one v' _).mpr ⟨readable, back, rfl⟩, zeros, stop⟩

end

/-- The decoder, with at least as much fuel as the encoder had, recovers what the encoder wrote. -/
theorem mirrors_value {schema : Ir.Schema} (codable : schema.Codable) {fuel more : Nat}
    (enough : fuel ≤ more) :
    Mirrors schema (encodeValue schema fuel) (decodeValue schema more) := by
  induction fuel generalizing more with
  | zero =>
    intro enc v base w w' formed sound ok
    exact (succeeds_fail.mp ok).elim
  | succ fuel ih =>
    obtain ⟨more, rfl⟩ : ∃ k, more = k + 1 := ⟨more - 1, by omega⟩
    exact mirrors_with (ih (by omega)) codable (grows_encodeValue schema fuel)

end BitSchema.Codec
