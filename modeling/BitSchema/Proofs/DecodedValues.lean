import BitSchema.Proofs.Canonical
import BitSchema.Proofs.CompiledSchemas

/-!
# Decoded values

Whatever bytes the decoder is given, the value it returns has the shape that the schema says.  Its
integers are numbers of their types, with one exception: a delta adds the number that was read to
the baseline in 64 bits, and nothing looks at the sum.
-/

namespace BitSchema

open List

/-- The numbers of an integer type. -/
def Ir.NativeType.Holds (t : Ir.NativeType) (n : Int) : Prop :=
  if t.signed then -2 ^ (t.bits.toNat - 1) ≤ n ∧ n < 2 ^ (t.bits.toNat - 1)
  else 0 ≤ n ∧ n < 2 ^ t.bits.toNat

/-- A number that fits in some bits with a sign is in their range. -/
theorem Word.toInt_of_fitsSigned {v : Int64} {n : Nat} (fits : Word.fitsSigned v n = true) :
    -2 ^ (n - 1) ≤ v.toInt ∧ v.toInt < 2 ^ (n - 1) := by
  rcases Nat.eq_zero_or_pos n with rfl | some
  · obtain rfl : v = 0 := by simpa [Word.fitsSigned] using fits
    decide
  rcases Nat.lt_or_ge n 64 with narrow | wide
  · exact (Word.fitsSigned_iff some narrow.le).mp fits
  · have range := Word.toInt_range v
    have half : (2 : Int) ^ 63 ≤ 2 ^ (n - 1) := pow_le_pow_right₀ (by decide) (by omega)
    omega

theorem Word.toUInt64_injective : Function.Injective Int64.toUInt64 :=
  Function.LeftInverse.injective Int64.toInt64_toUInt64

theorem Word.unZigZag_injective : Function.Injective Word.unZigZag :=
  Function.LeftInverse.injective Word.zigZag_unZigZag

namespace Codec

open Ir (Encoding Transform)

/-- The value has the shape of an encoding, and at every place of an integer `integer` holds of it
and its encoding. -/
inductive Conforms (schema : Ir.Schema) (integer : Encoding → Value → Prop) :
    Encoding → Value → Prop where
  | bool {enc : Encoding} {b : Bool} (kind : enc.native.kind = .bool) :
      Conforms schema integer enc (.bool b)
  | int {enc : Encoding} {type : IntType} {n : Int} (kind : enc.native.kind = .int)
      (here : integer enc (.int type n)) : Conforms schema integer enc (.int type n)
  | float {enc : Encoding} {bits : UInt64} (kind : enc.native.kind = .float) :
      Conforms schema integer enc (.double bits)
  | string {enc : Encoding} {octets : Octets} (kind : enc.native.kind = .string) :
      Conforms schema integer enc (.text octets)
  | bytes {enc : Encoding} {octets : List UInt8} (kind : enc.native.kind = .bytes) :
      Conforms schema integer enc (.bytes octets)
  | array {enc element : Encoding} {items : List Value} (kind : enc.native.kind = .array)
      (elements : enc.native.element = some element)
      (each : ∀ item ∈ items, Conforms schema integer element item) :
      Conforms schema integer enc (.list items)
  | map {enc key value : Encoding} {entries : List (Value × Value)}
      (kind : enc.native.kind = .map) (keys : enc.native.key = some key)
      (values : enc.native.value = some value)
      (eachKey : ∀ entry ∈ entries, Conforms schema integer key entry.1)
      (eachValue : ∀ entry ∈ entries, Conforms schema integer value entry.2) :
      Conforms schema integer enc (.map entries)
  | message {enc : Encoding} {d : Ir.Descriptor} {m : Ir.Message} {fields : Fields}
      (kind : enc.native.kind = .message) (descriptor : enc.native.descriptor = some d)
      (found : schema.findMessage d = .ok (some m)) (distinct : (fields.map Prod.fst).Nodup)
      (names : ∀ name, name ∈ fields.map Prod.fst ↔ name ∈ m.fields.map (·.name))
      (each : ∀ f ∈ m.fields, Conforms schema integer f.encoding (Value.fieldOf fields f.name)) :
      Conforms schema integer enc (.message fields)
  | unit {enc : Encoding} {d : Ir.Descriptor} {e : Ir.Enum} {variant : Ir.Variant}
      (kind : enc.native.kind = .enum) (descriptor : enc.native.descriptor = some d)
      (found : schema.findEnum d = .ok (some e)) (mem : variant ∈ e.variants)
      (field : variant.field = none) : Conforms schema integer enc (.enum variant.name .null)
  | payload {enc : Encoding} {d : Ir.Descriptor} {e : Ir.Enum} {variant : Ir.Variant}
      {f : Ir.Field} {payload : Value} (kind : enc.native.kind = .enum)
      (descriptor : enc.native.descriptor = some d) (found : schema.findEnum d = .ok (some e))
      (mem : variant ∈ e.variants) (field : variant.field = some f)
      (inner : Conforms schema integer f.encoding payload) :
      Conforms schema integer enc (.enum variant.name payload)

theorem Conforms.integer {schema : Ir.Schema} {integer : Encoding → Value → Prop} {enc : Encoding}
    {v : Value} (conforms : Conforms schema integer enc v) (kind : enc.native.kind = .int) :
    integer enc v := by
  cases conforms <;> simp_all

/-- The value is a number of the integer type, and the encoder accepts it as one. -/
def Admissible (enc : Encoding) (v : Value) : Prop :=
  (∃ n, v.integer? = some n ∧ enc.native.Holds n) ∧ ∃ n, loadNumber enc.native v = .ok n

/-- No baseline is added, or the type has all the numbers that the sum can be. -/
def Steady (enc : Encoding) : Prop := hasDelta enc.transforms = false ∨ enc.native.bits = 64

/-! ## Integers -/

section

variable {enc : Encoding} {v base : Value} {r r' : BitReader}

theorem nativeDomain_ne_float (kind : enc.native.kind = .int) :
    nativeDomain enc.native ≠ .float := by
  cases signed : enc.native.signed <;> simp [nativeDomain, kind, signed]

variable {n : Number} {d : Domain}

/-- The encoder accepts only numbers of the type. -/
theorem admissible_of_loadNumber (kind : enc.native.kind = .int)
    (loaded : loadNumber enc.native v = .ok n) : Admissible enc v := by
  refine ⟨?_, n, loaded⟩
  unfold Ir.NativeType.Holds
  cases signed : enc.native.signed with
  | false =>
    have domain : nativeDomain enc.native = .unsigned := by simp [nativeDomain, kind, signed]
    obtain ⟨m, rfl, value, fits⟩ := (loadNumber_unsigned_iff domain).mp loaded
    refine ⟨m.toNat, value, ?_⟩
    have small : m.toNat < 2 ^ enc.native.bits.toNat := by
      rcases Nat.lt_or_ge enc.native.bits.toNat 64 with narrow | wide
      · exact (Word.fitsUnsigned_iff narrow.le).mp fits
      · exact m.toNat_lt.trans_le (Nat.pow_le_pow_right (by decide) wide)
    rw [if_neg (by simp)]
    exact ⟨by omega, by exact_mod_cast small⟩
  | true =>
    have domain : nativeDomain enc.native = .signed := by simp [nativeDomain, kind, signed]
    obtain ⟨m, rfl, value, fits⟩ := (loadNumber_signed_iff domain).mp loaded
    refine ⟨m.toInt, value, ?_⟩
    rw [if_pos rfl]
    exact Word.toInt_of_fitsSigned fits

theorem domain_backward {t : Transform} {b : Number} (step : stepDomain t d = .ok n.domain)
    (same : b.domain = d) : (backward t n b).domain = d := by
  subst same
  rcases t with ⟨kind, integer, fractional⟩
  cases kind <;> cases n <;> cases b <;> simp_all [stepDomain, backward, Number.domain]

/-- Running back ends in the domain that the transforms start from. -/
theorem domain_unrun {ts : List Transform} {b last : Number} {befores : List Domain}
    {bases : List Number} (same : b.domain = d) (ends : domains ts d = .ok (befores, n.domain))
    (ran : run ts b b = .ok (last, bases)) : (unrun ts bases n).domain = d := by
  induction ts generalizing d b befores bases with
  | nil =>
    cases ran
    cases ends
    rfl
  | cons t ts ih =>
    obtain ⟨next, nextBase, rest, first, second, later, rfl⟩ := run_cons_ok_iff.mp ran
    cases first.symm.trans second
    obtain ⟨middle, befores, rfl, step, ends⟩ := domains_cons_ok_iff.mp ends
    have baseStep := stepDomain_of_forward rfl first
    rw [same, step] at baseStep
    have inner := ih (Except.ok.inj baseStep).symm ends later
    rw [← inner] at step
    exact domain_backward step same

/-- An integer is read as a number of the domain of its type. -/
theorem domain_of_prepared {last : Domain} {bases : List Number}
    (ready : prepared enc base = .ok (last, bases)) (same : n.domain = last) :
    (unrun enc.transforms bases n).domain = nativeDomain enc.native := by
  obtain ⟨befores, b, lastBase, ends, baseline, ran⟩ := prepared_ok_iff.mp ready
  exact domain_unrun (domain_of_loadBaseline baseline) (same ▸ ends) ran

theorem domain_of_ofWord {raw : UInt64} {bits : Nat} (ok : ofWord d raw bits = .ok n) :
    n.domain = d := by
  unfold ofWord at ok
  cases d with
  | unsigned | signed =>
    cases ok
    rfl
  | float =>
    dsimp only at ok
    split at ok
    next =>
      cases ok
      rfl
    next =>
      split at ok
      next =>
        cases ok
        rfl
      next => cases ok

/-- The encoder accepts every word as a number of a type of 64 bits. -/
theorem loadNumber_toValue_wide (kind : enc.native.kind = .int) (wide : enc.native.bits = 64)
    (domain : n.domain = nativeDomain enc.native) : loadNumber enc.native n.toValue = .ok n := by
  have exact : n.domain ≠ .float := domain ▸ nativeDomain_ne_float kind
  refine loadNumber_toValue domain exact ?_
  rw [wide]
  cases n with
  | unsigned m => exact (Word.fitsUnsigned_iff (by decide)).mpr m.toNat_lt
  | signed m => exact (Word.fitsSigned_iff (by decide) (by decide)).mpr (Word.toInt_range m)
  | float m => exact absurd rfl exact

/-- An integer without a delta, or of 64 bits, is read as a number of its type. -/
theorem admissible_of_decodeNumber (kind : enc.native.kind = .int) (laid : Laid enc)
    (steady : Steady enc) (ok : Succeeds (decodeNumber enc base) r v r') : Admissible enc v := by
  obtain ⟨last, bases, raw, n, ready, word, shape, rfl⟩ := succeeds_decodeNumber.mp ok
  rcases steady with plain | wide
  · obtain ⟨some, narrow⟩ := laid.bits (by simp [kind])
    obtain ⟨again, -⟩ := transformed_of_prepared (nativeDomain_ne_float kind) plain some narrow
      (laid.narrow kind) (toNat_lt_of_readWord word) ready shape
    obtain ⟨m, b, bases', loaded, -⟩ := transformed_ok_iff.mp again
    exact admissible_of_loadNumber kind loaded
  · have domain := domain_of_prepared ready (domain_of_ofWord shape)
    exact admissible_of_loadNumber kind (loadNumber_toValue_wide kind wide domain)

end

/-! ## Values by kind -/

/-- What `read` reads has the shape of its encoding, and its integers are as `integer` says. -/
def Shapes (schema : Ir.Schema) (integer : Encoding → Value → Prop)
    (read : Encoding → Value → Decoder Value) : Prop :=
  ∀ enc base r v r', enc.Throughout Laid → Succeeds (read enc base) r v r' →
    Conforms schema integer enc v

/-- The integers that are decoded meet the condition. -/
def Numbers (integer : Encoding → Value → Prop) : Prop :=
  ∀ enc base r v r', enc.native.kind = .int → Laid enc →
    Succeeds (decodeNumber enc base) r v r' → integer enc v

section

variable {schema : Ir.Schema} {integer : Encoding → Value → Prop}
  {read : Encoding → Value → Decoder Value} {enc : Encoding} {v base : Value} {r r' : BitReader}

theorem conforms_number (numbers : Numbers integer)
    (kind : enc.native.kind = .int ∨ enc.native.kind = .float) (laid : Laid enc)
    (ok : Succeeds (decodeNumber enc base) r v r') : Conforms schema integer enc v := by
  obtain ⟨last, bases, raw, n, ready, word, shape, rfl⟩ := succeeds_decodeNumber.mp ok
  have domain := domain_of_prepared ready (domain_of_ofWord shape)
  rcases kind with kind | kind
  · have here := numbers _ _ _ _ _ kind laid ok
    have exact := nativeDomain_ne_float kind
    generalize unrun enc.transforms bases n = m at here domain
    cases m with
    | unsigned m | signed m => exact .int kind here
    | float m => exact absurd domain.symm exact
  · have float : nativeDomain enc.native = .float := by simp [nativeDomain, kind]
    rw [float] at domain
    generalize unrun enc.transforms bases n = m at domain
    cases m with
    | unsigned m | signed m => cases domain
    | float m => exact .float kind

section

variable (shapes : Shapes schema integer read)

include shapes

theorem Shapes.message (sound : SchemaSound schema) (kind : enc.native.kind = .message)
    (ok : Succeeds (decodeBody schema read enc base) r v r') : Conforms schema integer enc v := by
  obtain ⟨d, m, descriptor, found, message⟩ := (succeeds_decodeBody_message kind).mp ok
  obtain ⟨-, vs, length, run, rfl⟩ := succeeds_decodeMessage.mp message
  have names : (((sortedFields m).map (·.name)).zip vs).map Prod.fst =
      (sortedFields m).map (·.name) :=
    map_fst_zip (by rw [length_map, length])
  have perm := (sortedFields_perm m).map (·.name)
  have distinct : ((((sortedFields m).map (·.name)).zip vs).map Prod.fst).Nodup := by
    rw [names]
    exact perm.nodup_iff.mpr (sound.message (Ir.Schema.mem_allMessages found)).1
  rw [messageValue_of_nodup distinct]
  refine .message kind descriptor found distinct (fun name => ?_) fun f mem => ?_
  · rw [names]
    exact perm.mem_iff
  · have sorted : f ∈ sortedFields m := (sortedFields_perm m).mem_iff.mpr mem
    rw [← map_fst_zip (Nat.le_of_eq length)] at sorted
    obtain ⟨p, pair, rfl⟩ := mem_map.mp sorted
    have field : (p.1.name, p.2) ∈ ((sortedFields m).map (·.name)).zip vs := by
      rw [zip_map_left]
      exact mem_map_of_mem pair
    rw [Value.fieldOf_of_nodup distinct field]
    obtain ⟨r₁, r₂, one⟩ := step_of_threaded run pair
    exact shapes _ _ _ _ _ (Ir.Schema.throughout_field (fun e => sound.laid) found mem) one

theorem Shapes.enum (sound : SchemaSound schema) (kind : enc.native.kind = .enum)
    (ok : Succeeds (decodeBody schema read enc base) r v r') : Conforms schema integer enc v := by
  obtain ⟨d, descriptor, enum⟩ := (succeeds_decodeBody_enum kind).mp ok
  obtain ⟨e, index, r₁, variant, found, -, hit, rest⟩ := succeeds_decodeEnum.mp enum
  have mem := Ir.mem_of_search hit
  cases field : variant.field with
  | none =>
    simp only [field] at rest
    obtain ⟨rfl, -⟩ := rest
    exact .unit kind descriptor found mem field
  | some f =>
    simp only [field] at rest
    obtain ⟨payload, rfl, inner⟩ := rest
    exact .payload kind descriptor found mem field (shapes _ _ _ _ _
      (Ir.Schema.throughout_payload (fun e => sound.laid) found mem field) inner)

theorem Shapes.map (all : enc.Throughout Laid) (kind : enc.native.kind = .map)
    (ok : Succeeds (decodeBody schema read enc base) r v r') : Conforms schema integer enc v := by
  obtain ⟨key, entries, r₁, keys, -, run, rfl⟩ := (succeeds_decodeBody_map kind).mp ok
  obtain ⟨value, values⟩ := Option.isSome_iff_exists.mp (all.here.entry kind).2
  have each : ∀ entry ∈ entries, ∃ r r', DecodesEntry read key value entry r r' := by
    intro entry mem
    rcases run with ⟨rfl, -⟩ | ⟨value', values', run⟩
    · cases mem
    · cases values.symm.trans values'
      exact step_of_threaded run mem
  refine .map kind keys values (fun entry mem => ?_) fun entry mem => ?_
  · obtain ⟨s, s', s₁, first, -⟩ := each entry mem
    exact shapes _ _ _ _ _ (all.key keys) first
  · obtain ⟨s, s', s₁, -, second⟩ := each entry mem
    exact shapes _ _ _ _ _ (all.value values) second

theorem Shapes.body (sound : SchemaSound schema) (numbers : Numbers integer)
    (all : enc.Throughout Laid) (ok : Succeeds (decodeBody schema read enc base) r v r') :
    Conforms schema integer enc v := by
  cases kind : enc.native.kind with
  | bool =>
    obtain ⟨n, -, -, rfl⟩ := (succeeds_decodeBody_bool kind).mp ok
    exact .bool kind
  | int | float =>
    have isNumber : enc.native.kind = .int ∨ enc.native.kind = .float := by simp [kind]
    have number := (succeeds_decodeBody_number isNumber).mp ok
    exact conforms_number numbers isNumber all.here number
  | string =>
    obtain ⟨octets, -, -, rfl⟩ := (succeeds_decodeBody_string kind).mp ok
    exact .string kind
  | bytes =>
    obtain ⟨octets, -, rfl⟩ := (succeeds_decodeBody_bytes kind).mp ok
    exact .bytes kind
  | array =>
    obtain ⟨element, items, r₁, elements, -, run, rfl⟩ := (succeeds_decodeBody_array kind).mp ok
    refine .array kind elements fun item mem => ?_
    obtain ⟨s, s', one⟩ := step_of_threaded run mem
    exact shapes _ _ _ _ _ (all.element elements) one
  | map => exact shapes.map all kind ok
  | message => exact shapes.message sound kind ok
  | enum => exact shapes.enum sound kind ok
  | other name => exact ((succeeds_decodeBody_other kind).mp ok).elim

end

/-- What is decoded conforms, whatever the fuel. -/
theorem shapes_decodeValue (sound : SchemaSound schema) (numbers : Numbers integer) (fuel : Nat) :
    Shapes schema integer (decodeValue schema fuel) := by
  induction fuel with
  | zero =>
    intro enc base r v r' all ok
    exact (Decoder.succeeds_fail.mp ok).elim
  | succ fuel ih =>
    intro enc base r v r' all ok
    obtain ⟨r₁, body, -⟩ := succeeds_decodeWith.mp ok
    exact ih.body sound numbers all body

end

theorem laid_embed (d : Ir.Descriptor) : (embed d).Throughout Laid := by
  refine throughout_embed
    ⟨(formed_embed d).here.toShaped, ?_, ?_, ?_, ?_, ?_, ?_, ?_, ?_, ?_, ?_⟩ <;>
    simp [embed, Ir.NativeKind.known]

/-! ## Deltas that leave the range -/

section

variable {t : Transform} {ts : List Transform} {d next last : Domain} {befores : List Domain}

theorem last_ne_float (exact : d ≠ .float) (ends : domains ts d = .ok (befores, last)) :
    last ≠ .float := by
  induction ts generalizing d befores with
  | nil =>
    cases ends
    exact exact
  | cons t ts ih =>
    obtain ⟨next, befores, rfl, step, ends⟩ := domains_cons_ok_iff.mp ends
    exact ih (next_ne_float exact step) ends

variable {n : Number}

theorem backward_inj {n' b : Number} (exact : d ≠ .float) (step : stepDomain t d = .ok n.domain)
    (like : n'.domain = n.domain) (same : b.domain = d) (eq : backward t n b = backward t n' b) :
    n = n' := by
  subst same
  rcases t with ⟨kind, integer, fractional⟩
  cases kind <;> cases b <;> cases n <;> cases n' <;> simp_all [stepDomain, backward, Number.domain]
  case delta.unsigned.signed.signed => exact Word.toUInt64_injective eq
  case zigZag.signed.unsigned.unsigned => exact Word.unZigZag_injective eq

/-- Running back tells numbers apart. -/
theorem unrun_inj {n' b lastBase : Number} {bases : List Number} (exact : d ≠ .float)
    (ends : domains ts d = .ok (befores, n.domain)) (like : n'.domain = n.domain)
    (same : b.domain = d) (ran : run ts b b = .ok (lastBase, bases))
    (eq : unrun ts bases n = unrun ts bases n') : n = n' := by
  induction ts generalizing d b befores bases with
  | nil => simpa [unrun] using eq
  | cons t ts ih =>
    obtain ⟨next, nextBase, rest, first, second, later, rfl⟩ := run_cons_ok_iff.mp ran
    cases first.symm.trans second
    obtain ⟨middle, befores, rfl, step, ends⟩ := domains_cons_ok_iff.mp ends
    have baseStep := stepDomain_of_forward rfl first
    rw [same, step] at baseStep
    have nextSame := (Except.ok.inj baseStep).symm
    have left := domain_unrun nextSame ends later
    have right := domain_unrun (n := n') nextSame (like ▸ ends) later
    refine ih (next_ne_float exact step) ends nextSame later ?_
    exact backward_inj exact (left ▸ step) (right.trans left.symm) same eq

/-- A delta that comes first turns its own baseline into zero.  So whatever comes after it gives the
same difference for every baseline, and not zero unless zero was read. -/
theorem unrun_delta (kind : t.kind = .delta) (exact : d ≠ .float)
    (ends : domains (t :: ts) d = .ok (befores, n.domain)) (nonzero : n ≠ .zero n.domain) :
    ∃ diff : Int64, diff ≠ 0 ∧ ∀ b : Number, b.domain = d →
      ∃ lastBase bases, run (t :: ts) b b = .ok (lastBase, bases) ∧
        unrun (t :: ts) bases n = backward t (.signed diff) b := by
  obtain ⟨middle, befores, rfl, step, ends⟩ := domains_cons_ok_iff.mp ends
  obtain rfl : middle = .signed := by
    cases d <;> simp_all [stepDomain]
  have integer : Domain.signed ≠ .float := by decide
  obtain ⟨bases, ran⟩ := run_zero (absurd · integer) ends
  have domain := domain_unrun rfl ends ran
  have zero : unrun ts bases (.zero n.domain) = .zero .signed :=
    (unrun_run (n := .zero .signed) integer rfl ran).2
  obtain ⟨diff, differs⟩ : ∃ diff, unrun ts bases n = .signed diff := by
    cases result : unrun ts bases n with
    | signed diff => exact ⟨diff, rfl⟩
    | unsigned m | float m => cases result ▸ domain
  refine ⟨diff, ?_, fun b same => ?_⟩
  · rintro rfl
    refine nonzero (unrun_inj integer ends ?_ rfl ran (differs.trans zero.symm))
    cases n.domain <;> rfl
  · have first : forward t b b = .ok (.zero .signed) := by
      cases b <;> simp_all [forward, Number.domain, Number.zero]
    exact ⟨_, _, run_cons_ok_iff.mpr ⟨_, _, bases, first, first, ran, rfl⟩, by rw [unrun, differs]⟩

end

/-! ### Sums -/

section

variable {t : Transform} {ts : List Transform} {d : Domain} {befores : List Domain} {bits : Nat}
  {diff : Int64}

/-- Added to some number of fewer than 64 bits, any difference but zero gives one of more. -/
theorem exists_unsigned_sum (nonzero : diff ≠ 0) (narrow : bits < 64) :
    ∃ m : UInt64, m.toNat < 2 ^ bits ∧ 2 ^ bits ≤ (m + diff.toUInt64).toNat := by
  have some := Nat.two_pow_pos bits
  have most : 2 ^ bits ≤ 2 ^ 63 := Nat.pow_le_pow_right (by decide) (by omega)
  have word : diff.toUInt64.toNat ≠ 0 := by
    intro zero
    exact nonzero (Word.toUInt64_injective (UInt64.toNat_inj.mp zero))
  by_cases negative : 2 ^ 63 ≤ diff.toUInt64.toNat
  · refine ⟨0, some, ?_⟩
    rw [zero_add]
    omega
  · have value : (UInt64.ofNat (2 ^ bits - 1)).toNat = 2 ^ bits - 1 :=
      UInt64.toNat_ofNat_of_lt' (by change 2 ^ bits - 1 < 2 ^ 64; omega)
    refine ⟨UInt64.ofNat (2 ^ bits - 1), by omega, ?_⟩
    rw [UInt64.toNat_add, value, Nat.mod_eq_of_lt] <;> omega

theorem exists_signed_sum (nonzero : diff ≠ 0) (narrow : bits < 64) :
    ∃ m : Int64, (-2 ^ (bits - 1) ≤ m.toInt ∧ m.toInt < 2 ^ (bits - 1)) ∧
      ¬ (-2 ^ (bits - 1) ≤ (m + diff).toInt ∧ (m + diff).toInt < 2 ^ (bits - 1)) := by
  have half : (0 : Int) < 2 ^ (bits - 1) := by positivity
  have most : (2 : Int) ^ (bits - 1) ≤ 2 ^ 62 := pow_le_pow_right₀ (by decide) (by omega)
  have range := Word.toInt_range diff
  have number : diff.toInt ≠ 0 := fun zero => nonzero (Int64.toInt_inj.mp zero)
  generalize (2 : Int) ^ (bits - 1) = limit at half most
  rcases lt_or_gt_of_ne number with negative | positive
  · have value : (Int64.ofInt (-limit)).toInt = -limit :=
      Int64.toInt_ofInt_of_le (by omega) (by omega)
    refine ⟨Int64.ofInt (-limit), by omega, ?_⟩
    rw [Int64.toInt_add, value, Int.bmod_def]
    omega
  · have value : (Int64.ofInt (limit - 1)).toInt = limit - 1 :=
      Int64.toInt_ofInt_of_le (by omega) (by omega)
    refine ⟨Int64.ofInt (limit - 1), by omega, ?_⟩
    rw [Int64.toInt_add, value, Int.bmod_def]
    omega

/-- For any difference but zero there is a baseline that it leads out of the width. -/
theorem exists_unfit_sum (kind : t.kind = .delta) (exact : d ≠ .float) (nonzero : diff ≠ 0)
    (some : 1 ≤ bits) (narrow : bits < 64) :
    ∃ b : Number, b.domain = d ∧ b.Fits bits ∧ ¬ (backward t (.signed diff) b).Fits bits := by
  cases d with
  | unsigned =>
    obtain ⟨m, small, large⟩ := exists_unsigned_sum nonzero narrow
    refine ⟨.unsigned m, rfl, (Word.fitsUnsigned_iff narrow.le).mpr small, fun fits => ?_⟩
    simp only [backward, kind] at fits
    exact absurd ((Word.fitsUnsigned_iff narrow.le).mp fits) (by omega)
  | signed =>
    obtain ⟨m, inside, outside⟩ := exists_signed_sum nonzero narrow
    refine ⟨.signed m, rfl, (Word.fitsSigned_iff some narrow.le).mpr inside, fun fits => ?_⟩
    simp only [backward, kind] at fits
    exact outside ((Word.fitsSigned_iff some narrow.le).mp fits)
  | float => exact absurd rfl exact

/-- With a delta among the transforms, any number but zero is read against some baseline of the
width as a number that does not fit it.  A zig-zag before the delta only renames the numbers. -/
theorem exists_unfit_unrun {n : Number} (delta : hasDelta ts = true) (exact : d ≠ .float)
    (ends : domains ts d = .ok (befores, n.domain)) (nonzero : n ≠ .zero n.domain)
    (some : 1 ≤ bits) (narrow : bits < 64) :
    ∃ b lastBase bases, b.domain = d ∧ b.Fits bits ∧ run ts b b = .ok (lastBase, bases) ∧
      ¬ (unrun ts bases n).Fits bits := by
  induction ts generalizing d befores with
  | nil => cases delta
  | cons t ts ih =>
    by_cases kind : t.kind = .delta
    · obtain ⟨diff, differs, back⟩ := unrun_delta kind exact ends nonzero
      obtain ⟨b, same, fits, unfit⟩ := exists_unfit_sum kind exact differs some narrow
      obtain ⟨lastBase, bases, ran, eq⟩ := back b same
      exact ⟨b, lastBase, bases, same, fits, ran, eq ▸ unfit⟩
    · obtain ⟨next, befores, rfl, step, ends⟩ := domains_cons_ok_iff.mp ends
      obtain ⟨zigZag, nextExact⟩ := zigZag_of_stepDomain exact kind step
      have later : hasDelta ts = true := by simpa [hasDelta, kind] using delta
      obtain ⟨b, lastBase, bases, rfl, fits, ran, unfit⟩ := ih later nextExact ends
      have same : (backward t b b).domain = d := (forward_backward zigZag step).1
      have again : backward t b (backward t b b) = backward t b b := by
        cases b <;> simp [backward, zigZag]
      have first : forward t (backward t b b) (backward t b b) = .ok b := by
        nth_rewrite 1 [← again]
        exact (forward_backward zigZag step).2
      have ran' := run_cons_ok_iff.mpr ⟨_, _, bases, first, first, ran, rfl⟩
      have keeps : ∀ {n base : Number}, (backward t n base).Fits bits ↔ n.Fits bits :=
        Number.fits_backward_iff zigZag some narrow.le
      exact ⟨_, lastBase, _, same, keeps.mpr fits, ran', fun inside => unfit (keeps.mp inside)⟩

end

/-- Some word that is not zero can be read in any width. -/
theorem exists_nonzero_word {bits : UInt32} (some : 1 ≤ bits.toNat) (narrow : bits.toNat ≤ 64) :
    ∃ r raw r', Succeeds (readWord bits) r raw r' ∧ raw ≠ 0 := by
  have unread : (BitReader.unread ⟨Array.replicate 8 255, 0⟩) = List.replicate 64 true := by decide
  refine ⟨⟨Array.replicate 8 255, 0⟩, _, _, succeeds_readWord.mpr ⟨narrow, ?_, rfl, rfl⟩, ?_⟩
  · rw [unread, length_replicate]
    exact narrow
  · rw [unread, take_replicate, Nat.min_eq_left narrow]
    rw [Ne, BitReader.ofNat_valueOf_eq_zero (by rwa [length_replicate]), length_replicate,
      replicate_inj]
    rintro ⟨-, none | same⟩
    · omega
    · cases same

theorem fits_of_loadNumber {native : Ir.NativeType} {n m : Number}
    (domain : n.domain = nativeDomain native) (exact : n.domain ≠ .float)
    (loaded : loadNumber native n.toValue = .ok m) : n.Fits native.bits.toNat := by
  cases n with
  | unsigned u =>
    obtain ⟨w, -, value, fits⟩ := (loadNumber_unsigned_iff domain.symm).mp loaded
    obtain rfl : u = w := UInt64.toNat_inj.mp (Int.ofNat.inj (Option.some.inj value))
    exact fits
  | signed s =>
    obtain ⟨w, -, value, fits⟩ := (loadNumber_signed_iff domain.symm).mp loaded
    obtain rfl : s = w := Int64.toInt_inj.mp (Option.some.inj value)
    exact fits
  | float bits => exact absurd rfl exact

section

variable {enc : Encoding} {v base : Value} {r r' : BitReader}

/-- Where a baseline is added to numbers of fewer than 64 bits, some sum is no number of the
type. -/
theorem exists_inadmissible (kind : enc.native.kind = .int) (laid : Laid enc)
    (delta : hasDelta enc.transforms = true) (small : enc.native.bits.toNat < 64)
    (readable : Succeeds (decodeNumber enc base) r v r') :
    ∃ base r v r', Succeeds (decodeNumber enc base) r v r' ∧ ¬ Admissible enc v := by
  have integer := nativeDomain_ne_float kind
  obtain ⟨some, narrow⟩ := laid.bits (by simp [kind])
  obtain ⟨last, bases, raw, n, ready, -⟩ := succeeds_decodeNumber.mp readable
  obtain ⟨befores, b, lastBase, ends, -⟩ := prepared_ok_iff.mp ready
  have exact := last_ne_float integer ends
  obtain ⟨r, raw, r', word, nonzero⟩ := exists_nonzero_word some narrow
  obtain ⟨n, shape⟩ : ∃ n, ofWord last raw enc.wire.bits.toNat = .ok n := by
    cases last with
    | unsigned | signed => exact ⟨_, rfl⟩
    | float => exact absurd rfl exact
  obtain ⟨rfl, -, same⟩ := word_of_ofWord exact some narrow (toNat_lt_of_readWord word) shape
  have differs : n ≠ .zero n.domain := by
    intro zero
    have none : n.word enc.wire.bits.toNat = 0 := by
      rw [zero]
      cases domain : n.domain with
      | unsigned | signed => rfl
      | float => exact absurd domain exact
    rw [none, UInt64.toNat_zero, Nat.zero_mod] at same
    exact nonzero (UInt64.toNat_inj.mp same.symm)
  have someNative : 1 ≤ enc.native.bits.toNat := some.trans (laid.narrow kind)
  obtain ⟨b, lastBase, bases, domain, fits, ran, unfit⟩ :=
    exists_unfit_unrun delta integer ends differs someNative small
  have baseline : loadBaseline enc b.toValue = .ok b := by
    rw [loadBaseline, if_pos delta, loadNumber_toValue domain (domain ▸ integer) fits]
    rfl
  have ready := prepared_ok_iff.mpr ⟨befores, b, lastBase, ends, baseline, ran⟩
  refine ⟨b.toValue, r, _, r', succeeds_decodeNumber.mpr ⟨_, _, _, _, ready, word, shape, rfl⟩, ?_⟩
  rintro ⟨-, m, loaded⟩
  have back := domain_of_prepared ready rfl
  exact unfit (fits_of_loadNumber back (back ▸ integer) loaded)

end

/-! ## Messages of a compiled schema -/

/-- Whatever is read under a compiled schema has the shape of its message, and its integers are
numbers of their types where no baseline is added to fewer than 64 bits.  Where one is added, the
decoder gives other numbers too. -/
theorem conforms_of_decode {importer : Importer} {policy : RedefinitionPolicy}
    {entries : List String} {schema : Ir.Schema}
    (compiled : (compile importer policy entries).schema = some schema) :
    (∀ d bases r v r', Succeeds (decode schema d bases) r v r' →
      Conforms schema (fun enc n => Steady enc → Admissible enc n) (embed d) v) ∧
    ∀ enc ∈ schema.encodings, enc.native.kind = .int → hasDelta enc.transforms = true →
      enc.native.bits.toNat < 64 → (∃ base r v r', Succeeds (decodeNumber enc base) r v r') →
      ∃ base r v r', Succeeds (decodeNumber enc base) r v r' ∧ ¬ Admissible enc v := by
  have sound := schemaSound_of_compile compiled
  constructor
  · intro d bases r v r' read
    have numbers : Numbers fun enc n => Steady enc → Admissible enc n :=
      fun _ _ _ _ _ kind laid ok steady => admissible_of_decodeNumber kind laid steady ok
    exact shapes_decodeValue sound numbers _ _ _ _ _ _ (laid_embed d) (succeeds_decode.mp read)
  · intro enc mem kind delta small ⟨base, r, v, r', readable⟩
    exact exists_inadmissible kind (sound.laid mem) delta small readable

/-- A counter that is sent as the difference to the one before, and steps of two kinds. -/
def tickImporter : Importer where
  fileCount := 1
  resolve _ := .ok "tick"
  read _ := .ok ("package a; message Tick \x7b u8 count [delta]; \x7d ".toUTF8 ++
    "enum Step \x7b u8 ahead [delta]; i8 skew [zig_zag]; \x7d ".toUTF8 ++
    "message Walk \x7b []Step steps; \x7d".toUTF8)

def tick : Ir.Descriptor := ⟨"a", [], "Tick"⟩

def walk : Ir.Descriptor := ⟨"a", [], "Walk"⟩

theorem conforms_of_decode_walk :
    ∃ schema v, (compile tickImporter .refuse ["tick"]).schema = some schema ∧
      unmarshal schema walk #[2, 0, 0, 0, 1, 5, 0, 3] = .ok v ∧
      Conforms schema (fun enc n => Steady enc → Admissible enc n) (embed walk) v ∧
      ∃ enc ∈ schema.encodings, enc.native.kind = .int ∧ hasDelta enc.transforms = true ∧
        enc.native.bits.toNat < 64 ∧ (∃ base r v r', Succeeds (decodeNumber enc base) r v r') ∧
        ∃ base r v r', Succeeds (decodeNumber enc base) r v r' ∧ ¬ Admissible enc v := by
  have run : ∃ schema ∈ (compile tickImporter .refuse ["tick"]).schema,
      (unmarshal schema walk #[2, 0, 0, 0, 1, 5, 0, 3]).toOption.isSome = true ∧
        ∃ enc ∈ schema.encodings, enc.native.kind = .int ∧ hasDelta enc.transforms = true ∧
          enc.native.bits.toNat < 64 ∧
          (outcome (decodeNumber enc .null) ⟨#[3], 0⟩).1.toOption.isSome = true := by
    decide +kernel
  obtain ⟨schema, compiled, read, enc, mem, kind, delta, small, number⟩ := run
  obtain ⟨v, read⟩ := Option.isSome_iff_exists.mp read
  have read := toOption_eq_some_iff.mp read
  obtain ⟨r, decoded, -⟩ := unmarshal_ok_iff.mp read
  obtain ⟨n, number⟩ := Option.isSome_iff_exists.mp number
  have readable : ∃ base r v r', Succeeds (decodeNumber enc base) r v r' :=
    ⟨.null, _, n, _, Prod.ext (toOption_eq_some_iff.mp number) rfl⟩
  obtain ⟨shape, others⟩ := conforms_of_decode compiled
  exact ⟨schema, v, compiled, read, shape _ _ _ _ _ decoded, enc, mem, kind, delta, small, readable,
    others enc mem kind delta small readable⟩

/-- Against no baseline, a difference of minus one is read as a count that no octet holds. -/
theorem decode_tick_leaves_range :
    ∃ schema fields, (compile tickImporter .refuse ["tick"]).schema = some schema ∧
      unmarshal schema tick #[255] = .ok (.message fields) ∧
      (Value.fieldOf fields "count").integer? = some 18446744073709551615 ∧
      ¬ Conforms schema Admissible (embed tick) (.message fields) := by
  have run : ∃ schema ∈ (compile tickImporter .refuse ["tick"]).schema,
      (∃ v ∈ (unmarshal schema tick #[255]).toOption, ∃ fields ∈ v.asFields?,
        (Value.fieldOf fields "count").integer? = some 18446744073709551615) ∧
      ∃ m ∈ (schema.findMessage tick).toOption.bind id, ∃ f ∈ m.fields, f.name = "count" ∧
        f.encoding.native.kind = .int ∧ f.encoding.native.signed = false ∧
        f.encoding.native.bits = 8 := by
    decide +kernel
  obtain ⟨schema, compiled, ⟨v, read, fields, asFields, count⟩, m, found, f, mem, name, kind,
    signed, octet⟩ := run
  have read := toOption_eq_some_iff.mp read
  obtain ⟨r, decoded, -⟩ := unmarshal_ok_iff.mp read
  obtain ⟨fields, rfl⟩ := message_of_decode decoded
  cases asFields
  refine ⟨schema, fields, compiled, read, count, fun conforms => ?_⟩
  cases conforms with
  | message _ descriptor found' _ _ each =>
      cases descriptor
      rw [found'] at found
      cases found
      obtain ⟨⟨n, value, held⟩, -⟩ := (each f mem).integer kind
      rw [name, count] at value
      cases value
      simp [Ir.NativeType.Holds, signed, octet] at held

end Codec

end BitSchema
