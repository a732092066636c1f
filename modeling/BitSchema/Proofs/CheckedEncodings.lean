import BitSchema.Proofs.Directives
import BitSchema.Proofs.WellFormed
import BitSchema.Proofs.Word

/-!
# Checked encodings

The checker, the lowering and the codec each read the type and the directives of a field on their
own.  Here they are shown to agree: where the checker has no error to report, lowering gives an
encoding that is laid out the way the codec expects at every level, and where no transform is
repeated either, the codec accepts every transform of it.
-/

namespace BitSchema

open List
open Ir (Encoding NativeType)
open Lowering (typeEncoding referenceEncoding fieldEncoding)

/-- One level of an encoding is laid out the way the codec expects. -/
structure Laid (e : Encoding) : Prop extends e.Shaped where
  kind : e.native.kind ∈ Ir.NativeKind.known
  bits : e.native.kind ∈ [.bool, .int, .float] → 1 ≤ e.wire.bits.toNat ∧ e.wire.bits.toNat ≤ 64
  narrow : e.native.kind = .int → e.wire.bits.toNat ≤ e.native.bits.toNat
  lengths : e.native.kind ∈ [.string, .bytes, .array, .map] →
    8 ≤ e.wire.prefixBits.toNat ∧ e.wire.prefixBits.toNat ≤ 64
  bare : e.native.kind ∈ [.message, .enum] → e.transforms = [] ∧ e.paddingBits = none
  padding : ∀ n ∈ e.paddingBits, 1 ≤ n.toNat ∧ n.toNat ≤ 64
  fixedPoint : ∀ t ∈ e.transforms, t.kind = .fixedPoint →
    1 ≤ (t.integerBits + t.fractionalBits).toNat ∧ (t.integerBits + t.fractionalBits).toNat ≤ 64
  element : e.native.kind = .array → e.native.element.isSome
  entry : e.native.kind = .map → e.native.key.isSome ∧ e.native.value.isSome
  key : ∀ key ∈ e.native.key, key.native.kind ∈ [.bool, .int, .string, .bytes, .enum]

/-- One level of an encoding is laid out the way the codec expects, and the codec accepts its
transforms in order.  What it ends with is a float only in the width of one. -/
structure Ready (e : Encoding) : Prop extends Laid e where
  domains : ∃ befores last,
    Codec.domains e.transforms (Codec.nativeDomain e.native) = .ok (befores, last) ∧
      (last = .float → e.wire.bits = 32 ∨ e.wire.bits = 64)

namespace EncodingCheck

variable {table : SymbolTable} {scope : Descriptor}

/-! ## Types without directives -/

/-- What lowering makes of a type before any directive, and what the checker takes the type for. -/
structure Plain (table : SymbolTable) (scope : Descriptor) (type : Source.TypeExpr)
    (enc : Encoding) : Prop where
  transforms : enc.transforms = []
  paddingBits : enc.paddingBits = none
  reference : enc.wire.kind = .embedded ↔ enc.native.kind ∈ [.message, .enum]
  integer : enc.native.kind = .int → enc.native.bits.toNat ≤ 64
  float : enc.native.kind = .float → enc.native.bits = 32 ∨ enc.native.bits = 64
  native : ∃ n, native? table scope type = some n ∧ n.kind = enc.native.kind ∧
    n.bits = enc.native.bits ∧ n.signed = enc.native.signed

theorem ready_scalar (s : Source.Scalar) : Ready s.encoding := by
  cases s <;>
  exact ⟨⟨⟨by decide, by decide, by decide⟩, by decide, by decide, by decide, by decide, by decide,
    nofun, nofun, by decide, by decide, nofun⟩, _, _, rfl, by decide⟩

theorem levels_scalar (s : Source.Scalar) : s.encoding.levels = [s.encoding] := by
  cases s <;> simp [Encoding.levels_eq, Ir.NativeType.parts_eq, Source.Scalar.encoding,
    Source.Scalar.native]

theorem plain_scalar (span : Span) (s : Source.Scalar) :
    Plain table scope (.scalar span s) s.encoding := by
  cases s <;>
  exact ⟨rfl, rfl, by decide, by decide, by decide, _, rfl, rfl, rfl, rfl⟩

variable {native : NativeType} {span : Span}

/-- The encoding of an array or map without directives. -/
theorem ready_collection (kind : native.kind = .array ∨ native.kind = .map)
    (unsigned : native.signed = false) (element : native.kind = .array → native.element.isSome)
    (entry : native.kind = .map → native.key.isSome ∧ native.value.isSome)
    (key : ∀ key ∈ native.key, key.native.kind ∈ [.bool, .int, .string, .bytes, .enum]) :
    Ready { wire := .lengthPrefixed defaultPrefixBits, native } := by
  refine ⟨⟨⟨?_, ?_, ?_⟩, ?_, ?_, ?_, ?_, ?_, nofun, nofun, element, entry, key⟩, _, _, rfl, ?_⟩ <;>
  rcases kind with kind | kind <;>
  simp [kind, unsigned, Ir.NativeKind.known, Ir.WireFormat.lengthPrefixed, defaultPrefixBits,
    Codec.nativeDomain]

/-- The encoding of a reference. -/
theorem ready_reference (kind : native.kind = .message ∨ native.kind = .enum)
    (unsigned : native.signed = false) (keyless : native.key = none) :
    Ready { wire := .embedded, native } := by
  refine ⟨⟨⟨?_, ?_, ?_⟩, ?_, ?_, ?_, ?_, ?_, nofun, nofun, ?_, ?_, ?_⟩, _, _, rfl, ?_⟩ <;>
  rcases kind with kind | kind <;>
  simp [kind, unsigned, keyless, Ir.NativeKind.known, Ir.WireFormat.embedded, Codec.nativeDomain]

theorem referenceEncoding_ok {absolute : Bool} {path : List Source.Ident} {name : Source.Ident}
    {enc : Encoding} (span : Span)
    (ok : referenceEncoding table scope absolute path name = .ok enc) :
    Ready enc ∧ Plain table scope (.named span absolute path name) enc ∧
      enc.levels = [enc] := by
  unfold referenceEncoding at ok
  cases reference : Reference.ofParts absolute (path.map (·.value)) name.value with
  | error cause => simp [reference, Except.mapError, bind, Except.bind] at ok
  | ok r =>
    cases resolved : table.resolveType scope r with
    | error cause => simp [reference, resolved, Except.mapError, bind, Except.bind] at ok
    | ok s =>
      simp only [reference, resolved, Except.mapError, bind, Except.bind, pure, Except.pure,
        Except.ok.injEq] at ok
      subst ok
      refine ⟨ready_reference ?_ rfl rfl, ⟨rfl, rfl, ?_, ?_, ?_, ?_⟩, ?_⟩
      · split <;> simp
      · split <;> simp [Ir.WireFormat.embedded]
      · split <;> simp
      · split <;> simp
      · simp [native?, reference, resolved, Except.toOption]
      · simp [Encoding.levels_eq, Ir.NativeType.parts_eq]

theorem typeEncoding_array_ok {element : Source.TypeExpr} {enc : Encoding} :
    typeEncoding table scope (.array span element) = .ok enc ↔
      ∃ inner, typeEncoding table scope element = .ok inner ∧
        enc = { wire := .lengthPrefixed defaultPrefixBits,
                native := { kind := .array, element := some inner } } := by
  rw [typeEncoding]
  cases typeEncoding table scope element with
  | error cause => simp [bind, Except.bind]
  | ok inner => simp [bind, Except.bind, pure, Except.pure, eq_comm]

variable {key value type : Source.TypeExpr}

theorem typeEncoding_map_ok {enc : Encoding} :
    typeEncoding table scope (.map span key value) = .ok enc ↔
      ∃ innerKey innerValue, typeEncoding table scope key = .ok innerKey ∧
        typeEncoding table scope value = .ok innerValue ∧
        enc = { wire := .lengthPrefixed defaultPrefixBits,
                native := { kind := .map, key := some innerKey, value := some innerValue } } := by
  rw [typeEncoding]
  cases typeEncoding table scope key with
  | error cause => simp [bind, Except.bind]
  | ok innerKey =>
    cases typeEncoding table scope value with
    | error cause => simp [bind, Except.bind]
    | ok innerValue => simp [bind, Except.bind, pure, Except.pure, eq_comm]

theorem plain_of_typeEncoding {enc : Encoding} (ok : typeEncoding table scope type = .ok enc) :
    Plain table scope type enc := by
  cases type with
  | scalar span s =>
    cases ok
    exact plain_scalar span s
  | named span absolute path name => exact (referenceEncoding_ok span ok).2.1
  | array span element =>
    obtain ⟨inner, -, rfl⟩ := typeEncoding_array_ok.mp ok
    exact ⟨rfl, rfl, by simp [Ir.WireFormat.lengthPrefixed], by simp, by simp, _, rfl, rfl, rfl,
      rfl⟩
  | map span key value =>
    obtain ⟨innerKey, innerValue, -, -, rfl⟩ := typeEncoding_map_ok.mp ok
    exact ⟨rfl, rfl, by simp [Ir.WireFormat.lengthPrefixed], by simp, by simp, _, rfl, rfl, rfl,
      rfl⟩

theorem isKey_iff {kind : Ir.NativeKind} :
    isKey kind = true ↔ kind ∈ [.bool, .int, .string, .bytes, .enum] := by
  cases kind <;> simp [isKey]

/-- The key of a map that the checker let pass. -/
theorem key_of_mapKeys {enc : Encoding} (ok : typeEncoding table scope key = .ok enc)
    (clean : ErrorFree (mapKeys table scope (.map span key value))) :
    enc.native.kind ∈ [.bool, .int, .string, .bytes, .enum] := by
  obtain ⟨n, native, kind, -, -⟩ := (plain_of_typeEncoding ok).native
  rw [mapKeys, errorFree_append, errorFree_append, native] at clean
  rw [← kind, ← isKey_iff]
  by_contra other
  simp only [other] at clean
  exact not_errorFree_of_code clean.1.1 (show 3019 < 4000 by decide)

/-- Every level of the encoding of a type is the encoding of a type in it. -/
theorem typeEncoding_of_level {enc e : Encoding} (ok : typeEncoding table scope type = .ok enc)
    (mem : e ∈ enc.levels) : ∃ inner, typeEncoding table scope inner = .ok e ∧
      mapKeys table scope inner ⊆ mapKeys table scope type := by
  induction type generalizing enc with
  | scalar span s =>
    cases ok
    rw [levels_scalar, mem_singleton] at mem
    exact ⟨.scalar span s, mem ▸ rfl, List.Subset.refl _⟩
  | named span absolute path name =>
    rw [(referenceEncoding_ok span ok).2.2, mem_singleton] at mem
    exact ⟨_, mem ▸ ok, List.Subset.refl _⟩
  | array span element ih =>
    obtain ⟨inner, innerOk, rfl⟩ := typeEncoding_array_ok.mp ok
    rw [Encoding.levels_eq, Ir.NativeType.parts_eq] at mem
    simp only [Ir.partLevels_some, Ir.partLevels_none, append_nil, mem_cons] at mem
    rcases mem with rfl | mem
    · exact ⟨_, ok, List.Subset.refl _⟩
    · exact ih innerOk mem
  | map span key value ihKey ihValue =>
    obtain ⟨innerKey, innerValue, keyOk, valueOk, rfl⟩ := typeEncoding_map_ok.mp ok
    rw [Encoding.levels_eq, Ir.NativeType.parts_eq] at mem
    simp only [Ir.partLevels_some, Ir.partLevels_none, nil_append, mem_cons, mem_append] at mem
    rcases mem with rfl | mem | mem
    · exact ⟨_, ok, List.Subset.refl _⟩
    · obtain ⟨inner, innerOk, keys⟩ := ihKey keyOk mem
      exact ⟨inner, innerOk, fun d found =>
        mem_append_left _ (mem_append_right _ (keys found))⟩
    · obtain ⟨inner, innerOk, keys⟩ := ihValue valueOk mem
      exact ⟨inner, innerOk, fun d found => mem_append_right _ (keys found)⟩

theorem ready_of_typeEncoding {enc : Encoding} (ok : typeEncoding table scope type = .ok enc)
    (clean : ErrorFree (mapKeys table scope type)) : ∀ e ∈ enc.levels, Ready e := by
  intro e mem
  obtain ⟨inner, ok, keys⟩ := typeEncoding_of_level ok mem
  have clean : ErrorFree (mapKeys table scope inner) := fun d found => clean d (keys found)
  cases inner with
  | scalar span s =>
    cases ok
    exact ready_scalar s
  | named span absolute path name => exact (referenceEncoding_ok span ok).1
  | array span element =>
    obtain ⟨inner, -, rfl⟩ := typeEncoding_array_ok.mp ok
    exact ready_collection (Or.inl rfl) rfl (by simp) (by simp) nofun
  | map span key value =>
    obtain ⟨innerKey, innerValue, keyOk, -, rfl⟩ := typeEncoding_map_ok.mp ok
    refine ready_collection (Or.inr rfl) rfl (by simp) (by simp) fun inner mem => ?_
    cases mem
    exact key_of_mapKeys keyOk clean

/-! ## Fields -/

theorem toNat_toUInt32 {n : UInt64} {limit : Nat} (small : n.toNat ≤ limit)
    (word : limit < 2 ^ 32) :
    n.toUInt32.toNat = n.toNat := by
  rw [UInt64.toNat_toUInt32, Nat.mod_eq_of_lt (by omega)]

/-- A length prefix that admits a length is at least 8 and at most 64 bits wide. -/
theorem prefixBits_range (n : UInt64) :
    8 ≤ (UInt32.ofNat (lengthPrefixBits n.toNat)).toNat ∧
      (UInt32.ofNat (lengthPrefixBits n.toNat)).toNat ≤ 64 := by
  have upper : bitLength n.toNat ≤ 64 := bitLength_le_iff.mpr n.toNat_lt
  have range : 8 ≤ lengthPrefixBits n.toNat ∧ lengthPrefixBits n.toNat ≤ 64 := by
    unfold lengthPrefixBits minPrefixBits
    omega
  have word : lengthPrefixBits n.toNat < UInt32.size := by
    have size : UInt32.size = 2 ^ 32 := rfl
    omega
  rw [UInt32.toNat_ofNat_of_lt' word]
  exact range

section

variable {enc : Encoding} {type : Source.TypeExpr} {native : NativeType} {hasFixedPoint : Bool}
  {applied : List Applied}

theorem checkApplied_value (value : native.kind ∉ [.message, .enum]) :
    checkApplied native applied =
      checkDirectives native (applied.any (·.meaning.kind == .fixedPoint)) [] applied := by
  rw [checkApplied, if_neg (by simpa using value)]

theorem applied_of_mem {d : Directive} (mem : d ∈ applied.map Applied.meaning)
    (clean : ErrorFree (checkDirectives native hasFixedPoint [] applied)) :
    ∃ a quantized, a.meaning = d ∧
      ErrorFree (checkDirective native hasFixedPoint quantized a) := by
  obtain ⟨a, inside, rfl⟩ := mem_map.mp mem
  obtain ⟨quantized, clean⟩ := errorFree_checkDirectives clean a inside
  exact ⟨a, quantized, rfl, clean⟩

/-- The wire format that directives leave fits the type. -/
structure WireFits (native : NativeType) (wire : Ir.WireFormat) (hasFixedPoint : Bool) : Prop where
  scalar : native.kind ∈ [.bool, .int, .float] → wire.kind = .bits
  collection : native.kind ∈ [.string, .bytes, .array, .map] → wire.kind = .lengthPrefixed
  bits : native.kind ∈ [.bool, .int, .float] → 1 ≤ wire.bits.toNat ∧ wire.bits.toNat ≤ 64
  narrow : native.kind = .int → wire.bits.toNat ≤ native.bits.toNat
  lengths : native.kind ∈ [.string, .bytes, .array, .map] →
    8 ≤ wire.prefixBits.toNat ∧ wire.prefixBits.toNat ≤ 64
  float : native.kind = .float → hasFixedPoint = false → wire.bits = 32 ∨ wire.bits = 64

variable {n : UInt64}

theorem wireFits_bits {a : Applied} (integer : native.kind = .int → native.bits.toNat ≤ 64)
    (float : native.kind = .float → native.bits = 32 ∨ native.bits = 64)
    (clean : ErrorFree (checkBits native hasFixedPoint a n)) :
    WireFits native (.ofBits n.toUInt32) hasFixedPoint := by
  rcases errorFree_checkBits clean with ⟨kind, some, few⟩ | ⟨kind, some, few⟩ |
    ⟨kind, fixed, some, few⟩ | ⟨kind, exact, width⟩
  · have width := toNat_toUInt32 few (by decide)
    refine ⟨?_, ?_, ?_, ?_, ?_, ?_⟩ <;> simp [kind, Ir.WireFormat.ofBits, width, some, few]
  · have most := integer kind
    have width := toNat_toUInt32 few (by omega)
    have word : n.toNat ≤ 64 := by omega
    refine ⟨?_, ?_, ?_, ?_, ?_, ?_⟩ <;> simp [kind, Ir.WireFormat.ofBits, width, some, few, word]
  · have width := toNat_toUInt32 few (by decide)
    refine ⟨?_, ?_, ?_, ?_, ?_, ?_⟩ <;>
      simp [kind, Ir.WireFormat.ofBits, width, some, few, fixed]
  · have two : n.toUInt32 = 32 ∨ n.toUInt32 = 64 := by
      rcases width with single | own
      · exact Or.inl single
      · rw [own]
        exact float kind
    rcases two with width | width <;>
    · refine ⟨?_, ?_, ?_, ?_, ?_, ?_⟩ <;> simp [kind, Ir.WireFormat.ofBits, width]

theorem wireFits_bitsVar (kind : native.kind ∈ [.string, .bytes, .array, .map]) :
    WireFits native (.lengthPrefixed (UInt32.ofNat (lengthPrefixBits n.toNat))) hasFixedPoint := by
  have range := prefixBits_range n
  simp only [mem_cons, not_mem_nil, or_false] at kind
  refine ⟨?_, fun _ => rfl, ?_, ?_, fun _ => range, ?_⟩ <;>
  rcases kind with kind | kind | kind | kind <;> simp [kind]

theorem wireFits_foldl (plain : Plain table scope type enc) (ready : Ready enc)
    (isNative : native? table scope type = some native)
    (clean : ErrorFree (checkDirectives native hasFixedPoint [] applied)) :
    WireFits native ((applied.map Applied.meaning).foldl Directive.apply enc).wire
      hasFixedPoint := by
  obtain ⟨n, isN, kind, bits, signed⟩ := plain.native
  obtain rfl : n = native := Option.some.inj (isN.symm.trans isNative)
  rcases Directive.wire_foldl_apply (applied.map Applied.meaning) enc with
    same | ⟨width, mem, set⟩ | ⟨length, mem, set⟩
  · -- No directive sets a wire format, so it is that of the type alone.
    rw [same]
    obtain ⟨befores, last, domains, exact⟩ := ready.domains
    rw [plain.transforms] at domains
    cases domains
    refine ⟨?_, ?_, ?_, ?_, ?_, fun float _ => exact ?_⟩
    · rw [kind]; exact ready.scalar
    · rw [kind]; exact ready.collection
    · rw [kind]; exact ready.bits
    · rw [kind, bits]; exact ready.narrow
    · rw [kind]; exact ready.lengths
    · rw [Codec.nativeDomain, if_pos (kind ▸ float)]
  · obtain ⟨a, quantized, meaning, clean⟩ := applied_of_mem mem clean
    rw [set]
    refine wireFits_bits ?_ ?_ (errorFree_bits clean meaning)
    · rw [kind, bits]; exact plain.integer
    · rw [kind, bits]; exact plain.float
  · obtain ⟨a, quantized, meaning, clean⟩ := applied_of_mem mem clean
    rw [set]
    exact wireFits_bitsVar (errorFree_bitsVar clean meaning)

theorem padding_foldl (bare : enc.paddingBits = none)
    (clean : ErrorFree (checkDirectives native hasFixedPoint [] applied)) :
    ∀ n ∈ ((applied.map Applied.meaning).foldl Directive.apply enc).paddingBits,
      1 ≤ n.toNat ∧ n.toNat ≤ 64 := by
  intro n padded
  rcases Directive.paddingBits_foldl_apply (applied.map Applied.meaning) enc with
    same | ⟨width, mem, set⟩
  · rw [same, bare] at padded
    cases padded
  · obtain ⟨a, quantized, meaning, clean⟩ := applied_of_mem mem clean
    have range := errorFree_pad clean meaning
    rw [set] at padded
    cases padded
    rwa [toNat_toUInt32 range.2 (by decide)]

theorem fixedPoint_foldl (bare : enc.transforms = [])
    (clean : ErrorFree (checkDirectives native hasFixedPoint [] applied)) :
    ∀ t ∈ ((applied.map Applied.meaning).foldl Directive.apply enc).transforms,
      t.kind = .fixedPoint → 1 ≤ (t.integerBits + t.fractionalBits).toNat ∧
        (t.integerBits + t.fractionalBits).toNat ≤ 64 := by
  intro t mem fixed
  rw [Directive.transforms_foldl_apply, bare, nil_append] at mem
  obtain ⟨d, mem, transform⟩ := mem_filterMap.mp mem
  cases d with
  | fixedPoint i f =>
    obtain ⟨a, quantized, meaning, clean⟩ := applied_of_mem mem clean
    obtain ⟨-, range⟩ := errorFree_fixedPoint clean meaning
    cases transform
    -- Cutting both widths to 32 bits cuts their sum, which is small enough to stay.
    have sum : i.toUInt32 + f.toUInt32 = (i + f).toUInt32 := by simp
    show 1 ≤ (i.toUInt32 + f.toUInt32).toNat ∧ (i.toUInt32 + f.toUInt32).toNat ≤ 64
    rwa [sum, toNat_toUInt32 range.2 (by decide)]
  | zigZag | delta => cases transform; cases fixed
  | bits n | bitsVar n | pad n => cases transform

theorem laid_foldl (plain : Plain table scope type enc) (ready : Ready enc)
    (value : enc.wire.kind ≠ .embedded) (isNative : native? table scope type = some native)
    (clean : ErrorFree (checkDirectives native hasFixedPoint [] applied)) :
    Laid ((applied.map Applied.meaning).foldl Directive.apply enc) := by
  have fits := wireFits_foldl plain ready isNative clean
  have padding := padding_foldl plain.paddingBits clean
  have fixedPoint := fixedPoint_foldl plain.transforms clean
  have same := Directive.native_foldl_apply (applied.map Applied.meaning) enc
  obtain ⟨n, isN, kind, bits, -⟩ := plain.native
  obtain rfl : n = native := Option.some.inj (isN.symm.trans isNative)
  have noReference : enc.native.kind ∉ [.message, .enum] :=
    fun reference => value (plain.reference.mpr reference)
  generalize (applied.map Applied.meaning).foldl Directive.apply enc = result at *
  rw [← same] at kind bits noReference
  refine ⟨⟨?_, ?_, ?_⟩, ?_, ?_, ?_, ?_, ?_, padding, fixedPoint, ?_, ?_, ?_⟩
  · rw [← kind]; exact fits.scalar
  · rw [← kind]; exact fits.collection
  · exact fun reference => absurd reference noReference
  · rw [same]; exact ready.kind
  · rw [← kind]; exact fits.bits
  · rw [← kind, ← bits]; exact fits.narrow
  · rw [← kind]; exact fits.lengths
  · exact fun reference => absurd reference noReference
  · rw [same]; exact ready.element
  · rw [same]; exact ready.entry
  · rw [same]; exact ready.key

theorem ready_foldl (plain : Plain table scope type enc) (ready : Ready enc)
    (value : enc.wire.kind ≠ .embedded) (isNative : native? table scope type = some native)
    (clean : ErrorFree (checkApplied native applied))
    (single : ∀ d ∈ checkApplied native applied, d.code ≠ 4003) :
    Ready ((applied.map Applied.meaning).foldl Directive.apply enc) := by
  obtain ⟨n, isN, kind, bits, signed⟩ := plain.native
  obtain rfl : n = native := Option.some.inj (isN.symm.trans isNative)
  rw [checkApplied_value (kind ▸ fun reference => value (plain.reference.mpr reference))]
    at clean single
  obtain ⟨befores, last, run, known⟩ := (domainKnown_nil n).run clean single
  refine ⟨laid_foldl plain ready value isNative clean, befores, last, ?_, fun float => ?_⟩
  · rw [Directive.native_foldl_apply, Directive.transforms_foldl_apply, plain.transforms,
      nil_append, ← run, Codec.nativeDomain, Codec.nativeDomain, kind, signed]
  · obtain ⟨isFloat, unquantized⟩ := known.exact float
    refine (wireFits_foldl plain ready isNative clean).float isFloat ?_
    simpa using unquantized

end

variable {f : Source.Field} {enc : Encoding}

theorem fieldEncoding_ok (ok : fieldEncoding table scope f = .ok enc) :
    ∃ bare, typeEncoding table scope f.type = .ok bare ∧
      (bare.wire.kind = .embedded ∧ enc = bare ∨ bare.wire.kind ≠ .embedded ∧
        enc = ((meanings f.directives).1.map Applied.meaning).foldl Directive.apply bare) := by
  unfold fieldEncoding at ok
  cases type : typeEncoding table scope f.type with
  | error cause => simp [type, bind, Except.bind] at ok
  | ok bare =>
    simp only [type, bind, Except.bind, pure, Except.pure] at ok
    refine ⟨bare, rfl, ?_⟩
    by_cases embedded : bare.wire.kind = .embedded
    · rw [if_pos embedded] at ok
      exact .inl ⟨embedded, (Except.ok.inj ok).symm⟩
    · rw [if_neg embedded, ← meaning_meanings] at ok
      exact .inr ⟨embedded, (Except.ok.inj ok).symm⟩

theorem checkField_eq (isNative : native? table scope f.type = some native) :
    checkField table scope f = mapKeys table scope f.type ++ (meanings f.directives).2 ++
      checkApplied native (meanings f.directives).1 := by
  rw [checkField, isNative]
  cases meanings f.directives with
  | mk applied malformed =>
    cases applied with
    | nil => simp [checkApplied, checkDirectives]
    | cons a rest => rfl

/-- Directives change nothing below the top of an encoding. -/
theorem mem_levels_foldl {ds : List Directive} {e : Encoding}
    (mem : e ∈ (ds.foldl Directive.apply enc).levels) :
    e = ds.foldl Directive.apply enc ∨ e ∈ enc.levels := by
  rw [Encoding.levels_eq, Directive.native_foldl_apply, mem_cons] at mem
  rw [Encoding.levels_eq enc]
  exact mem.imp_right (mem_cons_of_mem _)

/-- Of a field without errors, a level of the encoding is as the type has it, or it is the top one
with the directives. -/
theorem level_of_checkField (ok : fieldEncoding table scope f = .ok enc)
    (clean : ErrorFree (checkField table scope f)) {e : Encoding} (mem : e ∈ enc.levels) :
    Ready e ∨ ∃ bare native, Plain table scope f.type bare ∧ Ready bare ∧
      bare.wire.kind ≠ .embedded ∧ native? table scope f.type = some native ∧
      native.kind = bare.native.kind ∧ native.kind ∉ [.message, .enum] ∧
      ErrorFree (checkApplied native (meanings f.directives).1) ∧
      checkApplied native (meanings f.directives).1 ⊆ checkField table scope f ∧
      e = ((meanings f.directives).1.map Applied.meaning).foldl Directive.apply bare := by
  obtain ⟨bare, bareOk, shape⟩ := fieldEncoding_ok ok
  have plain := plain_of_typeEncoding bareOk
  obtain ⟨native, isNative, kind, -⟩ := plain.native
  rw [checkField_eq isNative] at clean ⊢
  rw [errorFree_append, errorFree_append] at clean
  have below := ready_of_typeEncoding bareOk clean.1.1
  rcases shape with ⟨-, rfl⟩ | ⟨value, rfl⟩
  · exact .inl (below e mem)
  · rcases mem_levels_foldl mem with top | mem
    · have notReference := kind ▸ fun reference => value (plain.reference.mpr reference)
      exact .inr ⟨bare, native, plain, below bare bare.self_mem_levels, value, isNative, kind,
        notReference, clean.2, subset_append_right _ _, top⟩
    · exact .inl (below e mem)

/-- A field without errors has an encoding that is laid out as the codec expects. -/
theorem laid_of_checkField (ok : fieldEncoding table scope f = .ok enc)
    (clean : ErrorFree (checkField table scope f)) : ∀ e ∈ enc.levels, Laid e := by
  intro e mem
  rcases level_of_checkField ok clean mem with
    ready | ⟨bare, native, plain, ready, value, isNative, -, notReference, clean, -, rfl⟩
  · exact ready.toLaid
  · rw [checkApplied_value notReference] at clean
    exact laid_foldl plain ready value isNative clean

/-- The codec takes every level of the encoding of a field for which the checker reports neither an
error nor a repeated transform. -/
theorem ready_of_checkField (ok : fieldEncoding table scope f = .ok enc)
    (clean : ∀ d ∈ checkField table scope f, d.isError = false ∧ d.code ≠ 4003) :
    ∀ e ∈ enc.levels, Ready e := by
  obtain ⟨bare, bareOk, shape⟩ := fieldEncoding_ok ok
  have plain := plain_of_typeEncoding bareOk
  obtain ⟨native, isNative, -⟩ := plain.native
  rw [checkField_eq isNative] at clean
  have errorFree : ErrorFree _ := fun d mem => (clean d mem).1
  rw [errorFree_append, errorFree_append] at errorFree
  have below := ready_of_typeEncoding bareOk errorFree.1.1
  intro e mem
  rcases shape with ⟨embedded, rfl⟩ | ⟨value, rfl⟩
  · exact below e mem
  · rcases mem_levels_foldl mem with rfl | mem
    · exact ready_foldl plain (below bare bare.self_mem_levels) value isNative errorFree.2
        fun d mem => (clean d (mem_append_right _ mem)).2
    · exact below e mem

/-- A field `f64 speed [delta, fixed_point(4, 12), zig_zag, bits(16), pad(3)]`. -/
def quantizedField : Source.Field :=
  let directive (name : String) (args : List UInt64) : Source.Directive :=
    ⟨{}, ⟨{}, name⟩, some (args.map fun n => .int ⟨{}, "", n⟩)⟩
  { span := {}, doc := none, index := none, type := .scalar {} .f64, name := ⟨{}, "speed"⟩,
    directives := [directive "delta" [], directive "fixed_point" [4, 12], directive "zig_zag" [],
      directive "bits" [16], directive "pad" [3]] }

theorem ready_quantizedField :
    ∃ enc, fieldEncoding {} default quantizedField = .ok enc ∧
      enc.transforms = [.delta, .fixedPoint 4 12, .zigZag] ∧
      (∀ d ∈ checkField {} default quantizedField, d.isError = false ∧ d.code ≠ 4003) ∧
      ∀ e ∈ enc.levels, Ready e := by
  have clean : ∀ d ∈ checkField {} default quantizedField, d.isError = false ∧ d.code ≠ 4003 := by
    decide +kernel
  exact ⟨_, rfl, rfl, clean, ready_of_checkField rfl clean⟩

end EncodingCheck

end BitSchema
