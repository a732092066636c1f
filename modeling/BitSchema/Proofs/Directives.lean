import BitSchema.Codec.Pipeline
import BitSchema.Encoding.Check
import BitSchema.Proofs.ErrorFree

/-!
# Directives

What the directives of a field do to an encoding, one aspect at a time, and what it means that the
checker has no error to report for them.  Most of that can be said of each directive alone.  The
transforms are different: whether one is accepted depends on the domain that the earlier ones lead
to, and `DomainKnown` is what the checker's two flags say of that domain.
-/

namespace BitSchema

open List
open Ir (Encoding NativeType Transform)

/-! ## What directives do -/

namespace Directive

/-- The transform that a directive adds. -/
def transform? : Directive → Option Transform
  | zigZag => some .zigZag
  | delta => some .delta
  | fixedPoint i f => some (.fixedPoint i.toUInt32 f.toUInt32)
  | _ => none

theorem native_foldl_apply (ds : List Directive) (enc : Encoding) :
    (ds.foldl apply enc).native = enc.native := by
  induction ds generalizing enc with
  | nil => rfl
  | cons d ds ih =>
    rw [foldl_cons, ih]
    cases d <;> rfl

theorem transforms_foldl_apply (ds : List Directive) (enc : Encoding) :
    (ds.foldl apply enc).transforms = enc.transforms ++ ds.filterMap transform? := by
  induction ds generalizing enc with
  | nil => simp
  | cons d ds ih =>
    rw [foldl_cons, ih]
    cases d <;> simp [apply, transform?, filterMap_cons]

/-- The wire format comes from the last directive that sets one. -/
theorem wire_foldl_apply (ds : List Directive) (enc : Encoding) :
    (ds.foldl apply enc).wire = enc.wire ∨
      (∃ n, bits n ∈ ds ∧ (ds.foldl apply enc).wire = .ofBits n.toUInt32) ∨
      ∃ n, bitsVar n ∈ ds ∧
        (ds.foldl apply enc).wire = .lengthPrefixed (UInt32.ofNat (lengthPrefixBits n.toNat)) := by
  induction ds generalizing enc with
  | nil => exact Or.inl rfl
  | cons d ds ih =>
    rw [foldl_cons]
    rcases ih (apply enc d) with same | ⟨n, mem, eq⟩ | ⟨n, mem, eq⟩
    · rw [same]
      cases d with
      | bits n => exact Or.inr (Or.inl ⟨n, mem_cons_self, rfl⟩)
      | bitsVar n => exact Or.inr (Or.inr ⟨n, mem_cons_self, rfl⟩)
      | _ => exact Or.inl rfl
    · exact Or.inr (Or.inl ⟨n, mem_cons_of_mem _ mem, eq⟩)
    · exact Or.inr (Or.inr ⟨n, mem_cons_of_mem _ mem, eq⟩)

theorem paddingBits_foldl_apply (ds : List Directive) (enc : Encoding) :
    (ds.foldl apply enc).paddingBits = enc.paddingBits ∨
      ∃ n, pad n ∈ ds ∧ (ds.foldl apply enc).paddingBits = some n.toUInt32 := by
  induction ds generalizing enc with
  | nil => exact Or.inl rfl
  | cons d ds ih =>
    rw [foldl_cons]
    rcases ih (apply enc d) with same | ⟨n, mem, eq⟩
    · rw [same]
      cases d with
      | pad n => exact Or.inr ⟨n, mem_cons_self, rfl⟩
      | _ => exact Or.inl rfl
    · exact Or.inr ⟨n, mem_cons_of_mem _ mem, eq⟩

end Directive

/-! ## Checks without errors -/

namespace EncodingCheck

variable {native : NativeType} {hasFixedPoint quantized : Bool} {a : Applied}

/-- Lowering and checking agree on which directives mean something. -/
theorem meaning_meanings (ds : List Source.Directive) :
    (meanings ds).1.map Applied.meaning =
      ds.filterMap fun d => (Directive.ofSource d).toOption := by
  induction ds with
  | nil => rfl
  | cons d ds ih =>
    unfold meanings
    cases meaning : Directive.ofSource d with
    | ok m | error p => simp [meaning, ih, Except.toOption]

theorem not_errorFree_inapplicable (clean : ErrorFree [inapplicable a native]) : False :=
  not_errorFree_of_code clean (show 3017 < 4000 by decide)

variable {n : UInt64} {earlier : List Applied} {d : Domain}

theorem errorFree_bitsRange {limit : Nat} :
    ErrorFree (bitsRange a n limit) ↔ 1 ≤ n.toNat ∧ n.toNat ≤ limit := by
  unfold bitsRange
  split
  next outside =>
    constructor
    · intro clean
      exact (not_errorFree_of_code clean (show 3016 < 4000 by decide)).elim
    · intro inside
      omega
  next inside =>
    simp only [errorFree_nil, true_iff]
    omega

/-- A number of bits is only set on numbers and truth values, and in range. -/
theorem errorFree_checkBits (clean : ErrorFree (checkBits native hasFixedPoint a n)) :
    native.kind = .bool ∧ 1 ≤ n.toNat ∧ n.toNat ≤ 64 ∨
      native.kind = .int ∧ 1 ≤ n.toNat ∧ n.toNat ≤ native.bits.toNat ∨
      native.kind = .float ∧ hasFixedPoint = true ∧ 1 ≤ n.toNat ∧ n.toNat ≤ 64 ∨
      native.kind = .float ∧ hasFixedPoint = false ∧
        (n.toUInt32 = 32 ∨ n.toUInt32 = native.bits) := by
  unfold checkBits at clean
  split at clean
  next kind => exact Or.inl ⟨kind, errorFree_bitsRange.mp clean⟩
  next kind => exact Or.inr (Or.inl ⟨kind, errorFree_bitsRange.mp clean⟩)
  next kind =>
    split at clean
    next fixed => exact Or.inr (Or.inr (Or.inl ⟨kind, fixed, errorFree_bitsRange.mp clean⟩))
    next exact =>
      refine Or.inr (Or.inr (Or.inr ⟨kind, by simpa using exact, ?_⟩))
      split at clean
      next wrong => exact (not_errorFree_of_code clean (show 3022 < 4000 by decide)).elim
      next right =>
        by_cases single : n = 32
        · exact Or.inl (by rw [single]; rfl)
        · exact Or.inr (by simpa [single] using right)
  next => exact (not_errorFree_inapplicable clean).elim

theorem errorFree_requires {applies : Bool}
    (clean : ErrorFree (if applies then [] else [inapplicable a native])) : applies = true := by
  cases applies with
  | true => rfl
  | false => exact (not_errorFree_inapplicable clean).elim

section

variable (clean : ErrorFree (checkDirective native hasFixedPoint quantized a))
include clean

theorem errorFree_bitsVar (meaning : a.meaning = .bitsVar n) :
    native.kind ∈ [.string, .bytes, .array, .map] := by
  simp only [checkDirective, meaning] at clean
  simpa using errorFree_requires clean

theorem errorFree_zigZag (meaning : a.meaning = .zigZag) :
    native.kind = .int ∧ native.signed = true ∨ quantized = true := by
  simp only [checkDirective, meaning] at clean
  simpa using errorFree_requires clean

theorem errorFree_fixedPoint {i f : UInt64} (meaning : a.meaning = .fixedPoint i f) :
    native.kind = .float ∧ 1 ≤ (i + f).toNat ∧ (i + f).toNat ≤ 64 := by
  simp only [checkDirective, meaning] at clean
  split at clean
  next => exact (not_errorFree_inapplicable clean).elim
  next float =>
    split at clean
    next => exact (not_errorFree_of_code clean (show 3018 < 4000 by decide)).elim
    next inside =>
      rw [not_or, UInt64.not_lt, UInt64.not_lt, UInt64.le_iff_toNat_le,
        UInt64.le_iff_toNat_le] at inside
      exact ⟨by simpa using float, inside⟩

theorem errorFree_pad (meaning : a.meaning = .pad n) : 1 ≤ n.toNat ∧ n.toNat ≤ 64 := by
  simp only [checkDirective, meaning] at clean
  exact errorFree_bitsRange.mp clean

theorem errorFree_bits (meaning : a.meaning = .bits n) :
    ErrorFree (checkBits native hasFixedPoint a n) := by
  simpa only [checkDirective, meaning] using clean

end

/-- Every directive of a field was checked, whatever stood before it. -/
theorem errorFree_checkDirectives {rest : List Applied}
    (clean : ErrorFree (checkDirectives native hasFixedPoint earlier rest)) :
    ∀ a ∈ rest, ∃ quantized, ErrorFree (checkDirective native hasFixedPoint quantized a) := by
  induction rest generalizing earlier with
  | nil => simp
  | cons first rest ih =>
    rw [checkDirectives, errorFree_append, errorFree_append] at clean
    intro a mem
    rcases mem_cons.mp mem with rfl | mem
    · exact ⟨_, clean.1.2⟩
    · exact ih clean.2 a mem

/-! ## Domains along the directives -/

open Codec (Domain nativeDomain stepDomain domains)

/-- What is known of the domain after the transforms of the earlier directives: a float that was not
quantized yet is one, and a signed number that was not zig-zagged yet is one. -/
structure DomainKnown (native : NativeType) (earlier : List Applied) (d : Domain) : Prop where
  float : native.kind = .float → (∀ a ∈ earlier, a.meaning.kind ≠ .fixedPoint) → d = .float
  signed : native.kind = .int ∧ native.signed = true ∨ earlier.any (quantizes native) = true →
    (∀ a ∈ earlier, a.meaning.kind ≠ .zigZag) → d = .signed
  exact : d = .float → native.kind = .float ∧ ∀ a ∈ earlier, a.meaning.kind ≠ .fixedPoint

theorem domainKnown_nil (native : NativeType) : DomainKnown native [] (nativeDomain native) := by
  refine ⟨fun kind _ => ?_, fun sign _ => ?_, fun float => ?_⟩
  · simp [nativeDomain, kind]
  · rcases sign with ⟨kind, signed⟩ | none
    · simp [nativeDomain, kind, signed]
    · simp at none
  · refine ⟨?_, by simp⟩
    by_contra other
    unfold nativeDomain at float
    rw [if_neg other] at float
    split at float <;> cases float

theorem quantizes_iff {native : NativeType} {a : Applied} :
    quantizes native a = true ↔ a.meaning.kind = .fixedPoint ∧ native.kind = .float := by
  simp [quantizes]

/-- Only a fixed-point directive gives away what is known of a domain that stays. -/
theorem DomainKnown.other (known : DomainKnown native earlier d)
    (fixed : a.meaning.kind ≠ .fixedPoint) : DomainKnown native (earlier ++ [a]) d := by
  have plain : quantizes native a = false := by
    rw [← Bool.not_eq_true, quantizes_iff]
    exact fun both => fixed both.1
  refine ⟨fun kind none => ?_, fun sign none => ?_, fun float => ?_⟩
  · exact known.float kind fun b mem => none b (mem_append_left _ mem)
  · rw [any_append, any_cons, any_nil, plain, Bool.or_false, Bool.or_false] at sign
    exact known.signed sign fun b mem => none b (mem_append_left _ mem)
  · obtain ⟨kind, none⟩ := known.exact float
    refine ⟨kind, fun b mem => ?_⟩
    rcases mem_append.mp mem with mem | last
    · exact none b mem
    · rw [mem_singleton.mp last]
      exact fixed

/-- A transform of a directive is accepted in the domain that the earlier ones lead to. -/
theorem DomainKnown.step (known : DomainKnown native earlier d)
    (clean : ErrorFree (checkDirective native hasFixedPoint (earlier.any (quantizes native)) a))
    (fresh : ∀ b ∈ earlier, a.meaning.transform?.isSome → b.meaning.kind ≠ a.meaning.kind)
    {t : Transform} (transform : a.meaning.transform? = some t) :
    ∃ next, stepDomain t d = .ok next ∧ DomainKnown native (earlier ++ [a]) next := by
  have once : ∀ b ∈ earlier, b.meaning.kind ≠ a.meaning.kind :=
    fun b mem => fresh b mem (by simp [transform])
  cases meaning : a.meaning with
  | bits n | bitsVar n | pad n => simp [meaning, Directive.transform?] at transform
  | delta =>
    -- A delta turns an unsigned number into a signed one and keeps the domain of any other.
    have shape : t = .delta := by simpa [meaning, Directive.transform?, eq_comm] using transform
    have kept := known.other (a := a) (by simp [meaning, Directive.kind])
    cases domain : d with
    | unsigned =>
      refine ⟨.signed, by rw [shape]; rfl, fun kind none => ?_, fun _ _ => rfl, nofun⟩
      have := kept.float kind none
      rw [domain] at this
      cases this
    | signed =>
      rw [domain] at kept
      exact ⟨.signed, by rw [shape]; rfl, kept⟩
    | float =>
      rw [domain] at kept
      exact ⟨.float, by rw [shape]; rfl, kept⟩
  | fixedPoint i f =>
    obtain ⟨float, -, -⟩ := errorFree_fixedPoint clean meaning
    have shape : t = .fixedPoint i.toUInt32 f.toUInt32 := by
      simpa [meaning, Directive.transform?, eq_comm] using transform
    have domain : d = .float := by
      refine known.float float fun b mem => ?_
      have := once b mem
      rwa [meaning] at this
    refine ⟨.signed, by rw [shape, domain]; rfl, fun _ none => ?_, fun _ _ => rfl, nofun⟩
    have last := none a (mem_append_right _ mem_cons_self)
    exact absurd (by rw [meaning]; rfl) last
  | zigZag =>
    have sign := errorFree_zigZag clean meaning
    have shape : t = .zigZag := by simpa [meaning, Directive.transform?, eq_comm] using transform
    have domain : d = .signed := by
      refine known.signed sign fun b mem => ?_
      have := once b mem
      rwa [meaning] at this
    refine ⟨.unsigned, by rw [shape, domain]; rfl, fun kind none => ?_, fun _ none => ?_, nofun⟩
    · have := known.float kind fun b mem => none b (mem_append_left _ mem)
      rw [domain] at this
      cases this
    · have last := none a (mem_append_right _ mem_cons_self)
      exact absurd (by rw [meaning]; rfl) last

/-- A transform that is reported as no repetition is the first of its kind. -/
theorem fresh_of_repetition (single : ∀ d ∈ repetition earlier a, d.code ≠ 4003) :
    ∀ b ∈ earlier, a.meaning.transform?.isSome → b.meaning.kind ≠ a.meaning.kind := by
  intro b mem transform same
  have found : (earlier.find? (·.meaning.kind == a.meaning.kind)).isSome := by
    rw [find?_isSome]
    exact ⟨b, mem, by simpa using same⟩
  obtain ⟨first, found⟩ := Option.isSome_iff_exists.mp found
  have repeated : ⟨a.source.span, .repeatedTransform a.source.render⟩ ∈ repetition earlier a := by
    unfold repetition
    rw [found]
    cases meaning : a.meaning <;> simp_all [Directive.transform?, Directive.kind]
  exact single _ repeated rfl

/-- All transforms of the directives are accepted one after the other. -/
theorem DomainKnown.run {rest : List Applied} (known : DomainKnown native earlier d)
    (clean : ErrorFree (checkDirectives native hasFixedPoint earlier rest))
    (single : ∀ x ∈ checkDirectives native hasFixedPoint earlier rest, x.code ≠ 4003) :
    ∃ befores last,
      domains ((rest.map Applied.meaning).filterMap Directive.transform?) d = .ok (befores, last) ∧
        DomainKnown native (earlier ++ rest) last := by
  induction rest generalizing earlier d with
  | nil =>
    rw [append_nil]
    exact ⟨[], d, rfl, known⟩
  | cons a rest ih =>
    rw [checkDirectives] at clean single
    rw [errorFree_append, errorFree_append] at clean
    have fresh := fresh_of_repetition fun x mem =>
      single x (mem_append_left _ (mem_append_left _ mem))
    have later := fun x mem => single x (mem_append_right _ mem)
    rw [map_cons, append_cons]
    cases transform : a.meaning.transform? with
    | none =>
      have kept : DomainKnown native (earlier ++ [a]) d := by
        refine known.other fun kind => ?_
        cases meaning : a.meaning <;> simp_all [Directive.kind, Directive.transform?]
      rw [filterMap_cons_none transform]
      exact ih kept clean.2 later
    | some t =>
      obtain ⟨next, step, known'⟩ := known.step clean.1.2 fresh transform
      obtain ⟨befores, last, ends, final⟩ := ih known' clean.2 later
      rw [filterMap_cons_some transform]
      refine ⟨d :: befores, last, ?_, final⟩
      simp only [domains, step, ends, bind, Except.bind]
      rfl

end EncodingCheck

end BitSchema
