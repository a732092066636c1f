import BitSchema.Proofs.CheckedEncodings
import BitSchema.Proofs.Outcome

/-!
# Limits of directives

The numbers in directives are words of 64 bits.  They are checked as such, and an encoding has them
cut to 32 bits.  For most directives this makes no difference, since a number within its limits is
small.  There are two exceptions: the width of a float is compared after it was cut, and the two
parts of a fixed-point number are added before they are compared.  A number that is too large can
pass there (`Directive.Unwrapped` excludes it), and then the encoding has another one.
-/

namespace BitSchema

open List Directive
open Ir (Encoding NativeType)

namespace Directive

/-- The numbers of a directive are within its limits on a type, as they are written. -/
def InLimits (native : NativeType) (hasFixedPoint : Bool) : Directive → Prop
  | bits n => 1 ≤ n.toNat ∧ n.toNat ≤ 64 ∧ (native.kind = .int → n.toNat ≤ native.bits.toNat) ∧
      (native.kind = .float → hasFixedPoint = false → n.toNat = 32 ∨ n.toNat = native.bits.toNat)
  | fixedPoint i f => 1 ≤ i.toNat + f.toNat ∧ i.toNat + f.toNat ≤ 64
  | pad n => 1 ≤ n.toNat ∧ n.toNat ≤ 64
  | _ => True

/-- No number of a directive loses anything before it is compared. -/
def Unwrapped (native : NativeType) (hasFixedPoint : Bool) : Directive → Prop
  | bits n => native.kind = .float → hasFixedPoint = false → n.toNat < 2 ^ 32
  | fixedPoint i f => i.toNat + f.toNat < 2 ^ 64
  | _ => True

def width? : Directive → Option UInt64
  | bits n => some n
  | _ => none

def parts? : Directive → Option (UInt64 × UInt64)
  | fixedPoint i f => some (i, f)
  | _ => none

def padding? : Directive → Option UInt64
  | pad n => some n
  | _ => none

variable {ds : List Directive} {enc : Encoding}

/-- The numbers that are read off directives of one kind. -/
theorem mem_filterMap_of {α : Type} {read : Directive → Option α} {make : α → Directive}
    (same : ∀ d x, read d = some x ↔ d = make x) {x : α} : x ∈ ds.filterMap read ↔ make x ∈ ds := by
  simp only [mem_filterMap, same, exists_eq_right]

theorem mem_width {n : UInt64} : n ∈ ds.filterMap width? ↔ bits n ∈ ds :=
  mem_filterMap_of fun d n => by cases d <;> simp [width?]

theorem mem_parts {p : UInt64 × UInt64} : p ∈ ds.filterMap parts? ↔ fixedPoint p.1 p.2 ∈ ds :=
  have same : ∀ d p, parts? d = some p ↔ d = fixedPoint p.1 p.2 := by
    intro d p
    cases d <;> simp [parts?, Prod.ext_iff]
  mem_filterMap_of same

theorem mem_padding {n : UInt64} : n ∈ ds.filterMap padding? ↔ pad n ∈ ds :=
  mem_filterMap_of fun d n => by cases d <;> simp [padding?]

/-- An encoding has the numbers of directives, as far as `view` shows them: the last width, all
fixed-point numbers in order, and the last padding. -/
structure Stored (view : UInt64 → Nat) (ds : List Directive) (enc : Encoding) : Prop where
  width : ∀ n ∈ (ds.filterMap width?).getLast?, enc.wire.kind = .bits ∧ enc.wire.bits.toNat = view n
  parts : (enc.transforms.filter (·.kind = .fixedPoint)).map
      (fun t => (t.integerBits.toNat, t.fractionalBits.toNat)) =
    (ds.filterMap parts?).map fun p => (view p.1, view p.2)
  padding : enc.paddingBits.map UInt32.toNat = (ds.filterMap padding?).getLast?.map view

/-! ## What is stored -/

/-- The last width is the one that stays, unless a length prefix is set. -/
theorem wire_foldl_last (enc : Encoding) (plain : ∀ n, bitsVar n ∉ ds) :
    (ds.foldl apply enc).wire =
      ((ds.filterMap width?).getLast?.map fun n => .ofBits n.toUInt32).getD enc.wire := by
  induction ds using List.reverseRecOn with
  | nil => rfl
  | append_singleton ds d ih =>
    have before := ih fun n mem => plain n (mem_append_left _ mem)
    rw [foldl_concat, filterMap_append]
    cases d with
    | bits n => simp [apply, width?]
    | bitsVar n => exact absurd (mem_append_right _ mem_cons_self) (plain n)
    | zigZag | delta | fixedPoint i f | pad n => simpa [apply, width?] using before

/-- The last padding is the one that stays. -/
theorem paddingBits_foldl_last (ds : List Directive) (bare : enc.paddingBits = none) :
    (ds.foldl apply enc).paddingBits = (ds.filterMap padding?).getLast?.map UInt64.toUInt32 := by
  induction ds using List.reverseRecOn with
  | nil => exact bare
  | append_singleton ds d ih =>
    rw [foldl_concat, filterMap_append]
    cases d with
    | pad n => simp [apply, padding?]
    | _ => simpa [apply, padding?] using ih

/-- The fixed-point numbers are kept in order, cut to 32 bits. -/
theorem parts_foldl (ds : List Directive) (bare : enc.transforms = []) :
    ((ds.foldl apply enc).transforms.filter (·.kind = .fixedPoint)).map
        (fun t => (t.integerBits.toNat, t.fractionalBits.toNat)) =
      (ds.filterMap parts?).map fun p => (p.1.toNat % 2 ^ 32, p.2.toNat % 2 ^ 32) := by
  rw [transforms_foldl_apply, bare, nil_append]
  induction ds with
  | nil => rfl
  | cons d ds ih =>
    cases d <;> simpa [transform?, parts?, filterMap_cons, Ir.Transform.zigZag,
      Ir.Transform.delta, Ir.Transform.fixedPoint] using ih

/-- All numbers are stored cut to 32 bits. -/
theorem stored_foldl (apart : ∀ m n, bits m ∈ ds → bitsVar n ∉ ds)
    (transforms : enc.transforms = []) (padding : enc.paddingBits = none) :
    Stored (·.toNat % 2 ^ 32) ds (ds.foldl apply enc) where
  width n last := by
    have set := mem_width.mp (mem_of_getLast? last)
    rw [wire_foldl_last enc fun m => apart n m set, Option.mem_def.mp last]
    exact ⟨rfl, UInt64.toNat_toUInt32 n⟩
  parts := parts_foldl ds transforms
  padding := by
    rw [paddingBits_foldl_last ds padding, Option.map_map]
    exact congrArg (Option.map · _) (funext UInt64.toNat_toUInt32)

/-- Numbers within their limits are stored as they are. -/
theorem Stored.whole {native : NativeType} {hasFixedPoint : Bool}
    (stored : Stored (·.toNat % 2 ^ 32) ds enc)
    (limits : ∀ d ∈ ds, d.InLimits native hasFixedPoint) : Stored UInt64.toNat ds enc where
  width n last := by
    obtain ⟨kind, same⟩ := stored.width n last
    obtain ⟨-, few, -⟩ := limits _ (mem_width.mp (mem_of_getLast? last))
    exact ⟨kind, same.trans (Nat.mod_eq_of_lt (by omega))⟩
  parts := by
    refine stored.parts.trans (map_congr_left fun p mem => ?_)
    obtain ⟨-, few⟩ := limits _ (mem_parts.mp mem)
    rw [Nat.mod_eq_of_lt (by omega), Nat.mod_eq_of_lt (by omega)]
  padding := by
    refine stored.padding.trans (Option.map_congr fun n last => ?_)
    obtain ⟨-, few⟩ := limits _ (mem_padding.mp (mem_of_getLast? last))
    exact Nat.mod_eq_of_lt (by omega)

/-- Limits only depend on the kind and the width of a type. -/
theorem limits_congr {native native' : NativeType} (kind : native.kind = native'.kind)
    (width : native.bits = native'.bits) (hasFixedPoint : Bool) (d : Directive) :
    (d.InLimits native hasFixedPoint ↔ d.InLimits native' hasFixedPoint) ∧
      (d.Unwrapped native hasFixedPoint ↔ d.Unwrapped native' hasFixedPoint) := by
  cases d <;> simp only [InLimits, Unwrapped, kind, width, and_self]

end Directive

/-! ## Checks without errors -/

namespace EncodingCheck

open Lowering (fieldEncoding)

variable {native : NativeType} {hasFixedPoint quantized : Bool}

/-- A number of bits that the check lets pass is within its limits, unless it was cut. -/
theorem inLimits_bits_iff {a : Applied} {n : UInt64}
    (integer : native.kind = .int → native.bits.toNat ≤ 64)
    (float : native.kind = .float → native.bits = 32 ∨ native.bits = 64)
    (clean : ErrorFree (checkBits native hasFixedPoint a n)) :
    (bits n).InLimits native hasFixedPoint ↔
      (bits n).Unwrapped native hasFixedPoint := by
  unfold InLimits Unwrapped
  rcases errorFree_checkBits clean with ⟨kind, some, few⟩ | ⟨kind, some, few⟩ |
    ⟨kind, fixed, some, few⟩ | ⟨kind, exact, width⟩
  · simp [kind, some, few]
  · have most := integer kind
    have word : n.toNat ≤ 64 := by omega
    simp [kind, some, few, word]
  · simp [kind, fixed, some, few]
  · -- The one case where the number was cut before it was compared.
    simp only [kind, exact, reduceCtorEq, false_implies, true_and, forall_const]
    constructor
    · rintro ⟨-, few, -⟩
      omega
    · intro small
      have whole : n.toUInt32.toNat = n.toNat := by
        rw [UInt64.toNat_toUInt32, Nat.mod_eq_of_lt small]
      have two : n.toNat = 32 ∨ n.toNat = native.bits.toNat :=
        width.imp (fun same => by rw [← whole, same]; rfl) fun same => by rw [← whole, same]
      have known : native.bits.toNat = 32 ∨ native.bits.toNat = 64 :=
        (float kind).imp (congrArg UInt32.toNat) (congrArg UInt32.toNat)
      exact ⟨by omega, by omega, two⟩

/-- A directive that the check lets pass is within its limits, unless a number wrapped around. -/
theorem inLimits_iff {a : Applied} (integer : native.kind = .int → native.bits.toNat ≤ 64)
    (float : native.kind = .float → native.bits = 32 ∨ native.bits = 64)
    (clean : ErrorFree (checkDirective native hasFixedPoint quantized a)) :
    a.meaning.InLimits native hasFixedPoint ↔ a.meaning.Unwrapped native hasFixedPoint := by
  cases meaning : a.meaning with
  | bits n => exact inLimits_bits_iff integer float (errorFree_bits clean meaning)
  | bitsVar n | zigZag | delta => exact Iff.rfl
  | pad n => exact iff_of_true (errorFree_pad clean meaning) trivial
  | fixedPoint i f =>
    obtain ⟨-, some, few⟩ := errorFree_fixedPoint clean meaning
    rw [UInt64.toNat_add] at some few
    unfold InLimits Unwrapped
    constructor
    · rintro ⟨-, small⟩
      omega
    · intro small
      rw [Nat.mod_eq_of_lt small] at some few
      exact ⟨some, few⟩

/-- What is wrong with a directive that means nothing is an error. -/
theorem isError_ofSource {d : Source.Directive} {p : Diagnostic}
    (wrong : ofSource d = .error p) : p.isError = true := by
  rw [isError_eq_true_iff]
  unfold ofSource at wrong
  split at wrong
  · cases wrong
  · split at wrong <;> cases wrong
    · exact (by decide : 3015 < 4000)
    · exact (by decide : 3014 < 4000)

/-- Where no directive is malformed, all of them mean something. -/
theorem ofSource_of_meanings {ds : List Source.Directive} (clean : ErrorFree (meanings ds).2) :
    ds.map ofSource = ((meanings ds).1.map Applied.meaning).map .ok := by
  induction ds with
  | nil => rfl
  | cons d ds ih =>
    unfold meanings at clean ⊢
    cases meaning : ofSource d with
    | ok m =>
      simp only [meaning] at clean ⊢
      rw [map_cons, ih clean, meaning]
      rfl
    | error p =>
      simp only [meaning] at clean
      have warning := clean p mem_cons_self
      rw [isError_ofSource meaning] at warning
      cases warning

/-- A reference takes no directives. -/
theorem applied_eq_nil {applied : List Applied} (reference : native.kind ∈ [.message, .enum])
    (clean : ErrorFree (checkApplied native applied)) : applied = [] := by
  rw [checkApplied, if_pos (by simpa using reference)] at clean
  refine eq_nil_iff_forall_not_mem.mpr fun a mem => ?_
  have single : ErrorFree [inapplicable a native] := by
    intro d inside
    rw [mem_singleton.mp inside]
    exact clean _ (mem_map_of_mem mem)
  exact not_errorFree_inapplicable single

/-- A type that takes a number of bits takes no bound on its length. -/
theorem bits_apart_bitsVar {applied : List Applied} {m n : UInt64}
    (clean : ErrorFree (checkDirectives native hasFixedPoint [] applied))
    (width : .bits m ∈ applied.map Applied.meaning) :
    .bitsVar n ∉ applied.map Applied.meaning := by
  intro length
  obtain ⟨a, _, isWidth, cleanWidth⟩ := applied_of_mem width clean
  obtain ⟨b, _, isLength, cleanLength⟩ := applied_of_mem length clean
  have kind := errorFree_bitsVar cleanLength isLength
  rcases errorFree_checkBits (errorFree_bits cleanWidth isWidth) with h | h | h | h <;>
  simp [h.1] at kind

/-- The numbers in the directives of a field that the check lets pass.  Each directive is within its
limits, as it is written, exactly if nothing in it wrapped around.  The encoding has the numbers cut
to 32 bits, and has them as they are written if all directives are within their limits. -/
theorem limits_of_checkField {table : SymbolTable} {scope : Descriptor} {f : Source.Field}
    {enc : Encoding} (ok : fieldEncoding table scope f = .ok enc)
    (clean : ErrorFree (checkField table scope f)) :
    ∃ ds : List Directive, f.directives.map ofSource = ds.map .ok ∧
      (∀ d ∈ ds, d.InLimits enc.native (ds.any (·.kind == .fixedPoint)) ↔
        d.Unwrapped enc.native (ds.any (·.kind == .fixedPoint))) ∧
      Stored (·.toNat % 2 ^ 32) ds enc ∧
      ((∀ d ∈ ds, d.Unwrapped enc.native (ds.any (·.kind == .fixedPoint))) →
        Stored UInt64.toNat ds enc) := by
  obtain ⟨bare, bareOk, shape⟩ := fieldEncoding_ok ok
  have plain := plain_of_typeEncoding bareOk
  obtain ⟨native, isNative, kind, bits, -⟩ := plain.native
  rw [checkField_eq isNative, errorFree_append, errorFree_append] at clean
  obtain ⟨⟨-, wellFormed⟩, checked⟩ := clean
  refine ⟨(meanings f.directives).1.map Applied.meaning, ofSource_of_meanings wellFormed, ?_⟩
  generalize (meanings f.directives).1 = applied at shape checked
  have each : (∀ d ∈ applied.map Applied.meaning,
      d.InLimits enc.native ((applied.map Applied.meaning).any (·.kind == .fixedPoint)) ↔
        d.Unwrapped enc.native ((applied.map Applied.meaning).any (·.kind == .fixedPoint))) ∧
      Stored (·.toNat % 2 ^ 32) (applied.map Applied.meaning) enc := by
    rcases shape with ⟨embedded, rfl⟩ | ⟨value, rfl⟩
    · have none := applied_eq_nil (kind ▸ plain.reference.mp embedded) checked
      subst none
      refine ⟨by simp, ⟨by simp, ?_, ?_⟩⟩
      · simp [plain.transforms]
      · simp [plain.paddingBits]
    · rw [checkApplied_value (kind ▸ fun reference => value (plain.reference.mpr reference))]
        at checked
      refine ⟨fun d mem => ?_, stored_foldl (fun m n => bits_apart_bitsVar checked)
        plain.transforms plain.paddingBits⟩
      obtain ⟨a, quantized, rfl, clean⟩ := applied_of_mem mem checked
      rw [native_foldl_apply, any_map]
      obtain ⟨limits, unwrapped⟩ := limits_congr kind bits
        (applied.any (·.meaning.kind == .fixedPoint)) a.meaning
      refine limits.symm.trans ((inLimits_iff ?_ ?_ clean).trans unwrapped)
      · rw [kind, bits]
        exact plain.integer
      · rw [kind, bits]
        exact plain.float
  exact ⟨each.1, each.2,
    fun unwrapped => each.2.whole fun d mem => (each.1 d mem).mpr (unwrapped d mem)⟩

theorem limits_of_checkField_quantized :
    ∃ enc, fieldEncoding {} default quantizedField = .ok enc ∧
      ErrorFree (checkField {} default quantizedField) ∧
      Stored UInt64.toNat
        [.delta, .fixedPoint 4 12, .zigZag, .bits 16, .pad 3] enc := by
  have clean : ErrorFree (checkField {} default quantizedField) := by
    unfold ErrorFree
    decide +kernel
  obtain ⟨enc, ok⟩ : ∃ enc, fieldEncoding {} default quantizedField = .ok enc := ⟨_, rfl⟩
  obtain ⟨ds, read, -, -, whole⟩ := limits_of_checkField ok clean
  have same : ds = [.delta, .fixedPoint 4 12, .zigZag, .bits 16, .pad 3] := by
    have known : quantizedField.directives.map ofSource =
        [.delta, .fixedPoint 4 12, .zigZag, .bits 16, .pad 3].map .ok := rfl
    exact map_injective_iff.mpr (fun _ _ => Except.ok.inj) (read.symm.trans known)
  subst same
  refine ⟨enc, ok, clean, whole fun d mem => ?_⟩
  simp only [mem_cons, not_mem_nil, or_false] at mem
  rcases mem with rfl | rfl | rfl | rfl | rfl <;> simp [Unwrapped, kind]

/-- Fixed-point parts whose sum wraps around, and a width that is 64 when it is cut. -/
def wrappedSource : ByteArray :=
  "package p; message M \x7b f64 a [fixed_point(18446744073709551615, 2)]; ".toUTF8 ++
    "f64 b [bits(4294967360)]; \x7d".toUTF8

/-- The check lets both fields pass, but neither is within its limits, and the encodings have other
numbers than the directives. -/
theorem checkEncodings_misses_wrapped :
    ∃ schema, Source.Schema.parse "m" wrappedSource = .ok schema ∧
      ErrorFree (checkEncodings {} schema) ∧ ∃ m ∈ schema.messages,
        (∃ a ∈ m.fields,
          a.directives.filterMap (fun d => (ofSource d).toOption) =
            [.fixedPoint 18446744073709551615 2] ∧
          (∀ native, ¬ (fixedPoint 18446744073709551615 2).InLimits native true) ∧
          ∃ enc, fieldEncoding {} default a = .ok enc ∧
            enc.transforms = [.fixedPoint 4294967295 2]) ∧
        ∃ b ∈ m.fields,
          b.directives.filterMap (fun d => (ofSource d).toOption) = [.bits 4294967360] ∧
          (∀ native, ¬ (bits 4294967360).InLimits native false) ∧
          ∃ enc, fieldEncoding {} default b = .ok enc ∧ enc.wire.bits = 64 := by
  have run : ∃ schema ∈ (Source.Schema.parse "m" wrappedSource).toOption,
      (∀ d ∈ checkEncodings {} schema, d.isError = false) ∧ ∃ m ∈ schema.messages,
        (∃ a ∈ m.fields,
          a.directives.filterMap (fun d => (ofSource d).toOption) =
            [.fixedPoint 18446744073709551615 2] ∧
          ∃ enc ∈ (fieldEncoding {} default a).toOption,
            enc.transforms = [.fixedPoint 4294967295 2]) ∧
        ∃ b ∈ m.fields,
          b.directives.filterMap (fun d => (ofSource d).toOption) = [.bits 4294967360] ∧
          ∃ enc ∈ (fieldEncoding {} default b).toOption, enc.wire.bits = 64 := by
    decide +kernel
  obtain ⟨schema, read, clean, m, mem, ⟨a, insideA, readA, encA, lowersA, parts⟩,
    b, insideB, readB, encB, lowersB, width⟩ := run
  refine ⟨schema, toOption_eq_some_iff.mp read, clean, m, mem,
    ⟨a, insideA, readA, fun native limits => absurd limits.2 (by decide), encA,
      toOption_eq_some_iff.mp lowersA, parts⟩,
    b, insideB, readB, fun native limits => absurd limits.2.1 (by decide), encB,
    toOption_eq_some_iff.mp lowersB, width⟩

end EncodingCheck

end BitSchema
