import BitSchema.Codec.Decode
import BitSchema.Proofs.Outcome
import BitSchema.Proofs.Word

/-!
# Transform pipelines

What a number goes through on its way to the wire can be undone: `unrun_run` for the way there and
back, `run_unrun` for the way back and there.  The encoder runs the value with its baseline and the
decoder the baseline alone, and `run_baseline` says that both see the same baselines.
-/

namespace BitSchema.Codec

open List
open Ir (Transform NativeType Encoding)

/-! ## One transform -/

variable {t : Transform} {n base last : Number} {d : Domain} {ts : List Transform}
  {bases : List Number} {v : Value} {native : NativeType} {enc : Encoding}

/-- What one transform can do to a number whose baseline is in the same domain. -/
theorem forward_cases (same : base.domain = n.domain) (ok : forward t n base = .ok last) :
    (∃ m b, t.kind = .delta ∧ n = .unsigned m ∧ base = .unsigned b ∧
        last = .signed (m - b).toInt64) ∨
      (∃ m b, t.kind = .delta ∧ n = .signed m ∧ base = .signed b ∧ last = .signed (m - b)) ∨
      (∃ m b, t.kind = .delta ∧ n = .float m ∧ base = .float b ∧ last = .float (floatSub m b)) ∨
      (∃ m q, t.kind = .fixedPoint ∧ n = .float m ∧ last = .signed q) ∨
      (∃ m, t.kind = .zigZag ∧ n = .signed m ∧ last = .unsigned (Word.zigZag m)) := by
  rcases t with ⟨kind, integer, fractional⟩
  cases kind with
  | delta =>
    cases n <;> cases base <;> simp_all [forward, Number.domain]
  | zigZag => cases n <;> simp_all [forward]
  | fixedPoint =>
    cases n with
    | unsigned | signed => simp [forward] at ok
    | float m =>
      simp only [forward] at ok
      split at ok
      · cases ok
        simp
      · cases ok
  | other name => simp [forward] at ok

theorem stepDomain_of_forward (same : base.domain = n.domain) (ok : forward t n base = .ok last) :
    stepDomain t n.domain = .ok last.domain := by
  rcases forward_cases same ok with ⟨m, b, kind, rfl, rfl, rfl⟩ | ⟨m, b, kind, rfl, rfl, rfl⟩ |
    ⟨m, b, kind, rfl, rfl, rfl⟩ | ⟨m, q, kind, rfl, rfl⟩ | ⟨m, kind, rfl, rfl⟩ <;>
  simp [stepDomain, kind, Number.domain]

/-- A number and its baseline stay in the same domain. -/
theorem domain_of_forward {lastBase : Number} (same : base.domain = n.domain)
    (ok : forward t n base = .ok last) (baseline : forward t base base = .ok lastBase) :
    lastBase.domain = last.domain := by
  have step := stepDomain_of_forward rfl baseline
  rw [same, stepDomain_of_forward same ok] at step
  exact (Except.ok.inj step).symm

/-- Without floats a transform loses nothing. -/
theorem backward_forward (exact : n.domain ≠ .float) (same : base.domain = n.domain)
    (ok : forward t n base = .ok last) : backward t last base = n := by
  rcases forward_cases same ok with ⟨m, b, kind, rfl, rfl, rfl⟩ | ⟨m, b, kind, rfl, rfl, rfl⟩ |
    ⟨m, b, kind, rfl, rfl, rfl⟩ | ⟨m, q, kind, rfl, rfl⟩ | ⟨m, kind, rfl, rfl⟩
  · rw [backward, UInt64.toUInt64_toInt64, add_sub_cancel]
    exact kind
  · rw [backward, Int64.add_comm, Int64.sub_add_cancel]
    exact kind
  · exact absurd rfl exact
  · exact absurd rfl exact
  · rw [backward, Word.unZigZag_zigZag]
    exact kind

theorem next_ne_float {next : Domain} (exact : d ≠ .float) (step : stepDomain t d = .ok next) :
    next ≠ .float := by
  rcases t with ⟨kind, integer, fractional⟩
  cases kind <;> cases d <;> simp_all [stepDomain] <;> subst step <;> simp

/-- A zig-zag transform undoes its inverse. -/
theorem forward_backward (kind : t.kind = .zigZag) (step : stepDomain t d = .ok n.domain) :
    (backward t n base).domain = d ∧ forward t (backward t n base) base = .ok n := by
  have first : d = .signed := by
    cases d <;> simp [stepDomain, kind] at step ⊢
  subst first
  have last : n.domain = .unsigned := by simpa [stepDomain, kind, eq_comm] using step
  cases n with
  | unsigned u => simp [backward, forward, kind, Number.domain, Word.zigZag_unZigZag]
  | signed | float => cases last

/-! ## All of them -/

theorem run_cons_ok_iff :
    run (t :: ts) n base = .ok (last, bases) ↔
      ∃ next nextBase rest, forward t n base = .ok next ∧ forward t base base = .ok nextBase ∧
        run ts next nextBase = .ok (last, rest) ∧ bases = base :: rest := by
  simp only [run, bind_ok_iff, mapError_ok_iff, Prod.exists]
  constructor
  · rintro ⟨next, first, nextBase, second, last', rest, third, eq⟩
    cases eq
    exact ⟨next, nextBase, rest, first, second, third, rfl⟩
  · rintro ⟨next, nextBase, rest, first, second, third, rfl⟩
    exact ⟨next, first, nextBase, second, last, rest, third, rfl⟩

theorem domains_cons_ok_iff {befores : List Domain} {last : Domain} :
    domains (t :: ts) d = .ok (befores, last) ↔
      ∃ next rest, befores = d :: rest ∧ stepDomain t d = .ok next ∧
        domains ts next = .ok (rest, last) := by
  simp only [domains, bind_ok_iff, Prod.exists]
  constructor
  · rintro ⟨next, step, rest, last, ends, eq⟩
    cases eq
    exact ⟨next, rest, rfl, step, ends⟩
  · rintro ⟨next, rest, rfl, step, ends⟩
    exact ⟨next, step, rest, last, ends, rfl⟩

/-- The decoder finds the domain that the encoder ended in. -/
theorem domains_of_run (same : base.domain = n.domain) (ok : run ts n base = .ok (last, bases)) :
    ∃ befores, domains ts n.domain = .ok (befores, last.domain) := by
  induction ts generalizing n base bases with
  | nil =>
    cases ok
    exact ⟨[], rfl⟩
  | cons t ts ih =>
    obtain ⟨next, nextBase, rest, first, second, later, rfl⟩ := run_cons_ok_iff.mp ok
    obtain ⟨befores, domains⟩ := ih (domain_of_forward same first second) later
    exact ⟨_, domains_cons_ok_iff.mpr ⟨_, befores, rfl, stepDomain_of_forward same first, domains⟩⟩

/-- The baselines do not depend on the number that runs with them. -/
theorem run_baseline (ok : run ts n base = .ok (last, bases)) :
    ∃ lastBase, run ts base base = .ok (lastBase, bases) := by
  induction ts generalizing n base bases with
  | nil =>
    cases ok
    exact ⟨base, rfl⟩
  | cons t ts ih =>
    obtain ⟨next, nextBase, rest, first, second, later, rfl⟩ := run_cons_ok_iff.mp ok
    obtain ⟨lastBase, run⟩ := ih later
    exact ⟨lastBase, run_cons_ok_iff.mpr ⟨nextBase, nextBase, rest, second, second, run, rfl⟩⟩

/-- Integers stay integers on their way, and can be run back. -/
theorem unrun_run (exact : n.domain ≠ .float) (same : base.domain = n.domain)
    (ok : run ts n base = .ok (last, bases)) :
    last.domain ≠ .float ∧ unrun ts bases last = n := by
  induction ts generalizing n base bases with
  | nil =>
    cases ok
    exact ⟨exact, rfl⟩
  | cons t ts ih =>
    obtain ⟨next, nextBase, rest, first, second, later, rfl⟩ := run_cons_ok_iff.mp ok
    have nextExact := next_ne_float exact (stepDomain_of_forward same first)
    obtain ⟨lastExact, back⟩ := ih nextExact (domain_of_forward same first second) later
    rw [unrun, back]
    exact ⟨lastExact, backward_forward exact same first⟩

/-- Where all transforms are zig-zags, what was run back can be run again. -/
theorem run_unrun {lastBase : Number} {befores : List Domain} (zigZags : ∀ t ∈ ts, t.kind = .zigZag)
    (ends : domains ts d = .ok (befores, n.domain))
    (baseline : run ts base base = .ok (lastBase, bases)) :
    (unrun ts bases n).domain = d ∧ run ts (unrun ts bases n) base = .ok (n, bases) := by
  induction ts generalizing d base befores bases with
  | nil =>
    cases baseline
    cases ends
    exact ⟨rfl, rfl⟩
  | cons t ts ih =>
    obtain ⟨nextBase, _, rest, first, second, later, rfl⟩ := run_cons_ok_iff.mp baseline
    cases first.symm.trans second
    obtain ⟨next, befores, rfl, step, ends⟩ := domains_cons_ok_iff.mp ends
    obtain ⟨domain, run⟩ := ih (fun t mem => zigZags t (mem_cons_of_mem _ mem)) ends later
    rw [← domain] at step
    obtain ⟨start, forward⟩ := forward_backward (zigZags t mem_cons_self) step
    exact ⟨start, run_cons_ok_iff.mpr ⟨_, nextBase, rest, forward, first, run, rfl⟩⟩

/-! ## Zero -/

theorem encode_zero {i f : UInt32} (some : 1 ≤ (i + f).toNat) (few : (i + f).toNat ≤ 64) :
    FixedPoint.encode 0 i f = .ok 0 := by
  obtain ⟨q, decoded⟩ : ∃ q, FloatFormat.double.decode (0 : UInt64).toNat = .finite false 0 q :=
    ⟨_, rfl⟩
  have limit : (0 : Int) < Nat.pow 2 ((i + f).toNat - 1) := by
    exact_mod_cast Nat.two_pow_pos _
  unfold FixedPoint.encode
  rw [if_neg (by omega), decoded]
  simp only [FixedPoint.whole?, if_pos]
  rw [if_pos]
  · rfl
  · simp only [Bool.false_eq_true, if_false, Int.natCast_zero]
    omega

/-- If the transform is to a fixed-point format then to one of a width. -/
def Formatted (t : Transform) : Prop :=
  t.kind = .fixedPoint → 1 ≤ (t.integerBits + t.fractionalBits).toNat ∧
    (t.integerBits + t.fractionalBits).toNat ≤ 64

theorem forward_zero {next : Domain} (fixed : d = .float → Formatted t)
    (step : stepDomain t d = .ok next) : forward t (.zero d) (.zero d) = .ok (.zero next) := by
  rcases t with ⟨kind, integer, fractional⟩
  cases kind with
  | fixedPoint =>
    cases d with
    | float =>
      cases step
      obtain ⟨some, few⟩ := fixed rfl rfl
      simp only [forward, Number.zero, encode_zero some few]
    | unsigned | signed => cases step
  | delta | zigZag | other name => cases d <;> cases step <;> rfl

/-- Zero goes through all transforms that are accepted, and stays zero. -/
theorem run_zero {last : Domain} {befores : List Domain}
    (fixed : d = .float → ∀ t ∈ ts, Formatted t) (ends : domains ts d = .ok (befores, last)) :
    ∃ bases, run ts (.zero d) (.zero d) = .ok (.zero last, bases) := by
  induction ts generalizing d befores with
  | nil =>
    cases ends
    exact ⟨[], rfl⟩
  | cons t ts ih =>
    obtain ⟨next, befores, rfl, step, ends⟩ := domains_cons_ok_iff.mp ends
    have first := forward_zero (fun float => fixed float t mem_cons_self) step
    obtain ⟨bases, ran⟩ := ih (fun float u mem =>
      fixed (not_imp_not.mp (next_ne_float · step) float) u (mem_cons_of_mem _ mem)) ends
    exact ⟨_, run_cons_ok_iff.mpr ⟨_, _, bases, first, first, ran, rfl⟩⟩

/-! ## Values as numbers -/

/-- The integer that a value is; an absent value is zero. -/
def Value.integer? : Value → Option Int
  | null => some 0
  | int _ n => some n
  | _ => none

theorem toUInt64?_eq_some_iff {m : UInt64} :
    v.toUInt64? = some m ↔ v.integer? = some (m.toNat : Int) := by
  cases v with
  | null =>
    simp only [Value.toUInt64?, Value.integer?, Option.some.injEq, ← UInt64.toNat_inj]
    norm_cast
  | int type n =>
    have small := m.toNat_lt
    simp only [Value.toUInt64?, Value.integer?, Nat.pow_eq, Option.some.injEq]
    constructor
    · intro eq
      split at eq
      next range =>
        injection eq with eq
        rw [← eq, UInt64.toNat_ofNat_of_lt' (by change n.toNat < 2 ^ 64; omega)]
        omega
      next => cases eq
    · rintro rfl
      rw [if_pos (by norm_cast; omega), Int.toNat_natCast, UInt64.ofNat_toNat]
  | _ => simp [Value.toUInt64?, Value.integer?]

theorem toInt64?_eq_some_iff {m : Int64} : v.toInt64? = some m ↔ v.integer? = some m.toInt := by
  cases v with
  | null => simp [Value.toInt64?, Value.integer?, ← Int64.toInt_inj]
  | int type n =>
    have range := Word.toInt_range m
    simp only [Value.toInt64?, Value.integer?, Nat.pow_eq, Option.some.injEq]
    constructor
    · intro eq
      split at eq
      next inside =>
        injection eq with eq
        rw [← eq, Int64.toInt_ofInt_of_le (by omega) (by omega)]
      next => cases eq
    · rintro rfl
      rw [if_pos (by norm_cast), Int64.ofInt_toInt]
  | _ => simp [Value.toInt64?, Value.integer?]

theorem map_filter_eq_some_iff {α β : Type} {x : Option α} {p : α → Bool} {f : α → β} {b : β} :
    (x.filter p).map f = some b ↔ ∃ a, b = f a ∧ x = some a ∧ p a = true := by
  rw [Option.map_eq_some_iff]
  constructor
  · rintro ⟨a, kept, rfl⟩
    exact ⟨a, rfl, Option.filter_eq_some_iff.mp kept⟩
  · rintro ⟨a, rfl, kept⟩
    exact ⟨a, Option.filter_eq_some_iff.mpr kept, rfl⟩

theorem loadNumber_unsigned_iff (unsigned : nativeDomain native = .unsigned) :
    loadNumber native v = .ok n ↔
      ∃ m : UInt64, n = .unsigned m ∧ v.integer? = some (m.toNat : Int) ∧
        Word.fitsUnsigned m native.bits.toNat = true := by
  have found : loadNumber native v = .ok n ↔
      (v.toUInt64?.filter (Word.fitsUnsigned · native.bits.toNat)).map .unsigned = some n := by
    simp only [loadNumber, unsigned]
    split
    next m eq => rw [eq, Option.some.injEq, Except.ok.injEq]
    next eq => simp [eq]
  simp only [found, map_filter_eq_some_iff, toUInt64?_eq_some_iff]

theorem loadNumber_signed_iff (signed : nativeDomain native = .signed) :
    loadNumber native v = .ok n ↔
      ∃ m : Int64, n = .signed m ∧ v.integer? = some m.toInt ∧
        Word.fitsSigned m native.bits.toNat = true := by
  have found : loadNumber native v = .ok n ↔
      (v.toInt64?.filter (Word.fitsSigned · native.bits.toNat)).map .signed = some n := by
    simp only [loadNumber, signed]
    split
    next m eq => rw [eq, Option.some.injEq, Except.ok.injEq]
    next eq => simp [eq]
  simp only [found, map_filter_eq_some_iff, toInt64?_eq_some_iff]

theorem domain_of_loadNumber (ok : loadNumber native v = .ok n) :
    n.domain = nativeDomain native := by
  cases domain : nativeDomain native with
  | unsigned =>
    obtain ⟨m, rfl, -⟩ := (loadNumber_unsigned_iff domain).mp ok
    rfl
  | signed =>
    obtain ⟨m, rfl, -⟩ := (loadNumber_signed_iff domain).mp ok
    rfl
  | float =>
    simp only [loadNumber, domain] at ok
    cases double : v.toDouble? <;> simp [double] at ok
    subst ok
    rfl

theorem domain_of_loadBaseline {base : Value} {b : Number} (ok : loadBaseline enc base = .ok b) :
    b.domain = nativeDomain enc.native := by
  unfold loadBaseline at ok
  split at ok
  · exact domain_of_loadNumber (mapError_ok_iff.mp ok)
  · cases ok
    cases nativeDomain enc.native <;> rfl

/-! ## Numbers on the wire -/

theorem transformed_ok_iff {base : Value} :
    transformed enc v base = .ok last ↔
      ∃ n b bases, loadNumber enc.native v = .ok n ∧ loadBaseline enc base = .ok b ∧
        run enc.transforms n b = .ok (last, bases) := by
  simp only [transformed, bind_ok_iff, mapError_ok_iff, Prod.exists]
  constructor
  · rintro ⟨n, loaded, b, baseline, last', bases, run, eq⟩
    cases eq
    exact ⟨n, b, bases, loaded, baseline, run⟩
  · rintro ⟨n, b, bases, loaded, baseline, run⟩
    exact ⟨n, loaded, b, baseline, last, bases, run, rfl⟩

theorem prepared_ok_iff {base : Value} :
    prepared enc base = .ok (d, bases) ↔
      ∃ befores b lastBase, domains enc.transforms (nativeDomain enc.native) = .ok (befores, d) ∧
        loadBaseline enc base = .ok b ∧ run enc.transforms b b = .ok (lastBase, bases) := by
  simp only [prepared, bind_ok_iff, mapError_ok_iff, Prod.exists]
  constructor
  · rintro ⟨befores, d', ends, b, baseline, lastBase, bases', run, eq⟩
    cases eq
    exact ⟨befores, b, lastBase, ends, baseline, run⟩
  · rintro ⟨befores, b, lastBase, ends, baseline, run⟩
    exact ⟨befores, d, ends, b, baseline, lastBase, bases, run, rfl⟩

/-- Whatever the encoder could transform, the decoder is prepared for.  Integers stay integers, and
the decoder runs the result back to the number that was loaded. -/
theorem prepared_of_transformed {base : Value} (exact : nativeDomain enc.native ≠ .float)
    (ok : transformed enc v base = .ok last) :
    ∃ n bases, loadNumber enc.native v = .ok n ∧ prepared enc base = .ok (last.domain, bases) ∧
      last.domain ≠ .float ∧ unrun enc.transforms bases last = n := by
  obtain ⟨n, b, bases, loaded, baseline, ran⟩ := transformed_ok_iff.mp ok
  have domain := domain_of_loadNumber loaded
  have same : b.domain = n.domain := (domain_of_loadBaseline baseline).trans domain.symm
  rw [← domain] at exact
  obtain ⟨befores, ends⟩ := domains_of_run same ran
  obtain ⟨lastBase, baseRan⟩ := run_baseline ran
  rw [domain] at ends
  have ready := prepared_ok_iff.mpr ⟨befores, b, lastBase, ends, baseline, baseRan⟩
  exact ⟨n, bases, loaded, ready, unrun_run exact same ran⟩

end BitSchema.Codec
