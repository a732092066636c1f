import BitSchema.Proofs.PrefixFree

/-!
# Outcomes of reads

A read succeeds or fails, and it leaves the reader somewhere in either case.  Whole octets are read
in two ways: at a byte boundary they are taken as they are, elsewhere one by one.  Both come to the
same, and as the octets are counted before the first is read, none of the reads in between can fail.

A length may be any word, also one whose bits no word can number.  The count is right for these too,
since it divides what is left and never multiplies what is asked for.
-/

namespace BitSchema

/-! ## Steps that fail -/

section

variable {ε σ α β : Type} {x : ExceptT ε (StateM σ) α} {s s' s'' : σ} {a : α} {e e' : ε}

/-- The step fails from `s` with the fault `e`, and leaves `s'`. -/
def Fails (x : ExceptT ε (StateM σ) α) (s : σ) (e : ε) (s' : σ) : Prop :=
  outcome x s = (.error e, s')

theorem Succeeds.not_fails (ok : Succeeds x s a s') : ¬ Fails x s e s'' := by
  intro failed
  cases Eq.trans (Eq.symm ok) failed

theorem fails_throw : Fails (throw e : ExceptT ε (StateM σ) α) s e' s' ↔ e = e' ∧ s = s' := by
  have known : outcome (throw e : ExceptT ε (StateM σ) α) s = (.error e, s) := rfl
  rw [Fails, known, Prod.mk.injEq, Except.error.injEq]

theorem fails_bind {f : α → ExceptT ε (StateM σ) β} :
    Fails (x >>= f) s e s'' ↔
      Fails x s e s'' ∨ ∃ a s', Succeeds x s a s' ∧ Fails (f a) s' e s'' := by
  unfold Fails Succeeds
  rw [outcome_bind]
  rcases outcome x s with ⟨result | result, s'⟩
  · simp
  · simp

theorem fails_get {t : σ} : ¬ Fails (get : ExceptT ε (StateM σ) σ) s e t :=
  (succeeds_get.mpr ⟨rfl, rfl⟩).not_fails

end

namespace BitReader

variable {r r' : BitReader} {n : Nat} {fault : ReadFault}

/-! ## Reads that fail -/

/-- Bits are refused if a word cannot hold them or the reader has too few, and then none is read. -/
theorem fails_readBits :
    Fails (readBits n) r fault r' ↔
      r' = r ∧ (64 < n ∧ fault = .tooWide n ∨
        n ≤ 64 ∧ r.remaining < n ∧ fault = .missingBits n r.remaining) := by
  by_cases wide : 64 < n
  · simp [readBits, fails_bind, fails_get, fails_throw, wide, eq_comm, and_comm]
  · by_cases short : r.remaining < n
    · simp [readBits, fails_bind, fails_get, fails_throw, wide, short, Nat.le_of_not_lt wide,
        eq_comm, and_comm]
    · have read := succeeds_readBits.mpr ⟨Nat.le_of_not_lt wide, Nat.le_of_not_lt short, rfl, rfl⟩
      simp [read.not_fails, wide, short]

/-- Octets are only refused by the count before the first read. -/
theorem fails_readBytes :
    Fails (readBytes n) r fault r' ↔
      r.remaining < 8 * n ∧ fault = .missingBytes n r.remaining ∧ r' = r := by
  by_cases held : 8 * n ≤ r.remaining
  · obtain ⟨octets, rfl, next⟩ := exists_next held
    simp [(succeeds_readBytes_next octets next).not_fails, Nat.not_lt.mpr held]
  · have short : r.remaining / 8 < n := by omega
    simp [readBytes, fails_bind, fails_get, fails_throw, short, Nat.lt_of_not_le held, eq_comm]

/-! ## Counting in words -/

/-- The number of bits not read yet, as a word. -/
def remainingWord (r : BitReader) : UInt64 :=
  UInt64.ofNat r.bytes.size * 8 - UInt64.ofNat r.position

theorem toNat_remainingWord (inside : r.Inside) (small : r.bytes.size < 2 ^ 61) :
    r.remainingWord.toNat = r.remaining := by
  unfold Inside at inside
  have size : (UInt64.ofNat r.bytes.size * 8).toNat = 8 * r.bytes.size := by
    rw [UInt64.toNat_mul, UInt64.toNat_ofNat_of_lt' (by change _ < 2 ^ 64; omega)]
    change r.bytes.size * 8 % 2 ^ 64 = _
    omega
  have place : (UInt64.ofNat r.position).toNat = r.position :=
    UInt64.toNat_ofNat_of_lt' (by change _ < 2 ^ 64; omega)
  rw [remainingWord, UInt64.toNat_sub_of_le _ _ ?_, size, place, remaining]
  rw [UInt64.le_iff_toNat_le, size, place]
  exact inside

/-- The count of octets is right in words, and so is the place after them. -/
theorem le_remainingWord_div (inside : r.Inside) (small : r.bytes.size < 2 ^ 61) (n : UInt64) :
    (n ≤ r.remainingWord / 8 ↔ r.position + 8 * n.toNat ≤ 8 * r.bytes.size) ∧
      (n ≤ r.remainingWord / 8 →
        (UInt64.ofNat r.position + n * 8).toNat = r.position + 8 * n.toNat) := by
  have count : (r.remainingWord / 8).toNat = r.remaining / 8 := by
    rw [UInt64.toNat_div, toNat_remainingWord inside small]
    rfl
  have enough : n ≤ r.remainingWord / 8 ↔ r.position + 8 * n.toNat ≤ 8 * r.bytes.size := by
    unfold Inside at inside
    rw [UInt64.le_iff_toNat_le, count, remaining]
    omega
  refine ⟨enough, fun few => ?_⟩
  have bound := enough.mp few
  have place : (UInt64.ofNat r.position).toNat = r.position :=
    UInt64.toNat_ofNat_of_lt' (by change _ < 2 ^ 64; omega)
  have bits : (n * 8).toNat = 8 * n.toNat := by
    rw [UInt64.toNat_mul]
    change n.toNat * 8 % 2 ^ 64 = _
    omega
  rw [UInt64.toNat_add, place, bits]
  omega

/-! ## Whole reads -/

/-- What reads do from any place among the bytes.  Octets are read exactly if all their bits are
there, and come out as one by one; reads of octets and of bits that fail leave the reader where it
was; padding is skipped exactly if it is there and zero.  For data that words can number the bits
of, words suffice to count octets. -/
theorem reads_exact (inside : r.Inside) :
    (∀ n, (∃ octets r', Succeeds (readBytes n) r octets r') ↔
      r.position + 8 * n ≤ 8 * r.bytes.size) ∧
    (∀ n octets r', Succeeds (readBytes n) r octets r' →
      Succeeds ((List.replicate n 8).mapM readBits) r (octets.map UInt8.toUInt64) r' ∧
        r' = ⟨r.bytes, r.position + 8 * n⟩) ∧
    (∀ n, r.position + 8 * n ≤ 8 * r.bytes.size →
      ∀ fault r', ¬ Fails ((List.replicate n 8).mapM readBits) r fault r') ∧
    (∀ n fault r', Fails (readBytes n) r fault r' → r' = r ∧ fault = .missingBytes n r.remaining) ∧
    (∀ n fault r', Fails (readBits n) r fault r' → r' = r) ∧
    (∀ n r', Succeeds (skipPadding n) r () r' ↔
      r.position + n ≤ 8 * r.bytes.size ∧ (∀ bit ∈ r.unread.take n, bit = false) ∧
        r' = ⟨r.bytes, r.position + n⟩) ∧
    (r.bytes.size < 2 ^ 61 → ∀ n : UInt64,
      (n ≤ r.remainingWord / 8 ↔ r.position + 8 * n.toNat ≤ 8 * r.bytes.size) ∧
        (n ≤ r.remainingWord / 8 →
          (UInt64.ofNat r.position + n * 8).toNat = r.position + 8 * n.toNat)) := by
  have left : ∀ n, n ≤ r.remaining ↔ r.position + n ≤ 8 * r.bytes.size := by
    intro n
    unfold Inside at inside
    rw [remaining]
    omega
  refine ⟨fun n => ?_, fun n octets r' read => ?_, fun n held fault r' => ?_,
    fun n fault r' failed => ?_, fun n fault r' failed => (fails_readBits.mp failed).1,
    fun n r' => ?_, le_remainingWord_div inside⟩
  · rw [← left]
    constructor
    · rintro ⟨octets, r', read⟩
      by_contra short
      exact read.not_fails (fails_readBytes.mpr ⟨Nat.lt_of_not_le short, rfl, rfl⟩)
    · intro held
      obtain ⟨octets, rfl, next⟩ := exists_next held
      exact ⟨octets, _, succeeds_readBytes_next octets next⟩
  · obtain ⟨rfl, bits, rfl⟩ := succeeds_readBytes.mp read
    have next : r.unread = octetBits octets ++ r.unread.drop (8 * octets.length) := by
      rw [bits, List.take_append_drop]
    exact ⟨succeeds_mapM_readBits octets next, rfl⟩
  · obtain ⟨octets, rfl, next⟩ := exists_next ((left _).mpr held)
    exact (succeeds_mapM_readBits octets next).not_fails
  · obtain ⟨-, same, stays⟩ := fails_readBytes.mp failed
    exact ⟨stays, same⟩
  · rw [succeeds_skipPadding, ← left, remaining_eq, List.eq_replicate_iff, List.length_take,
      min_eq_left_iff, and_assoc]
    rfl

/-- Two octets from the fourth bit on of three, and then one too many. -/
theorem reads_exact_unaligned :
    Succeeds (readBytes 2) ⟨#[253, 7, 3], 3⟩ [255, 96] ⟨#[253, 7, 3], 19⟩ ∧
      Succeeds ((List.replicate 2 8).mapM readBits) ⟨#[253, 7, 3], 3⟩ [255, 96] ⟨#[253, 7, 3], 19⟩ ∧
      ¬ ∃ octets r', Succeeds (readBytes 3) ⟨#[253, 7, 3], 3⟩ octets r' := by
  have inside : (⟨#[253, 7, 3], 3⟩ : BitReader).Inside := by
    rw [Inside]
    decide
  obtain ⟨held, same, -⟩ := reads_exact inside
  have read : Succeeds (readBytes 2) ⟨#[253, 7, 3], 3⟩ [255, 96] ⟨#[253, 7, 3], 19⟩ := by
    rw [succeeds_readBytes]
    decide
  exact ⟨read, (same 2 _ _ read).1, (held 3).not.mpr (by decide)⟩

end BitReader

end BitSchema
