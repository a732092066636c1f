import Mathlib
import BitSchema.Number.Binary
import BitSchema.Number.Word

/-!
# Words as numbers

Zig-zag order and sign extension are written with shifts and masks.  Here they are equations between
the numbers that the words stand for, from which round trips and ranges follow by arithmetic.  So
all tests of a width agree (`widths_agree`).
-/

namespace BitSchema

theorem bitLength_le_iff {n width : Nat} : bitLength n ≤ width ↔ n < 2 ^ width := by
  unfold bitLength
  split
  next zero => simp [zero]
  next nonzero => rw [← Nat.log2_lt nonzero, Nat.succ_le_iff]

namespace Word

/-! ## Signed words -/

theorem toInt_eq_toNat (v : Int64) :
    v.toInt = if v.toUInt64.toNat < 2 ^ 63 then (v.toUInt64.toNat : Int)
      else v.toUInt64.toNat - 2 ^ 64 := by
  have bits : v.toInt = v.toBitVec.toInt := rfl
  have nat : v.toUInt64.toNat = v.toBitVec.toNat := rfl
  rw [bits, nat, BitVec.toInt_eq_toNat_cond]
  split <;> split <;> omega

theorem toInt_range (v : Int64) : -2 ^ 63 ≤ v.toInt ∧ v.toInt < 2 ^ 63 :=
  ⟨Int64.le_toInt v, Int64.toInt_lt v⟩

/-! ## Zig-zag order -/

/-- The sign of a word, spread over all its bits. -/
theorem shiftRight_sign (v : Int64) : v >>> 63 = if v.toInt < 0 then -1 else 0 := by
  have shifted : (v >>> 63).toBitVec = v.toBitVec.sshiftRight 63 := by
    rw [Int64.toBitVec_shiftRight]
    rfl
  have range := toInt_range v
  have bits : v.toBitVec.toInt = v.toInt := rfl
  apply Int64.toBitVec_inj.mp
  apply BitVec.eq_of_toInt_eq
  rw [shifted, BitVec.toInt_sshiftRight, Int.shiftRight_eq_div_pow, bits]
  split
  · have negative : (-1 : Int64).toBitVec.toInt = -1 := rfl
    rw [negative]
    omega
  · have zero : (0 : Int64).toBitVec.toInt = 0 := rfl
    rw [zero]
    omega

/-- Zig-zag order doubles a number, and turns the negative ones over into the gaps. -/
theorem toNat_zigZag (v : Int64) :
    ((zigZag v).toNat : Int) = if 0 ≤ v.toInt then 2 * v.toInt else -2 * v.toInt - 1 := by
  have doubled : (v <<< 1).toUInt64.toNat = 2 * v.toUInt64.toNat % 2 ^ 64 := by
    have bits : (v <<< 1).toUInt64.toNat = (v.toBitVec <<< 1).toNat := rfl
    rw [bits, BitVec.toNat_shiftLeft, Nat.shiftLeft_eq, Nat.mul_comm]
    rfl
  have size : UInt64.size = 2 ^ 64 := rfl
  have small := v.toUInt64.toNat_lt
  have number := toInt_eq_toNat v
  rw [zigZag, shiftRight_sign]
  by_cases negative : v.toInt < 0
  · rw [if_pos negative, Int64.xor_neg_one, Int64.toUInt64_not, UInt64.toNat_not, doubled, size]
    split at number <;> split <;> omega
  · rw [if_neg negative, Int64.xor_zero, doubled]
    split at number <;> split <;> omega

/-- The way back: even words are the numbers from zero on, odd ones those below. -/
theorem toInt_unZigZag (u : UInt64) :
    (unZigZag u).toInt =
      if u.toNat % 2 = 0 then (u.toNat / 2 : Int) else -(u.toNat / 2 : Int) - 1 := by
  have halved : (u >>> 1).toInt64.toUInt64.toNat = u.toNat / 2 := by
    rw [UInt64.toUInt64_toInt64, UInt64.toNat_shiftRight]
    rfl
  have low : u &&& 1 = if u.toNat % 2 = 0 then 0 else 1 := by
    apply UInt64.toNat_inj.mp
    have bit : (u &&& 1).toNat = u.toNat % 2 := by
      rw [UInt64.toNat_and]
      exact Nat.and_one_is_mod _
    rw [bit]
    split
    next even => rw [even]; rfl
    next odd => rw [Nat.mod_two_ne_zero.mp odd]; rfl
  have size : UInt64.size = 2 ^ 64 := rfl
  have small := u.toNat_lt
  rw [unZigZag, toInt_eq_toNat, low]
  by_cases even : u.toNat % 2 = 0
  · have zero : -(0 : UInt64).toInt64 = 0 := rfl
    rw [if_pos even, if_pos even, zero, Int64.xor_zero, halved]
    split <;> omega
  · have ones : -(1 : UInt64).toInt64 = -1 := rfl
    rw [if_neg even, if_neg even, ones, Int64.xor_neg_one, Int64.toUInt64_not, UInt64.toNat_not,
      halved, size]
    split <;> omega

theorem unZigZag_zigZag (v : Int64) : unZigZag (zigZag v) = v := by
  have forth := toNat_zigZag v
  apply Int64.toInt_inj.mp
  rw [toInt_unZigZag]
  split at forth <;> split <;> omega

theorem zigZag_unZigZag (u : UInt64) : zigZag (unZigZag u) = u := by
  have back := toInt_unZigZag u
  have forth := toNat_zigZag (unZigZag u)
  apply UInt64.toNat_inj.mp
  split at forth <;> split at back <;> omega

/-! ## Widths -/

variable {n : Nat} {v : Int64} {u : UInt64}

/-- A word fits if its number is below a power of two. -/
theorem fitsUnsigned_iff {v : UInt64} (narrow : n ≤ 64) :
    fitsUnsigned v n = true ↔ v.toNat < 2 ^ n := by
  have small := v.toNat_lt
  rw [fitsUnsigned, Bool.or_eq_true, decide_eq_true_iff, decide_eq_true_iff, Nat.pow_eq]
  constructor
  · rintro (wide | fits)
    · rwa [show n = 64 by omega]
    · exact fits
  · exact Or.inr

/-- A signed word fits if it is in the range of two's complement. -/
theorem fitsSigned_iff (some : 1 ≤ n) (narrow : n ≤ 64) :
    fitsSigned v n = true ↔ -2 ^ (n - 1) ≤ v.toInt ∧ v.toInt < 2 ^ (n - 1) := by
  unfold fitsSigned
  split
  next wide =>
    have range := toInt_range v
    rw [show n - 1 = 63 by omega]
    exact iff_of_true rfl range
  next =>
    rw [if_neg (by omega), Bool.and_eq_true, decide_eq_true_iff, decide_eq_true_iff]
    push_cast [Nat.pow_eq]
    rfl

/-- A word shifted up and, with its sign, down again. -/
theorem toInt_shiftLeft_shiftRight (v : UInt64) {k : Nat} (below : k < 64) :
    ((v <<< UInt64.ofNat k).toInt64 >>> (UInt64.ofNat k).toInt64).toInt =
      (v.toBitVec <<< k).toInt / 2 ^ k := by
  have amount : (UInt64.ofNat k).toInt64.toBitVec.smod 64 = BitVec.ofNat 64 k := by
    have value : (UInt64.ofNat k).toInt64.toBitVec = BitVec.ofNat 64 k := rfl
    rw [value]
    interval_cases k <;> rfl
  have up : (v <<< UInt64.ofNat k).toInt64.toBitVec = v.toBitVec <<< k := by
    have nat : (v <<< UInt64.ofNat k).toInt64.toBitVec.toNat = (v <<< UInt64.ofNat k).toNat := rfl
    apply BitVec.eq_of_toNat_eq
    rw [nat, UInt64.toNat_shiftLeft, BitVec.toNat_shiftLeft]
    simp [Nat.mod_eq_of_lt below]
  have bits : ∀ x : Int64, x.toInt = x.toBitVec.toInt := fun _ => rfl
  rw [bits, Int64.toBitVec_shiftRight, amount, up, BitVec.sshiftRight', BitVec.toInt_sshiftRight,
    Int.shiftRight_eq_div_pow, BitVec.toNat_ofNat, Nat.mod_eq_of_lt (by omega)]
  push_cast
  rfl

/-- The low bits of a word as a number in two's complement. -/
theorem toInt_signExtend (v : UInt64) (some : 1 ≤ n) (narrow : n ≤ 64) :
    (signExtend v n).toInt =
      if v.toNat % 2 ^ n < 2 ^ (n - 1) then ((v.toNat % 2 ^ n : Nat) : Int)
      else (v.toNat % 2 ^ n : Nat) - 2 ^ n := by
  unfold signExtend
  by_cases whole : n = 64
  · subst whole
    have small := v.toNat_lt
    rw [if_pos (by omega), toInt_eq_toNat, UInt64.toUInt64_toInt64, Nat.mod_eq_of_lt small]
  · rw [if_neg (by omega)]
    dsimp only
    rw [toInt_shiftLeft_shiftRight v (by omega), BitVec.toInt_eq_toNat_cond, BitVec.toNat_shiftLeft,
      Nat.shiftLeft_eq]
    have word : 2 ^ 64 = 2 ^ n * 2 ^ (64 - n) := by rw [← pow_add, Nat.add_sub_cancel' narrow]
    have half : 2 ^ n = 2 * 2 ^ (n - 1) := by rw [← pow_succ', Nat.sub_add_cancel some]
    have positive : 0 < 2 ^ (64 - n) := Nat.two_pow_pos _
    have nat : v.toBitVec.toNat = v.toNat := rfl
    rw [nat, word, Nat.mul_mod_mul_right]
    generalize v.toNat % 2 ^ n = low
    have compare : 2 * (low * 2 ^ (64 - n)) < 2 ^ n * 2 ^ (64 - n) ↔ low < 2 ^ (n - 1) := by
      rw [← mul_assoc, Nat.mul_lt_mul_right positive, half]
      omega
    simp only [compare]
    split
    · push_cast
      exact Int.mul_ediv_cancel _ (by positivity)
    · push_cast
      rw [← sub_mul]
      exact Int.mul_ediv_cancel _ (by positivity)

theorem two_pow_eq_double (some : 1 ≤ n) : 2 ^ n = 2 * 2 ^ (n - 1) := by
  rw [← pow_succ', Nat.sub_add_cancel some]

/-- The low bits of a signed word are its number modulo a power of two. -/
theorem toUInt64_emod (v : Int64) (narrow : n ≤ 64) :
    ((v.toUInt64.toNat % 2 ^ n : Nat) : Int) = v.toInt % 2 ^ n := by
  have word : (2 : Int) ^ 64 = 2 ^ n * 2 ^ (64 - n) := by rw [← pow_add, Nat.add_sub_cancel' narrow]
  rw [toInt_eq_toNat, Int.natCast_emod, Nat.cast_pow, Nat.cast_ofNat]
  split
  · rfl
  · rw [word, Int.sub_mul_emod_self_left]

theorem fitsSigned_signExtend (u : UInt64) (some : 1 ≤ n) (narrow : n ≤ 64) :
    fitsSigned (signExtend u n) n = true := by
  have below := Nat.mod_lt u.toNat (Nat.two_pow_pos n)
  have half := two_pow_eq_double some
  rw [fitsSigned_iff some narrow, toInt_signExtend u some narrow]
  generalize u.toNat % 2 ^ n = low at below
  zify at below half
  split
  next low =>
    zify at low
    omega
  next high =>
    zify at high
    omega

/-- Sign extension keeps the low bits. -/
theorem toUInt64_signExtend_mod (u : UInt64) (some : 1 ≤ n) (narrow : n ≤ 64) :
    (signExtend u n).toUInt64.toNat % 2 ^ n = u.toNat % 2 ^ n := by
  zify
  have low := toUInt64_emod (signExtend u n) narrow
  push_cast at low
  rw [low, toInt_signExtend u some narrow]
  split <;> push_cast
  · exact Int.emod_emod_of_dvd _ (dvd_refl _)
  · rw [Int.sub_emod_right]
    exact Int.emod_emod_of_dvd _ (dvd_refl _)

/-- A number that fits in `n` bits is what its low `n` bits stand for. -/
theorem signExtend_of_fits (some : 1 ≤ n) (narrow : n ≤ 64) (fits : fitsSigned v n = true)
    (low : u.toNat % 2 ^ n = v.toUInt64.toNat % 2 ^ n) : signExtend u n = v := by
  have range := (fitsSigned_iff some narrow).mp fits
  have half := two_pow_eq_double some
  have bits := toUInt64_emod v narrow
  have below := Nat.mod_lt v.toUInt64.toNat (Nat.two_pow_pos n)
  zify at half below
  apply Int64.toInt_inj.mp
  rw [toInt_signExtend u some narrow, low]
  generalize v.toUInt64.toNat % 2 ^ n = m at bits below
  by_cases negative : v.toInt < 0
  · have shifted : (m : Int) = v.toInt + 2 ^ n := by
      rw [bits, ← Int.add_emod_right]
      exact Int.emod_eq_of_lt (by omega) (by omega)
    rw [if_neg (by zify; omega)]
    omega
  · have same : (m : Int) = v.toInt := by
      rw [bits]
      exact Int.emod_eq_of_lt (by omega) (by omega)
    rw [if_pos (by zify; omega)]
    omega

/-- The low bits of a number stand for it exactly if it fits. -/
theorem signExtend_eq_iff (some : 1 ≤ n) (narrow : n ≤ 64)
    (low : u.toNat % 2 ^ n = v.toUInt64.toNat % 2 ^ n) :
    signExtend u n = v ↔ fitsSigned v n = true := by
  refine ⟨?_, fun fits => signExtend_of_fits some narrow fits low⟩
  rintro rfl
  exact fitsSigned_signExtend u some narrow

/-- Zig-zag order takes the numbers of a width to the words of that width. -/
theorem fitsUnsigned_zigZag_iff (some : 1 ≤ n) (narrow : n ≤ 64) :
    fitsUnsigned (zigZag v) n = true ↔ fitsSigned v n = true := by
  have forth := toNat_zigZag v
  have half := two_pow_eq_double some
  rw [fitsUnsigned_iff narrow, fitsSigned_iff some narrow]
  zify at half ⊢
  split at forth <;> omega

/-! ## Tests by shifts -/

theorem fitsUnsigned_iff_shift (below : n < 64) :
    fitsUnsigned u n = true ↔ u >>> UInt64.ofNat n = 0 := by
  have amount : (UInt64.ofNat n).toNat = n := UInt64.toNat_ofNat_of_lt' (by rw [UInt64.size]; omega)
  rw [fitsUnsigned_iff below.le, ← UInt64.toNat_inj, UInt64.toNat_shiftRight, amount,
    Nat.mod_eq_of_lt below, Nat.shiftRight_eq_div_pow]
  exact (Nat.div_eq_zero_iff_lt (Nat.two_pow_pos n)).symm

theorem fitsSigned_iff_shift (some : 1 ≤ n) (below : n < 64) :
    fitsSigned v n = true ↔
      -(1 <<< Int64.ofNat (n - 1)) ≤ v ∧ v < 1 <<< Int64.ofNat (n - 1) := by
  have limits : ∀ n < 64, 1 ≤ n → (-(1 <<< Int64.ofNat (n - 1)) : Int64).toInt = -2 ^ (n - 1) ∧
      (1 <<< Int64.ofNat (n - 1) : Int64).toInt = 2 ^ (n - 1) := by decide +kernel
  obtain ⟨low, high⟩ := limits n below some
  rw [fitsSigned_iff some below.le, Int64.le_iff_toInt_le, Int64.lt_iff_toInt_lt, low, high]

/-- The tests of a width and the transforms of a word agree.  Zig-zag order and its way back undo
each other; a number fits exactly if it is in the range of the width, if its place in zig-zag order
fits, and if its low bits stand for it; and below the full width both tests are shifts. -/
theorem widths_agree (v : Int64) (u : UInt64) {n : Nat} (some : 1 ≤ n) (narrow : n ≤ 64) :
    unZigZag (zigZag v) = v ∧ zigZag (unZigZag u) = u ∧
      (fitsSigned v n = true ↔ -2 ^ (n - 1) ≤ v.toInt ∧ v.toInt < 2 ^ (n - 1)) ∧
      (fitsSigned v n = true ↔ fitsUnsigned (zigZag v) n = true) ∧
      (fitsSigned v n = true ↔ signExtend (UInt64.ofNat (v.toUInt64.toNat % 2 ^ n)) n = v) ∧
      (fitsUnsigned u n = true ↔ u.toNat < 2 ^ n) ∧
      (n < 64 → (fitsUnsigned u n = true ↔ u >>> UInt64.ofNat n = 0) ∧
        (fitsSigned v n = true ↔
          -(1 <<< Int64.ofNat (n - 1)) ≤ v ∧ v < 1 <<< Int64.ofNat (n - 1))) := by
  refine ⟨unZigZag_zigZag v, zigZag_unZigZag u, fitsSigned_iff some narrow,
    (fitsUnsigned_zigZag_iff some narrow).symm, (signExtend_eq_iff some narrow ?_).symm,
    fitsUnsigned_iff narrow,
    fun below => ⟨fitsUnsigned_iff_shift below, fitsSigned_iff_shift some below⟩⟩
  have small := Nat.mod_le v.toUInt64.toNat (2 ^ n)
  rw [UInt64.toNat_ofNat_of_lt' (small.trans_lt v.toUInt64.toNat_lt), Nat.mod_mod]

/-- The least number fits in no fewer bits than all. -/
theorem widths_agree_least :
    fitsSigned Int64.minValue 63 = false ∧ zigZag Int64.minValue = UInt64.ofNat (2 ^ 64 - 1) ∧
      signExtend (UInt64.ofNat (Int64.minValue.toUInt64.toNat % 2 ^ 64)) 64 = Int64.minValue := by
  refine ⟨by decide, by decide, ?_⟩
  obtain ⟨-, -, -, -, extended, -⟩ := @widths_agree Int64.minValue 0 64 (by decide) (by decide)
  exact extended.mp (by decide)

end Word

end BitSchema
