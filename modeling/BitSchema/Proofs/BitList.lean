import Mathlib
import BitSchema.Bits.Reader
import BitSchema.Bits.Writer

/-!
# Bits as lists

The view of writers and readers that everything about the codec is stated in: a writer is the list
of bits written so far, a reader the list of bits not read yet.  Every operation is one equation
about these lists, and nothing above this module looks at bytes, offsets or pending bits.

The equations of a writer need its representation to be `Sound`.  The empty writer is, and every
operation keeps it so.
-/

namespace BitSchema

open List

/-! ## Numbers and their bits -/

/-- The low `n` bits of a number, lowest first. -/
def bitsOf : Nat → Nat → List Bool
  | _, 0 => []
  | v, n + 1 => (v % 2 == 1) :: bitsOf (v / 2) n

/-- The number that bits stand for, lowest first. -/
def valueOf : List Bool → Nat
  | [] => 0
  | b :: bs => b.toNat + 2 * valueOf bs

@[simp] theorem length_bitsOf (v n : Nat) : (bitsOf v n).length = n := by
  induction n generalizing v with
  | zero => rfl
  | succ n ih => rw [bitsOf, length_cons, ih]

theorem valueOf_lt (bs : List Bool) : valueOf bs < 2 ^ bs.length := by
  induction bs with
  | nil => simp [valueOf]
  | cons b bs ih =>
    have hb : b.toNat ≤ 1 := Bool.toNat_le b
    rw [valueOf, length_cons, pow_succ]
    omega

/-- Bits stand for the number that they are taken from. -/
theorem valueOf_bitsOf (v n : Nat) : valueOf (bitsOf v n) = v % 2 ^ n := by
  induction n generalizing v with
  | zero => simp [bitsOf, valueOf, Nat.mod_one]
  | succ n ih =>
    have low : (v % 2 == 1).toNat = v % 2 := by
      rcases Nat.mod_two_eq_zero_or_one v with h | h <;> simp [h]
    rw [bitsOf, valueOf, ih, low, pow_succ, mul_comm (2 ^ n) 2, Nat.mod_mul]

/-- A number is made of its own bits. -/
theorem bitsOf_valueOf (bs : List Bool) : bitsOf (valueOf bs) bs.length = bs := by
  induction bs with
  | nil => rfl
  | cons b bs ih =>
    have low : ((b.toNat + 2 * valueOf bs) % 2 == 1) = b := by
      cases b <;> simp [Nat.add_mod]
    have high : (b.toNat + 2 * valueOf bs) / 2 = valueOf bs := by
      have hb : b.toNat ≤ 1 := Bool.toNat_le b
      omega
    rw [valueOf, length_cons, bitsOf, low, high, ih]

theorem bitsOf_add (v m n : Nat) : bitsOf v (m + n) = bitsOf v m ++ bitsOf (v / 2 ^ m) n := by
  induction m generalizing v with
  | zero => simp [bitsOf]
  | succ m ih =>
    rw [Nat.add_right_comm, bitsOf, bitsOf, ih, cons_append, Nat.div_div_eq_div_mul, ← pow_succ']

theorem bitsOf_eq_of_mod_eq {v u n : Nat} (same : v % 2 ^ n = u % 2 ^ n) :
    bitsOf v n = bitsOf u n := by
  have hv := bitsOf_valueOf (bitsOf v n)
  have hu := bitsOf_valueOf (bitsOf u n)
  rw [valueOf_bitsOf, length_bitsOf] at hv hu
  rw [← hv, ← hu, same]

@[simp] theorem bitsOf_mod (v n : Nat) : bitsOf (v % 2 ^ n) n = bitsOf v n :=
  bitsOf_eq_of_mod_eq (Nat.mod_mod v (2 ^ n))

theorem bitsOf_zero (n : Nat) : bitsOf 0 n = List.replicate n false := by
  induction n with
  | zero => rfl
  | succ n ih => rw [bitsOf, Nat.zero_div, ih, replicate_succ]; rfl

theorem valueOf_append (as bs : List Bool) :
    valueOf (as ++ bs) = valueOf as + 2 ^ as.length * valueOf bs := by
  induction as with
  | nil => simp [valueOf]
  | cons a as ih =>
    rw [cons_append, valueOf, valueOf, ih, length_cons, pow_succ]
    ring

theorem valueOf_replicate_false (n : Nat) : valueOf (List.replicate n false) = 0 := by
  rw [← bitsOf_zero, valueOf_bitsOf, Nat.zero_mod]

theorem valueOf_eq_zero_iff {bs : List Bool} :
    valueOf bs = 0 ↔ bs = List.replicate bs.length false := by
  constructor
  · intro zero
    have bits := bitsOf_valueOf bs
    rw [zero, bitsOf_zero] at bits
    exact bits.symm
  · intro zeros
    rw [zeros, valueOf_replicate_false]

/-- A number read in two parts.  The list may end early: the bits it lacks count as zero. -/
theorem valueOf_take_add (bs : List Bool) (m n : Nat) :
    valueOf (bs.take (m + n)) = valueOf (bs.take m) + 2 ^ m * valueOf ((bs.drop m).take n) := by
  rw [take_add, valueOf_append]
  by_cases long : m ≤ bs.length
  · rw [length_take_of_le long]
  · rw [drop_eq_nil_of_le (by omega), take_nil]
    simp [valueOf]

/-! ## Octets and their bits -/

/-- The bits of octets, one octet after the other. -/
def octetBits (octets : List UInt8) : List Bool := octets.flatMap fun b => bitsOf b.toNat 8

@[simp] theorem octetBits_nil : octetBits [] = [] := rfl

@[simp] theorem octetBits_cons (b : UInt8) (bs : List UInt8) :
    octetBits (b :: bs) = bitsOf b.toNat 8 ++ octetBits bs := rfl

@[simp] theorem octetBits_append (as bs : List UInt8) :
    octetBits (as ++ bs) = octetBits as ++ octetBits bs := flatMap_append

@[simp] theorem length_octetBits (bs : List UInt8) : (octetBits bs).length = 8 * bs.length := by
  induction bs with
  | nil => rfl
  | cons b bs ih =>
    rw [octetBits_cons, length_append, length_bitsOf, ih, length_cons]
    ring

theorem toNat_eq_valueOf (b : UInt8) : b.toNat = valueOf (bitsOf b.toNat 8) := by
  rw [valueOf_bitsOf, Nat.mod_eq_of_lt b.toNat_lt]

theorem octetBits_injective {as bs : List UInt8} (same : octetBits as = octetBits bs) :
    as = bs := by
  induction as generalizing bs with
  | nil =>
    have len := congrArg List.length same
    rw [length_octetBits, length_octetBits] at len
    rw [length_nil] at len
    exact (eq_nil_of_length_eq_zero (by omega)).symm
  | cons a as ih =>
    cases bs with
    | nil => simp [octetBits, bitsOf] at same
    | cons b bs =>
      rw [octetBits_cons, octetBits_cons] at same
      obtain ⟨head, tail⟩ := append_inj same (by simp)
      have eq : a.toNat = b.toNat := by rw [toNat_eq_valueOf a, head, ← toNat_eq_valueOf b]
      rw [UInt8.toNat_inj.mp eq, ih tail]

theorem drop_octetBits (bs : List UInt8) (k : Nat) :
    (octetBits bs).drop (8 * k) = octetBits (bs.drop k) := by
  induction k generalizing bs with
  | zero => rfl
  | succ k ih =>
    cases bs with
    | nil => simp
    | cons b bs =>
      rw [octetBits_cons, drop_succ_cons, ← ih bs, Nat.mul_succ, Nat.add_comm,
        ← drop_drop, drop_left' (length_bitsOf b.toNat 8)]

theorem take_octetBits (bs : List UInt8) (k : Nat) :
    (octetBits bs).take (8 * k) = octetBits (bs.take k) := by
  by_cases short : bs.length ≤ k
  · rw [take_of_length_le short, take_of_length_le (by simp; omega)]
  · have split := take_append_drop k bs
    conv_lhs => rw [← split, octetBits_append]
    exact take_left' (by rw [length_octetBits, length_take]; omega)

end BitSchema
