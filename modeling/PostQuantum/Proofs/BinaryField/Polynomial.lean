/-
Words as polynomials over GF(2).

Bit i of a word is the coefficient of X^i, so a sum without carries is a sum of polynomials and a shift that drops no
bit is a product with a power of X. A word below 2^k is a polynomial of degree below k.
- `poly_injective`: a word is known by its polynomial.
- `poly_xor`, `poly_shiftLeft`, `poly_cut`: what the operations on words do to polynomials.
- `degree_poly_lt_iff`: the bound of a word is the bound of a degree.
- `poly_carrylessMul`, `carrylessMul_lt`: a carry-less product is the product, if the word has room for it.
-/
import Mathlib.Tactic
import Mathlib.Algebra.Polynomial.Degree.Lemmas
import Mathlib.Data.ZMod.Basic
import PostQuantum.BinaryField
import PostQuantum.Proofs.Bits

namespace PostQuantum

open Polynomial

namespace Word

variable {w v k : ℕ} {x y : BitVec w}

/-- the polynomial with the bits of a word as its coefficients -/
noncomputable def poly (x : BitVec w) : (ZMod 2)[X] :=
  ∑ i ∈ Finset.range w, if x.getLsbD i then X ^ i else 0

theorem coeff_sum_of_bits (bit : ℕ → Bool) (width n : ℕ) :
    (∑ i ∈ Finset.range width, if bit i then (X : (ZMod 2)[X]) ^ i else 0).coeff n =
      if n < width ∧ bit n then 1 else 0 := by
  have hterm : ∀ i, (if bit i then (X : (ZMod 2)[X]) ^ i else 0).coeff n = if i = n ∧ bit n then 1 else 0 := by
    intro i
    by_cases hi : i = n
    · subst hi
      rcases bit i <;> simp
    · rcases bit i <;> simp [coeff_X_pow, hi, Ne.symm hi]
  rw [finsetSum_coeff]
  simp only [hterm]
  by_cases hn : n < width
  · rw [Finset.sum_eq_single_of_mem n (Finset.mem_range.2 hn) fun i _ hi => by simp [hi]]
    simp [hn]
  · refine (Finset.sum_eq_zero fun i hi => ?_).trans (by simp [hn])
    have hi := Finset.mem_range.1 hi
    simp [show i ≠ n by omega]

@[simp] theorem coeff_poly (x : BitVec w) (n : ℕ) : (poly x).coeff n = if x.getLsbD n then 1 else 0 := by
  unfold poly
  rw [coeff_sum_of_bits]
  by_cases hn : n < w
  · simp [hn]
  · simp [hn, BitVec.getLsbD_of_ge x n (Nat.le_of_not_lt hn)]

/-- the bits below a bound of the word are all that there is -/
theorem poly_eq_sum (h : x.toNat < 2 ^ k) : poly x = ∑ i ∈ Finset.range k, if x.getLsbD i then X ^ i else 0 := by
  ext n
  rw [coeff_poly, coeff_sum_of_bits]
  by_cases hn : n < k
  · simp [hn]
  · simp [hn, getLsbD_of_lt_two_pow h (Nat.le_of_not_lt hn)]

theorem poly_injective : Function.Injective (poly (w := w)) := by
  intro x y h
  refine BitVec.eq_of_getLsbD_eq fun i _ => ?_
  have hi := congrArg (fun p => p.coeff i) h
  simp only [coeff_poly] at hi
  rcases hx : x.getLsbD i <;> rcases hy : y.getLsbD i <;> simp_all

@[simp] theorem poly_zero : poly (0 : BitVec w) = 0 := by
  ext n
  simp

@[simp] theorem poly_xor (x y : BitVec w) : poly (x ^^^ y) = poly x + poly y := by
  ext n
  rw [coeff_poly, coeff_add, coeff_poly, coeff_poly, BitVec.getLsbD_xor]
  rcases x.getLsbD n <;> rcases y.getLsbD n <;> decide

/-- words of two widths with the same bits have one polynomial -/
theorem poly_setWidth (h : x.toNat < 2 ^ v) : poly (x.setWidth v) = poly x := by
  ext n
  rw [coeff_poly, coeff_poly, BitVec.getLsbD_setWidth]
  by_cases hn : n < v
  · simp [hn]
  · rw [getLsbD_of_lt_two_pow h (Nat.le_of_not_lt hn), Bool.and_false]

theorem poly_shiftLeft (h : x.toNat * 2 ^ k < 2 ^ w) : poly (x <<< k) = poly x * X ^ k := by
  have hbit : ∀ n, (x <<< k).getLsbD n = (decide (k ≤ n) && x.getLsbD (n - k)) := by
    intro n
    rw [BitVec.getLsbD, BitVec.toNat_shiftLeft, Nat.shiftLeft_eq, Nat.mod_eq_of_lt h, Nat.mul_comm,
      Nat.testBit_two_pow_mul]
    rfl
  ext n
  rw [coeff_poly, coeff_mul_X_pow', coeff_poly, hbit]
  by_cases hn : k ≤ n <;> simp [hn]

/-- a word is its low bits and the bits above them -/
theorem poly_cut (hk : k < w) (x : BitVec w) : poly x = poly (x &&& lowMask w k) + poly (x >>> k) * X ^ k := by
  ext n
  rw [coeff_add, coeff_mul_X_pow', coeff_poly, coeff_poly, coeff_poly, BitVec.getLsbD_and, getLsbD_lowMask hk,
    BitVec.getLsbD_ushiftRight]
  by_cases hn : k ≤ n
  · simp [hn, Nat.not_lt.2 hn]
  · simp [hn, Nat.lt_of_not_le hn]

theorem lt_two_pow_iff : x.toNat < 2 ^ k ↔ ∀ n, k ≤ n → x.getLsbD n = false := by
  constructor
  · intro h n hn
    exact getLsbD_of_lt_two_pow h hn
  · intro h
    exact Nat.lt_pow_two_of_testBit _ fun n hn => h n hn

/-- the bound of a word is the bound of a degree -/
theorem degree_poly_lt_iff : (poly x).degree < k ↔ x.toNat < 2 ^ k := by
  rw [lt_two_pow_iff, degree_lt_iff_coeff_zero]
  refine forall_congr' fun n => imp_congr_right fun _ => ?_
  rw [coeff_poly]
  rcases x.getLsbD n <;> simp

theorem xor_and (x y mask : BitVec w) : (x ^^^ y) &&& mask = (x &&& mask) ^^^ (y &&& mask) := by
  refine BitVec.eq_of_getLsbD_eq fun n _ => ?_
  simp only [BitVec.getLsbD_and, BitVec.getLsbD_xor, Bool.and_xor_distrib_right]

theorem xor_lt (hx : x.toNat < 2 ^ k) (hy : y.toNat < 2 ^ k) : (x ^^^ y).toNat < 2 ^ k := by
  rw [BitVec.toNat_xor]
  exact Nat.xor_lt_two_pow hx hy

theorem shiftLeft_fits {n : ℕ} (hx : x.toNat < 2 ^ n) (hn : n + k ≤ w) : x.toNat * 2 ^ k < 2 ^ w :=
  calc x.toNat * 2 ^ k < 2 ^ n * 2 ^ k := Nat.mul_lt_mul_of_pos_right hx (Nat.two_pow_pos k)
    _ = 2 ^ (n + k) := (pow_add 2 n k).symm
    _ ≤ 2 ^ w := Nat.pow_le_pow_right Nat.two_pos hn

theorem toNat_shiftLeft_of_fits (h : x.toNat * 2 ^ k < 2 ^ w) : (x <<< k).toNat = x.toNat * 2 ^ k := by
  rw [BitVec.toNat_shiftLeft, Nat.shiftLeft_eq, Nat.mod_eq_of_lt h]

end Word

/-! ## Products -/

namespace BinaryField

open Word

variable {a b : BitVec 32} {n width : ℕ}

theorem carrylessMul_succ (a b : BitVec 32) (width : ℕ) :
    carrylessMul a b (width + 1) = carrylessMul a b width ^^^ if b.getLsbD width then a <<< width else 0 := by
  unfold carrylessMul
  rw [List.range_succ, List.foldl_append, List.foldl_cons, List.foldl_nil]

/-- the product with the low bits of the second factor, as long as no shift drops a bit -/
theorem poly_carrylessMul_low (ha : a.toNat < 2 ^ n) (hfits : n + width ≤ 33) :
    poly (carrylessMul a b width) =
      poly a * ∑ i ∈ Finset.range width, if b.getLsbD i then X ^ i else 0 := by
  induction width with
  | zero => exact poly_zero.trans (mul_zero _).symm
  | succ width ih =>
    rw [carrylessMul_succ, poly_xor, ih (by omega), Finset.sum_range_succ, mul_add]
    split
    · rw [poly_shiftLeft (shiftLeft_fits ha (by omega))]
    · rw [poly_zero, mul_zero]

/-- **Carry-less products are products.** The word has room for the last shift of the first factor. -/
theorem poly_carrylessMul (ha : a.toNat < 2 ^ n) (hb : b.toNat < 2 ^ width) (hfits : n + width ≤ 33) :
    poly (carrylessMul a b width) = poly a * poly b := by
  rw [poly_carrylessMul_low ha hfits, poly_eq_sum hb]

/-- a factor of n bits and one of width + 1 bits make a product of n + width bits -/
theorem carrylessMul_lt (ha : a.toNat < 2 ^ n) (hfits : n + width ≤ 32) :
    (carrylessMul a b (width + 1)).toNat < 2 ^ (n + width) := by
  induction width with
  | zero =>
    rw [carrylessMul_succ]
    refine xor_lt (by simp [carrylessMul]) ?_
    split
    · simpa using ha
    · simp
  | succ width ih =>
    rw [carrylessMul_succ]
    refine xor_lt ((ih (by omega)).trans_le (Nat.pow_le_pow_right Nat.two_pos (by omega))) ?_
    split
    · rw [toNat_shiftLeft_of_fits (shiftLeft_fits ha hfits), pow_add 2 n]
      exact Nat.mul_lt_mul_of_pos_right ha (Nat.two_pow_pos _)
    · simp

end BinaryField

end PostQuantum
