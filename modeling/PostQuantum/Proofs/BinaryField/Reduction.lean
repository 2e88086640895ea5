/-
Two folds are a division with remainder.

A fold replaces z^degree by the tail, so it changes a polynomial by a multiple of the modulus. Of a product of two
elements the first fold leaves fewer bits above z^degree than the tail has, and the second none, because the tail has
at most half as many bits as an element (`Admissible.tail_short`).
- `fold_lt`, `dvd_sub_fold`: what one fold leaves.
- `fold_fold_lt`: two folds reduce a product of two elements.
- `Elem.poly_mul`: so the product of two elements is the remainder of the product of their polynomials.
- `longDivision_lt`, `dvd_sub_longDivision`: division with remainder one bit at a time, from the top.
- `Elem.mul?_eq`: no step of a product drops a bit.
-/
import Mathlib.Tactic
import Mathlib.Algebra.CharP.Two
import Mathlib.Algebra.Polynomial.Div
import PostQuantum.Proofs.Checked
import PostQuantum.Proofs.BinaryField.Polynomial

namespace PostQuantum.BinaryField

open Polynomial Word

variable {m : Modulus} {x : BitVec 32} {n : ℕ}

namespace Modulus

/-! ## The modulus as a polynomial -/

/-- z^degree + tail(z) -/
noncomputable def polynomial (m : Modulus) : (ZMod 2)[X] := X ^ m.degree + poly m.tail

theorem two_le_degree (m : Modulus) : 2 ≤ m.degree := m.admissible.two_le_degree

theorem degree_le (m : Modulus) : m.degree ≤ 16 := m.admissible.degree_le

theorem tail_lt (m : Modulus) : m.tail.toNat < 2 ^ m.degree := by
  simpa [Nat.shiftLeft_eq] using m.admissible.tail_lt

theorem tail_lt_width (m : Modulus) : m.tail.toNat < 2 ^ m.tailWidth := Nat.lt_log2_self

/-- the tail has at most about half as many bits as an element -/
theorem tailWidth_le (m : Modulus) : 2 * m.tailWidth ≤ m.degree + 3 := by
  have h := m.admissible.tail_short
  unfold tailWidth
  omega

theorem monic_polynomial (m : Modulus) : m.polynomial.Monic :=
  monic_X_pow_add (degree_poly_lt_iff.2 m.tail_lt)

theorem degree_polynomial (m : Modulus) : m.polynomial.degree = m.degree := by
  unfold polynomial
  rw [degree_add_eq_left_of_degree_lt]
  · exact degree_X_pow _
  · rw [degree_X_pow]
    exact degree_poly_lt_iff.2 m.tail_lt

theorem coeff_polynomial {t : ℕ} (ht : m.degree ≤ t) : m.polynomial.coeff t = if t = m.degree then 1 else 0 := by
  unfold polynomial
  rw [coeff_add, coeff_X_pow, coeff_poly, getLsbD_of_lt_two_pow m.tail_lt ht]
  simp

/-- a word below z^degree that differs by a multiple of the modulus is the remainder -/
theorem poly_eq_mod {v w : ℕ} {y : BitVec v} {r : BitVec w} (hr : r.toNat < 2 ^ m.degree)
    (h : m.polynomial ∣ poly y - poly r) : poly r = poly y %ₘ m.polynomial := by
  obtain ⟨q, hq⟩ := h
  refine (div_modByMonic_unique q (poly r) m.monic_polynomial ⟨?_, ?_⟩).2.symm
  · rw [← hq]
    ring
  · rw [m.degree_polynomial]
    exact degree_poly_lt_iff.2 hr

/-! ## One fold -/

theorem high_lt (hx : x.toNat < 2 ^ (m.degree + n)) : (x >>> m.degree).toNat < 2 ^ n := ushiftRight_lt hx

/-- **What a fold leaves.** With n bits above z^degree, the product with the tail has n bits and those of the tail. -/
theorem fold_lt (hx : x.toNat < 2 ^ (m.degree + n)) (hn : n + m.tailWidth ≤ 33) :
    (m.fold x).toNat < 2 ^ max m.degree (n + (m.tailWidth - 1)) := by
  have hdegree := m.degree_le
  have htail : 1 ≤ m.tailWidth := Nat.succ_pos _
  unfold fold mask
  refine xor_lt ?_ ?_
  · exact (and_lowMask_lt (by omega) x).trans_le (Nat.pow_le_pow_right Nat.two_pos (le_max_left _ _))
  · have hproduct : (carrylessMul (x >>> m.degree) m.tail (m.tailWidth - 1 + 1)).toNat < 2 ^ (n + (m.tailWidth - 1)) :=
      carrylessMul_lt (high_lt hx) (by omega)
    rw [Nat.sub_add_cancel htail] at hproduct
    exact hproduct.trans_le (Nat.pow_le_pow_right Nat.two_pos (le_max_right _ _))

theorem poly_fold (hx : x.toNat < 2 ^ (m.degree + n)) (hn : n + m.tailWidth ≤ 33) :
    poly (m.fold x) = poly (x &&& m.mask) + poly (x >>> m.degree) * poly m.tail := by
  unfold fold
  rw [poly_xor, poly_carrylessMul (high_lt hx) m.tail_lt_width hn]

/-- **A fold keeps the residue.** -/
theorem dvd_sub_fold (hx : x.toNat < 2 ^ (m.degree + n)) (hn : n + m.tailWidth ≤ 33) :
    m.polynomial ∣ poly x - poly (m.fold x) := by
  have hdegree := m.degree_le
  have hcut : poly x = poly (x &&& m.mask) + poly (x >>> m.degree) * X ^ m.degree := poly_cut (by omega) x
  refine ⟨poly (x >>> m.degree), ?_⟩
  rw [poly_fold hx hn, hcut, CharTwo.sub_eq_add, polynomial]
  linear_combination CharTwo.add_self_eq_zero (poly (x &&& m.mask))

/-! ## Two folds -/

section Folds

variable (hx : x.toNat < 2 ^ (m.degree + (m.degree - 1)))

include hx

/-- after one fold fewer bits stand above z^degree than the tail has -/
theorem fold_lt_tail : (m.fold x).toNat < 2 ^ (m.degree + (m.tailWidth - 2)) := by
  have hdegree := m.degree_le
  have htail := m.tailWidth_le
  have htwo := m.two_le_degree
  refine (fold_lt hx (by omega)).trans_le (Nat.pow_le_pow_right Nat.two_pos (max_le ?_ ?_))
  · omega
  · omega

/-- **Two folds reduce.** -/
theorem fold_fold_lt : (m.fold (m.fold x)).toNat < 2 ^ m.degree := by
  have hdegree := m.degree_le
  have htail := m.tailWidth_le
  have htwo := m.two_le_degree
  refine (fold_lt (fold_lt_tail hx) (by omega)).trans_le (Nat.pow_le_pow_right Nat.two_pos (max_le le_rfl ?_))
  omega

theorem dvd_sub_fold_fold : m.polynomial ∣ poly x - poly (m.fold (m.fold x)) := by
  have hdegree := m.degree_le
  have htail := m.tailWidth_le
  have hfirst := dvd_sub_fold hx (by omega)
  have hsecond := dvd_sub_fold (fold_lt_tail hx) (by omega)
  have hsum := dvd_add hfirst hsecond
  rwa [sub_add_sub_cancel] at hsum

end Folds

/-! ## Division one bit at a time -/

/-- the modulus as a word -/
def word (m : Modulus) : BitVec 32 := BitVec.ofNat 32 (2 ^ m.degree) ^^^ m.tail

/-- clear bit `d`, if it is set, by a multiple of the modulus -/
def divideStep (m : Modulus) (x : BitVec 32) (d : ℕ) : BitVec 32 :=
  if x.getLsbD d then x ^^^ (m.word <<< (d - m.degree)) else x

/-- the remainder modulo the modulus, bit after bit from the top -/
def longDivision (m : Modulus) (x : BitVec 32) : BitVec 32 :=
  (List.range' m.degree (32 - m.degree)).reverse.foldl m.divideStep x

theorem two_pow_lt (m : Modulus) : 2 ^ m.degree < 2 ^ 32 :=
  Nat.pow_lt_pow_right (by norm_num) (by have := m.degree_le; omega)

theorem toNat_top (m : Modulus) : (BitVec.ofNat 32 (2 ^ m.degree)).toNat = 2 ^ m.degree := by
  rw [BitVec.toNat_ofNat, Nat.mod_eq_of_lt m.two_pow_lt]

theorem poly_word (m : Modulus) : poly m.word = m.polynomial := by
  have htop : poly (BitVec.ofNat 32 (2 ^ m.degree)) = X ^ m.degree := by
    ext t
    rw [coeff_poly, coeff_X_pow, BitVec.getLsbD, m.toNat_top, Nat.testBit_two_pow]
    simp [eq_comm]
  unfold word polynomial
  rw [poly_xor, htop]

theorem word_lt (m : Modulus) : m.word.toNat < 2 ^ (m.degree + 1) := by
  have hpow : 2 ^ m.degree < 2 ^ (m.degree + 1) := Nat.pow_lt_pow_right (by norm_num) (by omega)
  refine xor_lt ?_ (m.tail_lt.trans hpow)
  rwa [m.toNat_top]

/-- a step changes the polynomial by a multiple of the modulus -/
theorem dvd_sub_divideStep (hn : m.degree + n < 32) :
    m.polynomial ∣ poly x - poly (m.divideStep x (m.degree + n)) := by
  unfold divideStep
  split
  · rw [Nat.add_sub_cancel_left, poly_xor, poly_shiftLeft (shiftLeft_fits m.word_lt (by omega)), poly_word,
      sub_add_cancel_left, dvd_neg]
    exact dvd_mul_right _ _
  · rw [sub_self]
    exact dvd_zero _

/-- a step clears the bit that it looks at -/
theorem divideStep_lt (hn : m.degree + n < 32) (hx : x.toNat < 2 ^ (m.degree + (n + 1))) :
    (m.divideStep x (m.degree + n)).toNat < 2 ^ (m.degree + n) := by
  rw [lt_two_pow_iff] at hx
  unfold divideStep
  split
  case isTrue h =>
    rw [← degree_poly_lt_iff, degree_lt_iff_coeff_zero]
    intro t ht
    rw [Nat.add_sub_cancel_left, poly_xor, poly_shiftLeft (shiftLeft_fits m.word_lt (by omega)), poly_word, coeff_add,
      coeff_mul_X_pow', if_pos (by omega), coeff_polynomial (by omega), coeff_poly]
    by_cases htop : t = m.degree + n
    · subst htop
      simp only [h, if_true, Nat.add_sub_cancel]
      exact CharTwo.add_self_eq_zero 1
    · have hbit := hx t (by omega)
      simp [hbit, show t - n ≠ m.degree by omega]
  case isFalse h =>
    rw [lt_two_pow_iff]
    intro t ht
    rcases Nat.eq_or_lt_of_le ht with rfl | hlt
    · simpa using h
    · exact hx t (by omega)

/-- the run from any bit down: what is left is below z^degree and differs by a multiple of the modulus -/
theorem divide_run (hn : m.degree + n ≤ 32) (hx : x.toNat < 2 ^ (m.degree + n)) :
    ((List.range' m.degree n).reverse.foldl m.divideStep x).toNat < 2 ^ m.degree ∧
      m.polynomial ∣ poly x - poly ((List.range' m.degree n).reverse.foldl m.divideStep x) := by
  induction n generalizing x with
  | zero => simpa using hx
  | succ n ih =>
    obtain ⟨hlt, hdvd⟩ := ih (by omega) (divideStep_lt (by omega) hx)
    rw [List.range'_1_concat, List.reverse_append, List.reverse_singleton, List.singleton_append, List.foldl_cons]
    refine ⟨hlt, ?_⟩
    have hsum := dvd_add (dvd_sub_divideStep (x := x) (n := n) (by omega)) hdvd
    rwa [sub_add_sub_cancel] at hsum

/-- **Long division gives the remainder**, for every word. -/
theorem poly_longDivision (m : Modulus) (x : BitVec 32) : poly (m.longDivision x) = poly x %ₘ m.polynomial := by
  have hdegree := m.degree_le
  obtain ⟨hlt, hdvd⟩ := divide_run (m := m) (x := x) (n := 32 - m.degree) (by omega)
    (by rw [Nat.add_sub_cancel' (by omega)]; exact x.isLt)
  exact poly_eq_mod hlt hdvd

end Modulus

/-! ## Products of elements -/

/-- the sum of the first word shifted by each bit that is set in the second -/
def schoolbook (a b : BitVec 32) : BitVec 32 :=
  (List.range 16).foldl (fun product i => if b.getLsbD i then product ^^^ (a <<< i) else product) 0

namespace Elem

variable (a b : Elem m)

theorem toNat_wide : a.wide.toNat = a.bits.toNat := by
  have hdegree := m.degree_le
  unfold wide
  rw [BitVec.toNat_setWidth]
  exact Nat.mod_eq_of_lt (a.bits.isLt.trans_le (Nat.pow_le_pow_right Nat.two_pos (by omega)))

theorem wide_lt : a.wide.toNat < 2 ^ m.degree := by
  rw [toNat_wide]
  exact a.bits.isLt

/-- elements are known by their words -/
theorem wide_injective {a b : Elem m} (h : a.wide = b.wide) : a = b := by
  have hnat := congrArg BitVec.toNat h
  rw [toNat_wide, toNat_wide] at hnat
  exact ext_toNat hnat

theorem poly_wide : poly a.wide = poly a.bits := by
  have hdegree := m.degree_le
  exact poly_setWidth (a.bits.isLt.trans_le (Nat.pow_le_pow_right Nat.two_pos (by omega)))

/-- a product of two elements has less than twice as many bits -/
theorem product_lt : (carrylessMul a.wide b.wide m.degree).toNat < 2 ^ (m.degree + (m.degree - 1)) := by
  have hdegree := m.degree_le
  have htwo := m.two_le_degree
  have h : (carrylessMul a.wide b.wide (m.degree - 1 + 1)).toNat < 2 ^ (m.degree + (m.degree - 1)) :=
    carrylessMul_lt a.wide_lt (by omega)
  rwa [Nat.sub_add_cancel (by omega)] at h

theorem poly_product : poly (carrylessMul a.wide b.wide m.degree) = poly a.bits * poly b.bits := by
  have hdegree := m.degree_le
  rw [poly_carrylessMul a.wide_lt b.wide_lt (by omega), poly_wide, poly_wide]

/-- the word of a reduced polynomial of a product -/
theorem poly_reduce (hx : x.toNat < 2 ^ (m.degree + (m.degree - 1))) :
    poly (reduce (m := m) x).bits = poly x %ₘ m.polynomial := by
  have hnarrow : poly (reduce (m := m) x).bits = poly (m.fold (m.fold x)) := poly_setWidth (Modulus.fold_fold_lt hx)
  rw [hnarrow]
  exact Modulus.poly_eq_mod (Modulus.fold_fold_lt hx) (Modulus.dvd_sub_fold_fold hx)

/-- **Products are remainders.** -/
theorem poly_mul : poly (a * b).bits = (poly a.bits * poly b.bits) %ₘ m.polynomial := by
  rw [← poly_product]
  exact poly_reduce (product_lt a b)

/-- where the tail has at most two bits, one fold is enough -/
theorem wide_mul_of_tailWidth_le (h : m.tailWidth ≤ 2) : (a * b).wide = m.fold (carrylessMul a.wide b.wide m.degree) := by
  have hdegree := m.degree_le
  have htwo := m.two_le_degree
  have hproduct := product_lt a b
  have hreduced : (m.fold (carrylessMul a.wide b.wide m.degree)).toNat < 2 ^ m.degree := by
    refine (Modulus.fold_lt hproduct (by omega)).trans_le (Nat.pow_le_pow_right Nat.two_pos (max_le le_rfl ?_))
    omega
  refine poly_injective ?_
  rw [poly_wide, poly_mul, ← poly_product]
  exact (Modulus.poly_eq_mod hreduced (Modulus.dvd_sub_fold hproduct (by omega))).symm

theorem poly_schoolbook : poly (schoolbook a.wide b.wide) = poly a.bits * poly b.bits := by
  have hdegree := m.degree_le
  have hsum : schoolbook a.wide b.wide = carrylessMul a.wide b.wide 16 := by
    unfold schoolbook carrylessMul
    congr 1
    funext product i
    split <;> simp
  rw [hsum, poly_carrylessMul a.wide_lt (b.wide_lt.trans_le (Nat.pow_le_pow_right Nat.two_pos hdegree)) (by omega),
    poly_wide, poly_wide]

/-- products are what schoolbook multiplication and long division give -/
theorem wide_mul : (a * b).wide = m.longDivision (schoolbook a.wide b.wide) := by
  refine poly_injective ?_
  rw [poly_wide, poly_mul, Modulus.poly_longDivision, poly_schoolbook]

end Elem

/-! ## No bit is lost -/

/-- the carry-less product, if no shift drops a bit -/
def carrylessMul? (a b : BitVec 32) (width : ℕ) : Option (BitVec 32) :=
  (List.range width).foldlM (fun acc i => do
    let shifted ← shiftLeft? a i
    some (acc ^^^ if b.getLsbD i then shifted else 0)) 0

/-- the word with the bits below z^degree, if it can be formed -/
def Modulus.mask? (m : Modulus) : Option (BitVec 32) := do
  let top ← shiftLeft? 1 m.degree
  sub? top 1

/-- a fold, if no step drops a bit -/
def Modulus.fold? (m : Modulus) (x : BitVec 32) : Option (BitVec 32) := do
  let mask ← m.mask?
  let product ← carrylessMul? (x >>> m.degree) m.tail m.tailWidth
  some ((x &&& mask) ^^^ product)

/-- two folds, if no step drops a bit and nothing is left above z^degree -/
def Elem.reduce? (x : BitVec 32) : Option (Elem m) := do
  let once ← m.fold? x
  let twice ← m.fold? once
  let bits ← resize? m.degree twice
  some ⟨bits⟩

/-- the product, if no step drops a bit -/
def Elem.mul? (a b : Elem m) : Option (Elem m) := do
  let x ← resize? 32 a.bits
  let y ← resize? 32 b.bits
  let product ← carrylessMul? x y m.degree
  reduce? product

theorem carrylessMul?_eq {a : BitVec 32} {width : ℕ} (ha : a.toNat < 2 ^ n) (hfits : n + width ≤ 33) (b : BitVec 32) :
    carrylessMul? a b width = some (carrylessMul a b width) := by
  refine foldlM_eq_some_foldl (fun acc i hi => ?_) 0
  have hi := List.mem_range.1 hi
  rw [shiftLeft?_eq_some_iff.2 (toNat_shiftLeft_of_fits (shiftLeft_fits ha (by omega)))]
  rfl

namespace Modulus

theorem mask?_eq (m : Modulus) : m.mask? = some m.mask := by
  have hdegree := m.degree_le
  have hpos := Nat.two_pow_pos m.degree
  have htop : shiftLeft? (1 : BitVec 32) m.degree = some (BitVec.ofNat 32 (2 ^ m.degree)) := by
    rw [shiftLeft?_eq_some_iff, m.toNat_top]
    exact (Nat.one_mul _).symm
  unfold mask?
  rw [htop, Option.bind_eq_bind, Option.bind_some, sub?_eq_some_iff, m.toNat_top]
  unfold mask
  rw [toNat_lowMask (by omega)]
  exact Nat.sub_add_cancel hpos

theorem fold?_eq (hx : x.toNat < 2 ^ (m.degree + n)) (hn : n + m.tailWidth ≤ 33) : m.fold? x = some (m.fold x) := by
  unfold fold?
  rw [mask?_eq, carrylessMul?_eq (high_lt hx) hn]
  rfl

end Modulus

namespace Elem

theorem reduce?_eq (hx : x.toNat < 2 ^ (m.degree + (m.degree - 1))) : reduce? (m := m) x = some (reduce x) := by
  have hdegree := m.degree_le
  have htail := m.tailWidth_le
  have hbits : resize? m.degree (m.fold (m.fold x)) = some ((m.fold (m.fold x)).setWidth m.degree) := by
    rw [resize?_eq_some_iff, BitVec.toNat_setWidth]
    exact Nat.mod_eq_of_lt (Modulus.fold_fold_lt hx)
  unfold reduce?
  rw [Modulus.fold?_eq hx (by omega), Option.bind_eq_bind, Option.bind_some,
    Modulus.fold?_eq (Modulus.fold_lt_tail hx) (by omega), Option.bind_eq_bind, Option.bind_some, hbits]
  rfl

/-- **No step of a product drops a bit.** -/
theorem mul?_eq (a b : Elem m) : mul? a b = some (a * b) := by
  have hdegree := m.degree_le
  unfold mul?
  rw [resize?_eq_some_iff.2 (toNat_wide a), resize?_eq_some_iff.2 (toNat_wide b)]
  simp only [Option.bind_eq_bind, Option.bind_some]
  rw [carrylessMul?_eq a.wide_lt (by omega), Option.bind_some]
  exact reduce?_eq (product_lt a b)

end Elem

end PostQuantum.BinaryField
