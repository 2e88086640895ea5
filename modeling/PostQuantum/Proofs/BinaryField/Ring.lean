/-
Multiplication modulo a polynomial makes a commutative ring.

`Elem.residue` is the class of an element in the polynomials over GF(2) modulo z^degree + tail(z). Different elements
have different classes, and sums and products have the classes of sums and products, so every law of that quotient ring
is a law of elements, whether or not the modulus is irreducible.
- `Elem.residue_injective`, `Elem.residue_add`, `Elem.residue_mul`: elements are a copy of the quotient.
- `multiplication_is_remainder`: products are remainders, no step of one drops a bit, and the laws of a commutative ring
  hold.
-/
import Mathlib.Tactic
import Mathlib.RingTheory.AdjoinRoot
import PostQuantum.Proofs.BinaryField.Reduction

namespace PostQuantum.BinaryField

open Polynomial Word

variable {m : Modulus}

namespace Elem

/-! ## Residues -/

/-- the class of an element modulo the modulus -/
noncomputable def residue (a : Elem m) : AdjoinRoot m.polynomial := AdjoinRoot.mk m.polynomial (poly a.bits)

theorem poly_mod_self (a : Elem m) : poly a.bits %ₘ m.polynomial = poly a.bits := by
  rw [modByMonic_eq_self_iff m.monic_polynomial, m.degree_polynomial]
  exact degree_poly_lt_iff.2 a.bits.isLt

/-- **Elements are known by their residues.** -/
theorem residue_injective : Function.Injective (residue (m := m)) := by
  intro a b h
  have hdvd : m.polynomial ∣ poly a.bits - poly b.bits := AdjoinRoot.mk_eq_mk.1 h
  have hpoly := Modulus.poly_eq_mod b.bits.isLt hdvd
  rw [poly_mod_self] at hpoly
  cases a
  cases b
  exact congrArg mk (poly_injective hpoly.symm)

@[simp] theorem residue_zero : (0 : Elem m).residue = 0 :=
  (congrArg (AdjoinRoot.mk m.polynomial) poly_zero).trans (map_zero _)

theorem poly_one : poly (1 : Elem m).bits = 1 := by
  have htwo := m.two_le_degree
  ext t
  have hbit : (1 : Elem m).bits.getLsbD t = decide (t = 0) := by
    change ((1 : BitVec 16).setWidth m.degree).getLsbD t = _
    rw [BitVec.getLsbD_setWidth, BitVec.ofNat_eq_ofNat, BitVec.getLsbD_one]
    rcases t with _ | t
    · simp [show 0 < m.degree by omega]
    · simp
  rw [coeff_poly, hbit, coeff_one]
  simp [eq_comm]

@[simp] theorem residue_one : (1 : Elem m).residue = 1 :=
  (congrArg (AdjoinRoot.mk m.polynomial) poly_one).trans (map_one _)

@[simp] theorem residue_add (a b : Elem m) : (a + b).residue = a.residue + b.residue :=
  (congrArg (AdjoinRoot.mk m.polynomial) (poly_xor a.bits b.bits)).trans (map_add _ _ _)

@[simp] theorem residue_mul (a b : Elem m) : (a * b).residue = a.residue * b.residue := by
  unfold residue
  rw [← map_mul, poly_mul, AdjoinRoot.mk_eq_mk, ← dvd_neg, neg_sub]
  exact ⟨_, sub_eq_of_eq_add' (modByMonic_add_div _ m.polynomial).symm⟩

/-! ## Laws -/

variable (a b c : Elem m)

protected theorem add_assoc : a + b + c = a + (b + c) :=
  residue_injective (by simp [add_assoc])

protected theorem add_comm : a + b = b + a :=
  residue_injective (by simp [add_comm])

protected theorem zero_add : 0 + a = a :=
  residue_injective (by simp)

/-- an element is its own negative -/
protected theorem neg_add_cancel : -a + a = 0 :=
  congrArg mk BitVec.xor_self

protected theorem mul_assoc : a * b * c = a * (b * c) :=
  residue_injective (by simp [mul_assoc])

protected theorem mul_comm : a * b = b * a :=
  residue_injective (by simp [mul_comm])

protected theorem one_mul : 1 * a = a :=
  residue_injective (by simp)

protected theorem mul_add : a * (b + c) = a * b + a * c :=
  residue_injective (by simp [mul_add])

end Elem

/-! ## Every modulus -/

/-- **Multiplication modulo a polynomial.** Whatever the modulus, if only it is admissible: the product of two elements
is the remainder of the product of their polynomials, as division one bit at a time gives it too; it lies below
z^degree, and no step of it drops a bit. Under these operations the elements are a commutative ring. -/
theorem multiplication_is_remainder (m : Modulus) :
    (∀ a b : Elem m,
      poly (a * b).bits = (poly a.bits * poly b.bits) %ₘ m.polynomial ∧
      (a * b).wide = m.longDivision (schoolbook a.wide b.wide) ∧
      (a * b).wide.toNat < 2 ^ m.degree ∧ Elem.mul? a b = some (a * b)) ∧
    (∀ a b c : Elem m, a + b + c = a + (b + c) ∧ a * b * c = a * (b * c) ∧ a * (b + c) = a * b + a * c) ∧
    (∀ a b : Elem m, a + b = b + a ∧ a * b = b * a ∧ a - b = a + -b) ∧
    ∀ a : Elem m, 0 + a = a ∧ -a + a = 0 ∧ 1 * a = a := by
  refine ⟨fun a b => ⟨Elem.poly_mul a b, Elem.wide_mul a b, Elem.wide_lt _, Elem.mul?_eq a b⟩, ?_, ?_, ?_⟩
  · intro a b c
    exact ⟨a.add_assoc b c, a.mul_assoc b c, a.mul_add b c⟩
  · intro a b
    exact ⟨a.add_comm b, a.mul_comm b, rfl⟩
  · intro a
    exact ⟨a.zero_add, a.neg_add_cancel, a.one_mul⟩

example : (⟨0b1001⟩ : Elem gf16) * ⟨0b1110⟩ = ⟨0b0111⟩ := by decide

end PostQuantum.BinaryField
