/-
An irreducible modulus makes a field.

The elements are a copy of the polynomials modulo z^degree + tail(z). These are 2^degree many, and if the modulus is
irreducible they are a field, so by the order of its group of units the power 2^degree - 2 is the inverse.
- `Elem.residue_surjective`: every residue is that of an element, because there are as many of either.
- `Elem.irreducible_iff`: the modulus is irreducible exactly if no product of nonzero elements is zero.
- `Elem.residue_pow_degree`, `Elem.residue_pow_pred`: the powers that give an element back, and one.
- `field_laws`: inverses, quotients, products that are zero, and the last of the repeated squares.
-/
import Mathlib.Tactic
import Mathlib.FieldTheory.Finite.Basic
import Mathlib.FieldTheory.Finiteness
import PostQuantum.Proofs.BinaryField.Power

namespace PostQuantum.BinaryField

variable {m : Modulus}

/-! ## How many there are -/

/-- there are as many residues as words below z^degree -/
theorem natCard_residues (m : Modulus) : Nat.card (AdjoinRoot m.polynomial) = 2 ^ m.degree := by
  have hne := m.monic_polynomial.ne_zero
  have hfinite : Module.Finite (ZMod 2) (AdjoinRoot m.polynomial) := m.monic_polynomial.finite_adjoinRoot
  have hrank : Module.finrank (ZMod 2) (AdjoinRoot m.polynomial) = m.degree := by
    rw [PowerBasis.finrank (AdjoinRoot.powerBasis hne), AdjoinRoot.powerBasis_dim]
    exact Polynomial.natDegree_eq_of_degree_eq_some m.degree_polynomial
  rw [Module.natCard_eq_pow_finrank (K := ZMod 2), hrank, Nat.card_zmod]

theorem finite_residues (m : Modulus) : Finite (AdjoinRoot m.polynomial) := by
  refine Nat.finite_of_card_ne_zero ?_
  rw [natCard_residues]
  positivity

namespace Elem

theorem natCard_elem (m : Modulus) : Nat.card (Elem m) = 2 ^ m.degree := by
  have words : Elem m ≃ Fin (2 ^ m.degree) :=
    ⟨fun a => a.bits.toFin, fun i => ⟨BitVec.ofFin i⟩, fun _ => rfl, fun _ => rfl⟩
  exact (Nat.card_congr words).trans (Nat.card_fin _)

/-- **Every residue is that of an element.** -/
theorem residue_surjective : Function.Surjective (residue (m := m)) := by
  have hfinite := finite_residues m
  refine (residue_injective.bijective_of_nat_card_le ?_).2
  rw [natCard_residues, natCard_elem]

theorem residue_eq_zero_iff (a : Elem m) : a.residue = 0 ↔ a = 0 := by
  rw [← residue_zero, residue_injective.eq_iff]

/-! ## Products that are zero -/

theorem nontrivial_residues (m : Modulus) : Nontrivial (AdjoinRoot m.polynomial) := by
  have htwo := m.two_le_degree
  have hfinite := finite_residues m
  rw [← Finite.one_lt_card_iff_nontrivial, natCard_residues]
  exact Nat.one_lt_two_pow (by omega)

/-- **The modulus is irreducible exactly if there are no divisors of zero.** -/
theorem irreducible_iff : Irreducible m.polynomial ↔ ∀ a b : Elem m, a * b = 0 → a = 0 ∨ b = 0 := by
  constructor
  · intro h a b hab
    have hfield : Fact (Irreducible m.polynomial) := ⟨h⟩
    rw [← residue_eq_zero_iff, residue_mul] at hab
    rw [← a.residue_eq_zero_iff, ← b.residue_eq_zero_iff]
    exact mul_eq_zero.1 hab
  · intro h
    have hnontrivial := nontrivial_residues m
    have hdivisors : NoZeroDivisors (AdjoinRoot m.polynomial) := by
      constructor
      intro x y hxy
      obtain ⟨a, rfl⟩ := residue_surjective x
      obtain ⟨b, rfl⟩ := residue_surjective y
      rw [← residue_mul, residue_eq_zero_iff] at hxy
      rw [residue_eq_zero_iff, residue_eq_zero_iff]
      exact h a b hxy
    have hprime : (Ideal.span {m.polynomial}).IsPrime := by
      rw [← Ideal.Quotient.isDomain_iff_prime]
      exact NoZeroDivisors.to_isDomain (AdjoinRoot m.polynomial)
    exact ((Ideal.span_singleton_prime m.monic_polynomial.ne_zero).1 hprime).irreducible

/-! ## Powers -/

section Irreducible

variable (h : Irreducible m.polynomial)

include h

/-- the power 2^degree gives every element back -/
theorem residue_pow_degree (a : Elem m) : a.residue ^ 2 ^ m.degree = a.residue := by
  have hfield : Fact (Irreducible m.polynomial) := ⟨h⟩
  have hfinite := finite_residues m
  have hfintype := Fintype.ofFinite (AdjoinRoot m.polynomial)
  rw [← natCard_residues, Nat.card_eq_fintype_card]
  exact FiniteField.pow_card a.residue

/-- the power 2^degree - 1 of an element that is not zero is one -/
theorem residue_pow_pred {a : Elem m} (ha : a ≠ 0) : a.residue ^ (2 ^ m.degree - 1) = 1 := by
  have hfield : Fact (Irreducible m.polynomial) := ⟨h⟩
  have hfinite := finite_residues m
  have hfintype := Fintype.ofFinite (AdjoinRoot m.polynomial)
  rw [← natCard_residues, Nat.card_eq_fintype_card]
  exact FiniteField.pow_card_sub_one_eq_one a.residue (mt a.residue_eq_zero_iff.1 ha)

/-- an element that is not zero times its inverse -/
theorem mul_invert {a : Elem m} (ha : a ≠ 0) : a * a.invert = 1 := by
  have hexponent : 2 ^ m.degree - 2 + 1 = 2 ^ m.degree - 1 := by
    have hlarge : 2 ^ 2 ≤ 2 ^ m.degree := Nat.pow_le_pow_right Nat.two_pos m.two_le_degree
    omega
  refine residue_injective ?_
  rw [residue_mul, residue_invert, ← pow_succ', hexponent, residue_pow_pred h ha, residue_one]

end Irreducible

end Elem

/-! ## The field -/

/-- **A field.** Whatever the modulus, if only it is admissible and irreducible: one is not zero, an element that is not
zero times its inverse is one, a quotient by an element that is not zero times that element is what was divided, a
product is zero only if a factor is, and squaring an element as many times as the degree says gives it back. -/
theorem field_laws (m : Modulus) (h : Irreducible m.polynomial) :
    (1 : Elem m) ≠ 0 ∧
    (∀ a : Elem m, a ≠ 0 → a * a.invert = 1) ∧
    (∀ a b : Elem m, b ≠ 0 → a / b * b = a) ∧
    (∀ a b : Elem m, a * b = 0 → a = 0 ∨ b = 0) ∧
    ∀ a : Elem m, a.squareN m.degree = a := by
  refine ⟨?_, fun a ha => Elem.mul_invert h ha, ?_, Elem.irreducible_iff.1 h, ?_⟩
  · intro hone
    have hnontrivial := Elem.nontrivial_residues m
    have hresidue := congrArg Elem.residue hone
    rw [Elem.residue_one, Elem.residue_zero] at hresidue
    exact one_ne_zero hresidue
  · intro a b hb
    -- a quotient is a product with the inverse on the left
    calc a / b * b = b.invert * a * b := rfl
      _ = a * (b * b.invert) := by rw [b.invert.mul_comm a, Elem.mul_assoc, b.invert.mul_comm b]
      _ = 1 * a := by rw [Elem.mul_invert h hb, Elem.mul_comm]
      _ = a := a.one_mul
  · intro a
    refine Elem.residue_injective ?_
    rw [Elem.residue_squareN, Elem.residue_pow_degree h]

/-- z^4 + z + 1 is irreducible: none of the products of its field is zero but those with zero -/
theorem irreducible_gf16 : Irreducible gf16.polynomial := by
  have hproducts : ∀ i j : Fin (2 ^ 4), (⟨BitVec.ofFin i⟩ * ⟨BitVec.ofFin j⟩ : Elem gf16) = 0 → i = 0 ∨ j = 0 := by
    decide +kernel
  refine Elem.irreducible_iff.2 fun a b hab => ?_
  rcases hproducts a.bits.toFin b.bits.toFin hab with ha | hb
  · exact .inl (congrArg (fun i : Fin (2 ^ 4) => (⟨BitVec.ofFin i⟩ : Elem gf16)) ha)
  · exact .inr (congrArg (fun i : Fin (2 ^ 4) => (⟨BitVec.ofFin i⟩ : Elem gf16)) hb)

/-- the field with sixteen elements, where z^3 + 1 is the inverse of z -/
theorem field_laws_gf16 :
    Irreducible gf16.polynomial ∧
    (⟨0b0010⟩ : Elem gf16) * ⟨0b1001⟩ = 1 ∧ (⟨0b0010⟩ : Elem gf16).invert = ⟨0b1001⟩ ∧
    (∀ a : Elem gf16, a ≠ 0 → a * a.invert = 1) ∧
    (∀ a b : Elem gf16, b ≠ 0 → a / b * b = a) ∧
    (∀ a b : Elem gf16, a * b = 0 → a = 0 ∨ b = 0) ∧
    ∀ a : Elem gf16, a.squareN 4 = a := by
  obtain ⟨-, hinverse, hquotient, hproduct, hsquares⟩ := field_laws gf16 irreducible_gf16
  exact ⟨irreducible_gf16, by decide, by decide, hinverse, hquotient, hproduct, hsquares⟩

end PostQuantum.BinaryField
