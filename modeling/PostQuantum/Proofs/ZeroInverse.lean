/-
The inverse of zero.

Zero has no inverse, and inversion gives a power of it. The exponent is 2^degree - 2 in a binary field and q - 2 in a
prime field, and the power is zero unless the exponent is: a degree is at least two, but q - 2 is zero for q = 2, and
there inversion gives one whatever it is given.
- `BinaryField.Elem.invert_zero`, `BinaryField.Elem.div_zero`: zero goes to zero, and so does a quotient by zero.
- `PrimeField.Elem.invert_zero_iff`, `PrimeField.Elem.div_zero_iff`: the same in a prime field exactly if q is not two.
- `zero_convention`: both together, with what happens modulo two.
- `zero_convention_not_modulo_two`: so not every prime keeps the convention.
-/
import Mathlib.Tactic
import PostQuantum.Proofs.BinaryField.Power
import PostQuantum.Proofs.PrimeField.Power

namespace PostQuantum

/-! ## Binary fields -/

namespace BinaryField.Elem

variable {m : Modulus}

theorem invert_zero : (0 : Elem m).invert = 0 := by
  have hexponent : 2 ^ m.degree - 2 ≠ 0 := by
    have hlarge : 2 ^ 2 ≤ 2 ^ m.degree := Nat.pow_le_pow_right Nat.two_pos m.two_le_degree
    omega
  apply residue_injective
  rw [residue_invert, residue_zero, zero_pow hexponent]

theorem div_zero (a : Elem m) : a / 0 = 0 := by
  apply residue_injective
  -- a quotient is a product with the inverse on the left
  calc (a / 0).residue = (invert 0 * a).residue := rfl
    _ = 0 * a.residue := by rw [residue_mul, invert_zero, residue_zero]
    _ = (0 : Elem m).residue := by rw [zero_mul, residue_zero]

end BinaryField.Elem

/-! ## Prime fields -/

namespace PrimeField.Elem

variable {F : Modulus} {a : Elem F}

theorem val_zero : (0 : Elem F).val = 0 := val_ofNat F.q_pos

theorem val_one : (1 : Elem F).val = 1 := val_ofNat F.admissible.two_le_q

theorem one_ne_zero : (1 : Elem F) ≠ 0 := by
  intro h
  have hval := congrArg val h
  rw [val_one, val_zero] at hval
  exact absurd hval Nat.one_ne_zero

theorem mul_one (ha : a.Reduced) : a * 1 = a := by
  apply ext_val
  rw [val_mul ha reduced_one, val_one, Nat.mul_one, Nat.mod_eq_of_lt ha]

theorem invert_zero (hq : F.q ≠ 2) : (0 : Elem F).invert = 0 := by
  have hexponent : F.q - 2 ≠ 0 := by
    have htwo := F.admissible.two_le_q
    omega
  apply ext_val
  calc (0 : Elem F).invert.val = (0 : Elem F).val ^ (F.q - 2) % F.q := val_pow reduced_zero _
    _ = (0 : Elem F).val := by rw [val_zero, zero_pow hexponent, Nat.zero_mod]

/-- modulo two the exponent is zero -/
theorem invert_of_two (hq : F.q = 2) (a : Elem F) : a.invert = 1 := by
  have hexponent : F.inversionExponent = 0 := by
    unfold Modulus.inversionExponent
    rw [hq]
  rw [invert, hexponent]
  rfl

/-- **The inverse of zero is zero** exactly if q is not two. -/
theorem invert_zero_iff : (0 : Elem F).invert = 0 ↔ F.q ≠ 2 := by
  constructor
  · intro h hq
    exact one_ne_zero ((invert_of_two hq 0).symm.trans h)
  · exact invert_zero

theorem div_zero (hq : F.q ≠ 2) (ha : a.Reduced) : a / 0 = 0 := by
  apply ext_val
  calc (a / 0).val = (a * invert 0).val := rfl
    _ = (0 : Elem F).val := by rw [invert_zero hq, val_mul ha reduced_zero, val_zero, Nat.mul_zero, Nat.zero_mod]

theorem div_of_two (hq : F.q = 2) (ha : a.Reduced) (b : Elem F) : a / b = a := by
  calc a / b = a * b.invert := rfl
    _ = a := by rw [invert_of_two hq, mul_one ha]

/-- **Quotients by zero are zero** exactly if q is not two. -/
theorem div_zero_iff : (∀ a : Elem F, a.Reduced → a / 0 = 0) ↔ F.q ≠ 2 := by
  constructor
  · intro h hq
    have hone : (1 : Elem F) / 0 = 1 := div_of_two hq reduced_one 0
    exact one_ne_zero (hone.symm.trans (h 1 reduced_one))
  · intro hq a ha
    exact div_zero hq ha

end PrimeField.Elem

/-! ## Every modulus -/

/-- **The inverse of zero.** Whatever the modulus of a binary field, if only it is admissible: inversion takes zero to
zero, and a quotient by zero is zero. Whatever the modulus of a prime field and the three widths, if only they are
admissible: inversion takes zero to zero exactly if q is not two, and quotients of reduced elements by zero are zero
exactly if q is not two. Modulo two inversion gives one, and a quotient is what was divided, also by zero. -/
theorem zero_convention (m : BinaryField.Modulus) (F : PrimeField.Modulus) :
    (0 : BinaryField.Elem m).invert = 0 ∧
    (∀ a : BinaryField.Elem m, a / 0 = 0) ∧
    ((0 : PrimeField.Elem F).invert = 0 ↔ F.q ≠ 2) ∧
    ((∀ a : PrimeField.Elem F, a.Reduced → a / 0 = 0) ↔ F.q ≠ 2) ∧
    (F.q = 2 → ∀ a b : PrimeField.Elem F, a.Reduced → a.invert = 1 ∧ a / b = a) := by
  refine ⟨BinaryField.Elem.invert_zero, BinaryField.Elem.div_zero, PrimeField.Elem.invert_zero_iff,
    PrimeField.Elem.div_zero_iff, ?_⟩
  intro hq a b ha
  exact ⟨PrimeField.Elem.invert_of_two hq a, PrimeField.Elem.div_of_two hq ha b⟩

/-- modulo three, the smallest odd prime, and modulo two, both in words of one byte -/
theorem zero_convention_three_two :
    let F : PrimeField.Modulus := { q := 3, intBits := 8, longBits := 16, wideBits := 32 }
    let G : PrimeField.Modulus := { q := 2, intBits := 8, longBits := 16, wideBits := 32 }
    let a := PrimeField.Elem.ofNat F 2
    let b := PrimeField.Elem.ofNat G 1
    F.q ≠ 2 ∧ a.Reduced ∧ (0 : PrimeField.Elem F).invert = 0 ∧ a / 0 = 0 ∧
      G.q = 2 ∧ b.Reduced ∧ (0 : PrimeField.Elem G).invert = 1 ∧ b / 0 = b := by
  intro F G a b
  have hF : F.q ≠ 2 := by decide
  have hG : G.q = 2 := rfl
  have ha : a.Reduced := by decide
  have hb : b.Reduced := by decide
  obtain ⟨-, -, hinvert, hdiv, -⟩ := zero_convention BinaryField.gf16 F
  obtain ⟨-, -, -, -, htwo⟩ := zero_convention BinaryField.gf16 G
  refine ⟨hF, ha, hinvert.2 hF, hdiv.2 hF a ha, hG, hb, ?_, (htwo hG b 0 hb).2⟩
  exact (htwo hG 0 0 PrimeField.Elem.reduced_zero).1

/-- two is a prime that does not keep the convention -/
theorem zero_convention_not_modulo_two :
    ¬∀ F : PrimeField.Modulus, F.q.Prime →
      (0 : PrimeField.Elem F).invert = 0 ∧ ∀ a : PrimeField.Elem F, a.Reduced → a / 0 = 0 := by
  intro h
  obtain ⟨hinvert, -⟩ := h { q := 2, intBits := 8, longBits := 16, wideBits := 32 } Nat.prime_two
  exact PrimeField.Elem.invert_zero_iff.1 hinvert rfl

end PostQuantum
