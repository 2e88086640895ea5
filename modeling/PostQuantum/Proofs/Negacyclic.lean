/-
The ring R[X]/(X^n + 1), by coefficients.

An element is a function on the n coefficients, constant term first, and the product is the schoolbook one: the term
X^i X^j goes to X^(i + j) with its sign if i + j is below n, and to X^(i + j - n) with the sign changed otherwise.
- `eval_mul`: at a point whose n-th power is -1, the value of a product is the product of the values.
- `quotientEquiv`: the ring is the quotient of the polynomials by X^n + 1.
The ring laws are taken over from the quotient, where `eval` at the root is injective.
-/
import Mathlib.Tactic
import Mathlib.RingTheory.AdjoinRoot

namespace PostQuantum

open Polynomial

/-- an element of R[X]/(X^n + 1), by its coefficients -/
def Negacyclic (R : Type) (n : ℕ) : Type := Fin n → R

namespace Negacyclic

variable {R : Type} [CommRing R] {n : ℕ}

instance : AddCommGroup (Negacyclic R n) := inferInstanceAs (AddCommGroup (Fin n → R))

instance : Module R (Negacyclic R n) := inferInstanceAs (Module R (Fin n → R))

/-- the schoolbook product, with the sign changed where the degree wraps -/
instance : Mul (Negacyclic R n) where
  mul a b k := ∑ i : Fin n, ∑ j : Fin n,
    if i.val + j.val = k.val then a i * b j
    else if i.val + j.val = k.val + n then -(a i * b j)
    else 0

instance : One (Negacyclic R n) where
  one k := if k.val = 0 then 1 else 0

omit [CommRing R] in
@[ext] theorem ext {a b : Negacyclic R n} (h : ∀ i, a i = b i) : a = b := funext h

@[simp] theorem zero_apply (i : Fin n) : (0 : Negacyclic R n) i = 0 := rfl

@[simp] theorem add_apply (a b : Negacyclic R n) (i : Fin n) : (a + b) i = a i + b i := rfl

@[simp] theorem sub_apply (a b : Negacyclic R n) (i : Fin n) : (a - b) i = a i - b i := rfl

@[simp] theorem neg_apply (a : Negacyclic R n) (i : Fin n) : (-a) i = -a i := rfl

@[simp] theorem smul_apply (c : R) (a : Negacyclic R n) (i : Fin n) : (c • a) i = c * a i := rfl

theorem mul_apply (a b : Negacyclic R n) (k : Fin n) :
    (a * b) k = ∑ i : Fin n, ∑ j : Fin n,
      if i.val + j.val = k.val then a i * b j
      else if i.val + j.val = k.val + n then -(a i * b j)
      else 0 := rfl

theorem one_apply (k : Fin n) : (1 : Negacyclic R n) k = if k.val = 0 then 1 else 0 := rfl

/-! ## Values at a point -/

section Eval

variable {A : Type} [CommRing A] [Algebra R A] {x : A}

/-- the value at `x` of the polynomial with these coefficients -/
def eval (x : A) (a : Negacyclic R n) : A := ∑ i, algebraMap R A (a i) * x ^ i.val

theorem eval_zero (x : A) : eval x (0 : Negacyclic R n) = 0 := by
  simp [eval]

theorem eval_add (x : A) (a b : Negacyclic R n) : eval x (a + b) = eval x a + eval x b := by
  simp [eval, add_mul, Finset.sum_add_distrib]

theorem eval_one [NeZero n] (x : A) : eval x (1 : Negacyclic R n) = 1 := by
  unfold eval
  rw [Finset.sum_eq_single 0]
  · simp [one_apply]
  · intro k _ hk
    have : k.val ≠ 0 := fun h => hk (Fin.ext h)
    simp [one_apply, this]
  · intro h
    exact absurd (Finset.mem_univ _) h

/-- the term X^i X^j ends up in one coefficient, and has the value that it should have there -/
theorem eval_term (hx : x ^ n = -1) (i j : Fin n) (c : R) :
    ∑ k : Fin n, algebraMap R A (if i.val + j.val = k.val then c else if i.val + j.val = k.val + n then -c else 0) *
      x ^ k.val = algebraMap R A c * x ^ (i.val + j.val) := by
  have hi := i.isLt
  have hj := j.isLt
  by_cases h : i.val + j.val < n
  · rw [Finset.sum_eq_single ⟨i.val + j.val, h⟩]
    · simp
    · intro k _ hk
      have h1 : i.val + j.val ≠ k.val := fun e => hk (Fin.ext e.symm)
      have h2 : i.val + j.val ≠ k.val + n := by omega
      simp [h1, h2]
    · intro hk
      exact absurd (Finset.mem_univ _) hk
  · have hsplit : i.val + j.val - n + n = i.val + j.val := by omega
    rw [Finset.sum_eq_single ⟨i.val + j.val - n, by omega⟩]
    · have h1 : i.val + j.val ≠ i.val + j.val - n := by omega
      have hpow : x ^ (i.val + j.val) = -x ^ (i.val + j.val - n) := by
        rw [← hsplit, pow_add, hx, mul_neg_one, hsplit]
      rw [if_neg h1, if_pos hsplit.symm, hpow, map_neg, neg_mul, mul_neg]
    · intro k _ hk
      have h1 : i.val + j.val ≠ k.val := by
        have := k.isLt
        omega
      have h2 : i.val + j.val ≠ k.val + n := fun e => hk (Fin.ext (by simp only; omega))
      simp [h1, h2]
    · intro hk
      exact absurd (Finset.mem_univ _) hk

/-- **Values of products.** Where the n-th power of the point is -1, the schoolbook product has the product of the
values as its value. -/
theorem eval_mul (hx : x ^ n = -1) (a b : Negacyclic R n) : eval x (a * b) = eval x a * eval x b := by
  calc eval x (a * b)
      = ∑ i : Fin n, ∑ j : Fin n, ∑ k : Fin n, algebraMap R A (if i.val + j.val = k.val then a i * b j
          else if i.val + j.val = k.val + n then -(a i * b j) else 0) * x ^ k.val := by
        simp only [eval, mul_apply, map_sum, Finset.sum_mul]
        rw [Finset.sum_comm]
        exact Finset.sum_congr rfl fun i _ => Finset.sum_comm
    _ = ∑ i : Fin n, ∑ j : Fin n, algebraMap R A (a i * b j) * x ^ (i.val + j.val) := by
        simp only [eval_term hx]
    _ = ∑ i : Fin n, ∑ j : Fin n, algebraMap R A (a i) * x ^ i.val * (algebraMap R A (b j) * x ^ j.val) := by
        refine Finset.sum_congr rfl fun i _ => Finset.sum_congr rfl fun j _ => ?_
        rw [map_mul, pow_add]
        ring
    _ = eval x a * eval x b := by
        rw [eval, eval, Finset.sum_mul_sum]

end Eval

/-! ## The quotient of the polynomials by X^n + 1 -/

/-- the element of the quotient with these coefficients -/
noncomputable def toQuotient (a : Negacyclic R n) : AdjoinRoot (X ^ n + 1 : R[X]) := eval (AdjoinRoot.root _) a

theorem root_pow : (AdjoinRoot.root (X ^ n + 1 : R[X])) ^ n = -1 := by
  have h : AdjoinRoot.mk (X ^ n + 1 : R[X]) (X ^ n + 1) = 0 := AdjoinRoot.mk_self
  rw [map_add, map_pow, map_one, AdjoinRoot.mk_X] at h
  exact eq_neg_of_add_eq_zero_left h

theorem monic_modulus [NeZero n] : (X ^ n + 1 : R[X]).Monic :=
  monic_X_pow_add_C 1 (NeZero.ne n)

/-- the polynomial of degree below n with these coefficients -/
noncomputable def toPolynomial (a : Negacyclic R n) : R[X] := ∑ i : Fin n, C (a i) * X ^ i.val

theorem coeff_toPolynomial (a : Negacyclic R n) (i : Fin n) : (toPolynomial a).coeff i.val = a i := by
  unfold toPolynomial
  rw [finsetSum_coeff, Finset.sum_eq_single i]
  · rw [coeff_C_mul_X_pow, if_pos rfl]
  · intro j _ hj
    rw [coeff_C_mul_X_pow, if_neg fun h => hj (Fin.ext h.symm)]
  · intro hi
    exact absurd (Finset.mem_univ _) hi

theorem toQuotient_eq_mk (a : Negacyclic R n) : toQuotient a = AdjoinRoot.mk (X ^ n + 1 : R[X]) (toPolynomial a) := by
  simp [toQuotient, toPolynomial, eval, AdjoinRoot.algebraMap_eq]

theorem toQuotient_injective [NeZero n] : Function.Injective (toQuotient : Negacyclic R n → _) := by
  intro a b h
  rcases subsingleton_or_nontrivial R with hR | hR
  · exact ext fun i => Subsingleton.elim _ _
  rw [toQuotient_eq_mk, toQuotient_eq_mk, AdjoinRoot.mk_eq_mk] at h
  have hdegree : (toPolynomial a - toPolynomial b).degree < (X ^ n + 1 : R[X]).degree := by
    have hn : (X ^ n + 1 : R[X]).degree = n := degree_X_pow_add_C (NeZero.pos n) 1
    rw [hn]
    exact (degree_sub_le _ _).trans_lt (max_lt (degree_sum_fin_lt a) (degree_sum_fin_lt b))
  have hzero : toPolynomial a - toPolynomial b = 0 := by
    by_contra hne
    exact monic_modulus.not_dvd_of_degree_lt hne hdegree h
  ext i
  rw [← coeff_toPolynomial a, ← coeff_toPolynomial b, sub_eq_zero.1 hzero]

/-- the coefficients of the remainder modulo X^n + 1 -/
noncomputable def ofPolynomial (n : ℕ) (p : R[X]) : Negacyclic R n := fun i => (p %ₘ (X ^ n + 1)).coeff i.val

theorem toQuotient_ofPolynomial [NeZero n] (p : R[X]) : toQuotient (ofPolynomial n p) = AdjoinRoot.mk _ p := by
  rcases subsingleton_or_nontrivial R with hR | hR
  · exact (toQuotient_eq_mk _).trans (congrArg _ (Subsingleton.elim _ _))
  have hlt : (p %ₘ (X ^ n + 1)).natDegree < n := by
    have hn : (X ^ n + 1 : R[X]).natDegree = n := natDegree_X_pow_add_C
    have hone : (X ^ n + 1 : R[X]) ≠ 1 := fun h => by
      rw [h, natDegree_one] at hn
      exact NeZero.ne n hn.symm
    exact (natDegree_modByMonic_lt p monic_modulus hone).trans_eq hn
  have hpoly : toPolynomial (ofPolynomial n p) = p %ₘ (X ^ n + 1) := by
    conv_rhs => rw [as_sum_range_C_mul_X_pow' _ hlt]
    exact Fin.sum_univ_eq_sum_range (fun i => C ((p %ₘ (X ^ n + 1)).coeff i) * X ^ i) n
  rw [toQuotient_eq_mk, hpoly, AdjoinRoot.mk_eq_mk]
  exact ⟨-(p /ₘ (X ^ n + 1)), by rw [modByMonic_eq_sub_mul_div]; ring⟩

theorem toQuotient_surjective [NeZero n] : Function.Surjective (toQuotient : Negacyclic R n → _) := by
  intro y
  obtain ⟨p, rfl⟩ := AdjoinRoot.mk_surjective y
  exact ⟨ofPolynomial n p, toQuotient_ofPolynomial p⟩

instance [NeZero n] : CommRing (Negacyclic R n) where
  __ := (inferInstance : AddCommGroup (Negacyclic R n))
  mul_assoc a b c := toQuotient_injective <| by
    simp only [toQuotient, eval_mul root_pow]
    ring
  mul_comm a b := toQuotient_injective <| by
    simp only [toQuotient, eval_mul root_pow]
    ring
  one_mul a := toQuotient_injective <| by
    simp only [toQuotient, eval_mul root_pow, eval_one, one_mul]
  mul_one a := toQuotient_injective <| by
    simp only [toQuotient, eval_mul root_pow, eval_one, mul_one]
  left_distrib a b c := toQuotient_injective <| by
    simp only [toQuotient, eval_mul root_pow, eval_add]
    ring
  right_distrib a b c := toQuotient_injective <| by
    simp only [toQuotient, eval_mul root_pow, eval_add]
    ring
  zero_mul a := toQuotient_injective <| by
    simp only [toQuotient, eval_mul root_pow, eval_zero, zero_mul]
  mul_zero a := toQuotient_injective <| by
    simp only [toQuotient, eval_mul root_pow, eval_zero, mul_zero]

/-- the values at a point whose n-th power is -1, as a ring homomorphism -/
def evalHom [NeZero n] {A : Type} [CommRing A] [Algebra R A] (x : A) (hx : x ^ n = -1) : Negacyclic R n →+* A where
  toFun := eval x
  map_one' := eval_one x
  map_mul' := eval_mul hx
  map_zero' := eval_zero x
  map_add' := eval_add x

/-- **The quotient ring.** Coefficients with the schoolbook product are the polynomials modulo X^n + 1. -/
noncomputable def quotientEquiv (R : Type) [CommRing R] (n : ℕ) [NeZero n] :
    Negacyclic R n ≃+* AdjoinRoot (X ^ n + 1 : R[X]) :=
  RingEquiv.ofBijective (evalHom (AdjoinRoot.root _) root_pow) ⟨toQuotient_injective, toQuotient_surjective⟩

end Negacyclic

end PostQuantum
