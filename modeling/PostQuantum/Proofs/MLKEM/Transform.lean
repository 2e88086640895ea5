/-
What the transform and its products compute.

- `ntt_residues`: entries 2i and 2i + 1 are the residue of the polynomial modulo X^2 - gamma, as sums over the even and
  the odd coefficients.
- `transform_bijective`: the transform and its inverse undo each other, on vectors of reduced polynomials.
- `transform_homomorphism`: products of vectors formed in T_q are the negacyclic products, and the transform commutes
  with sums and multiples.
Both are for all reduced polynomials, in any number.
-/
import Mathlib.Tactic
import Mathlib.Logic.Equiv.Fin.Basic
import PostQuantum.Proofs.MLKEM.Homomorphism
import PostQuantum.Proofs.MLKEM.InPlace

namespace PostQuantum.MLKEM

open PrimeField

/-! ## Residues as sums -/

/-- a sum over the coefficients, by pairs -/
theorem sum_by_pairs {M : Type} [AddCommMonoid M] (h : Fin 256 → M) :
    ∑ i, h i = ∑ j : Fin 128, (h ⟨2 * j.val, constant_lt j⟩ + h ⟨2 * j.val + 1, linear_lt j⟩) := by
  rw [← Equiv.sum_comp (finProdFinEquiv (m := 128) (n := 2)) h, Fintype.sum_prod_type]
  refine Finset.sum_congr rfl fun j _ => ?_
  rw [Fin.sum_univ_two]
  refine congrArg₂ _ (congrArg h (Fin.ext ?_)) (congrArg h (Fin.ext ?_))
  · exact Nat.zero_add _
  · exact Nat.add_comm _ _

/-- even powers of the generator are powers of the constant of the factor -/
theorem eval_generator (a : Negacyclic Zq 256) (p : Fin 128) :
    Negacyclic.eval (generator p) a =
      ⟨∑ j : Fin 128, a ⟨2 * j.val, constant_lt j⟩ * (gammas.get p).residue ^ j.val,
        ∑ j : Fin 128, a ⟨2 * j.val + 1, linear_lt j⟩ * (gammas.get p).residue ^ j.val⟩ := by
  have heven : ∀ j : ℕ, generator p ^ (2 * j) = algebraMap Zq (Factor p) ((gammas.get p).residue ^ j) := fun j => by
    rw [pow_mul, generator_sq, map_pow]
  rw [Negacyclic.eval, sum_by_pairs, eq_combination, map_sum, map_sum, Finset.sum_mul, ← Finset.sum_add_distrib]
  refine Finset.sum_congr rfl fun j _ => ?_
  simp only
  rw [pow_succ, heven, map_mul, map_mul]
  ring

/-- a sum of products with powers, as a number -/
theorem val_of_residue_eq_sum {c g : Coeff} (hc : c.Reduced) (a : Fin 128 → Coeff)
    (h : c.residue = ∑ j : Fin 128, (a j).residue * g.residue ^ j.val) :
    c.val = (∑ j : Fin 128, (a j).val * g.val ^ j.val) % 3329 := by
  have hcast : c.residue = ((∑ j : Fin 128, (a j).val * g.val ^ j.val : ℕ) : Zq) := by
    rw [h, Nat.cast_sum]
    refine Finset.sum_congr rfl fun j _ => ?_
    rw [Nat.cast_mul, Nat.cast_pow]
    rfl
  rw [← Elem.val_residue hc, hcast]
  exact ZMod.val_natCast ..

/-- **The residues.** The loop in place computes the transform, and entries 2i and 2i + 1 of it are the two terms of the
polynomial modulo X^2 - g, for the power g of 17 that belongs to the reversed bits of i. -/
theorem ntt_residues {f : Rq} (hf : f.Reduced) (i : Fin 128) :
    let g := (gammas.get i).val
    let out := transformLoop f.coeffs
    ntt f = ⟨out⟩ ∧
    g = 17 ^ (2 * bitRev 7 i.val + 1) % 3329 ∧ (∀ t < 7, (bitRev 7 i.val).testBit t = i.val.testBit (6 - t)) ∧
    (out.get ⟨2 * i.val, constant_lt i⟩).val =
      (∑ j : Fin 128, (f.coeffs.get ⟨2 * j.val, constant_lt j⟩).val * g ^ j.val) % 3329 ∧
    (out.get ⟨2 * i.val + 1, linear_lt i⟩).val =
      (∑ j : Fin 128, (f.coeffs.get ⟨2 * j.val + 1, linear_lt j⟩).val * g ^ j.val) % 3329 := by
  have hsplit : pairs (ntt f) i = Negacyclic.eval (generator i) (value f) :=
    (congrFun (pairs_ntt hf) i).trans (split_apply _ _)
  rw [eval_generator] at hsplit
  obtain ⟨hre, him⟩ := QuadraticAlgebra.ext_iff.1 hsplit
  have hloop : transformLoop f.coeffs = (ntt f).coeffs := (congrArg NttPoly.coeffs (ntt_eq_loop f)).symm
  refine ⟨ntt_eq_loop f, ?_, fun t ht => testBit_bitRev ht i.val, ?_, ?_⟩
  · rw [gammas, get_ofFn]
    exact Elem.val_ofNat (Nat.mod_lt _ z3329.q_pos)
  · rw [hloop]
    exact val_of_residue_eq_sum (Tq.reduced_constant (ntt_reduced hf) i) _ hre
  · rw [hloop]
    exact val_of_residue_eq_sum (Tq.reduced_linear (ntt_reduced hf) i) _ him

/-- the polynomial with coefficient i at place i, at its factor 5 -/
theorem ntt_residues_ramp :
    let ramp : Rq := ⟨Vector.ofFn fun i => Elem.ofNat z3329 i.val⟩
    ramp.Reduced ∧ (gammas.get 5).val = 2746 ∧ ((transformLoop ramp.coeffs).get 10).val = 2725 ∧
      ((transformLoop ramp.coeffs).get 11).val = 2668 := by
  intro ramp
  have hred : ramp.Reduced := fun i => by
    rw [get_ofFn]
    exact Elem.reduced_ofNat (i.isLt.trans (by decide))
  obtain ⟨-, -, -, h0, h1⟩ := ntt_residues hred 5
  have hgamma : (gammas.get 5).val = 2746 := by
    decide +kernel
  have hentry : ∀ i : Fin 256, (ramp.coeffs.get i).val = i.val := fun i => by
    rw [get_ofFn]
    exact Elem.val_ofNat (i.isLt.trans (by decide))
  simp only [hgamma, hentry] at h0 h1
  exact ⟨hred, hgamma, h0.trans (by decide +kernel), h1.trans (by decide +kernel)⟩

/-! ## The way there and back -/

/-- **The transform is a bijection.** On reduced vectors of any length the inverse undoes the transform and the
transform undoes the inverse, so each reduced vector in T_q comes from exactly one in R_q. Both run entry by entry as
the loops in place do, the inverse with its one scale at the end. -/
theorem transform_bijective {k : ℕ} {u : RqVec k} {v : TqVec k} (hu : u.Reduced) (hv : v.Reduced) :
    (nttInverseVec (nttVec u) = u ∧ nttVec (nttInverseVec v) = v) ∧
    Set.BijOn (nttVec (k := k)) {u | u.Reduced} {v | v.Reduced} ∧
    (∀ i, (nttVec u).polys.get i = ⟨transformLoop (u.polys.get i).coeffs⟩) ∧
    (∀ i, (nttInverseVec v).polys.get i = Poly.scale inverse128 ⟨inverseLoop (v.polys.get i).coeffs⟩) := by
  refine ⟨⟨nttInverseVec_nttVec hu, nttVec_nttInverseVec hv⟩, ?_, fun i => ?_, fun i => ?_⟩
  · have hinverse : Set.InvOn (nttInverseVec (k := k)) nttVec {u | u.Reduced} {v | v.Reduced} :=
      ⟨fun _ h => nttInverseVec_nttVec h, fun _ h => nttVec_nttInverseVec h⟩
    exact hinverse.bijOn (fun _ h => nttVec_reduced h) (fun v _ => nttInverseVec_reduced v)
  · rw [nttVec_get]
    exact ntt_eq_loop _
  · rw [nttInverseVec_get]
    exact nttInverse_eq_loop _

/-- three entries with the coefficients 0 to 255, and three with all residues -1 -/
theorem transform_bijective_ramps :
    let ramp : Rq := ⟨Vector.ofFn fun i => Elem.ofNat z3329 i.val⟩
    let u : RqVec 3 := ⟨Vector.replicate 3 ramp⟩
    let v : TqVec 3 := ⟨Vector.replicate 3 ⟨Vector.replicate 256 (Elem.ofNat z3329 3328)⟩⟩
    u.Reduced ∧ v.Reduced ∧ nttInverseVec (nttVec u) = u ∧ nttVec (nttInverseVec v) = v := by
  intro ramp u v
  have hu : u.Reduced := fun i j => by
    rw [get_replicate, get_ofFn]
    exact Elem.reduced_ofNat (j.isLt.trans (by decide))
  have hv : v.Reduced := fun i j => by
    rw [get_replicate, get_replicate]
    decide
  obtain ⟨⟨hthere, hback⟩, -⟩ := transform_bijective hu hv
  exact ⟨hu, hv, hthere, hback⟩

/-! ## Products, sums and multiples -/

/-- **The transform is a homomorphism.** For vectors of any length, the product formed in T_q comes back as the sum of
the negacyclic products, and so it is in the quotient of the polynomials by X^256 + 1. The transform of a sum or a
multiple is the sum or the multiple of the transforms. Everything is reduced on the way. -/
theorem transform_homomorphism {k : ℕ} {u v : RqVec k} {f g : Rq} {c : Coeff} (hu : u.Reduced) (hv : v.Reduced)
    (hf : f.Reduced) (hg : g.Reduced) (hc : c.Reduced) :
    let product := nttInverse (dot (nttVec u) (nttVec v))
    ((nttVec u).Reduced ∧ (nttVec v).Reduced ∧ (dot (nttVec u) (nttVec v)).Reduced ∧ product.Reduced ∧
      value product = ∑ i, value (u.polys.get i) * value (v.polys.get i) ∧
      Negacyclic.quotientEquiv Zq 256 (value product) =
        ∑ i, Negacyclic.quotientEquiv Zq 256 (value (u.polys.get i)) *
          Negacyclic.quotientEquiv Zq 256 (value (v.polys.get i))) ∧
    ((ntt (f + g)).Reduced ∧ ntt (f + g) = ntt f + ntt g) ∧
    ((ntt (Poly.scale c f)).Reduced ∧
      ∀ i, (ntt (Poly.scale c f)).coeffs.get i = c * (ntt f).coeffs.get i) := by
  intro product
  have hu' := nttVec_reduced hu
  have hv' := nttVec_reduced hv
  have hproduct : value product = ∑ i, value (u.polys.get i) * value (v.polys.get i) := by
    rw [value_nttInverse_dot hu' hv']
    refine Finset.sum_congr rfl fun i _ => ?_
    rw [nttVec_get, nttVec_get, nttInverse_ntt (hu i), nttInverse_ntt (hv i)]
  refine ⟨⟨hu', hv', Tq.reduced_dot hu' hv', nttInverse_reduced _, hproduct, ?_⟩,
    ⟨ntt_reduced (Rq.reduced_add hf hg), ntt_add hf hg⟩,
    ⟨ntt_reduced (Rq.reduced_scale c f), ntt_scale_get hc hf⟩⟩
  rw [hproduct, map_sum]
  exact Finset.sum_congr rfl fun i _ => map_mul _ _ _

/-- two entries with all coefficients -1, and the multiple by 3 -/
theorem transform_homomorphism_replicate :
    let f : Rq := ⟨Vector.replicate 256 (Elem.ofNat z3329 3328)⟩
    let u : RqVec 2 := ⟨Vector.replicate 2 f⟩
    let c : Coeff := Elem.ofNat z3329 3
    u.Reduced ∧ f.Reduced ∧ c.Reduced ∧
      value (nttInverse (dot (nttVec u) (nttVec u))) = ∑ i, value (u.polys.get i) * value (u.polys.get i) ∧
      ntt (f + f) = ntt f + ntt f ∧ ∀ i, (ntt (Poly.scale c f)).coeffs.get i = c * (ntt f).coeffs.get i := by
  intro f u c
  have hf : f.Reduced := fun i => by
    rw [get_replicate]
    decide
  have hu : u.Reduced := fun i => by
    rw [get_replicate]
    exact hf
  have hc : c.Reduced := by
    decide
  obtain ⟨⟨-, -, -, -, hproduct, -⟩, ⟨-, hadd⟩, ⟨-, hscale⟩⟩ := transform_homomorphism hu hu hf hf hc
  exact ⟨hu, hf, hc, hproduct, hadd, hscale⟩

end PostQuantum.MLKEM
