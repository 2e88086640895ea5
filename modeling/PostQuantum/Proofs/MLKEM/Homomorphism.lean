/-
The transform is an isomorphism of rings.

In Z_q[X]/(X^2 - gamma) the generator has -1 as its 256th power, so Z_q[X]/(X^256 + 1) maps to the product of these
rings by the values at the generators (`split`).
- `pairs_ntt`: the transform computes `split`.
- `ntt_add`, `ntt_scale_get`: it commutes with sums and multiples.
- `nttInverse_ntt`, `ntt_nttInverse`: on reduced elements the two transforms undo each other, so `split` is injective.
- `value_nttInverse_add`, `value_nttInverse_dot`: sums and dot products in T_q come back as those of Z_q[X]/(X^256 + 1).
Both transforms give reduced elements.
-/
import Mathlib.Tactic
import PostQuantum.Proofs.MLKEM.Evaluation
import PostQuantum.Proofs.MLKEM.Factors

namespace PostQuantum.MLKEM

open PrimeField

variable {f : Rq} {F G : Tq}

/-! ## Values at the generators -/

/-- the class of X modulo X^2 - gamma -/
def generator (p : Fin 128) : Factor p := ⟨0, 1⟩

theorem generator_sq (p : Fin 128) : generator p ^ 2 = algebraMap Zq (Factor p) (gammas.get p).residue := by
  rw [sq]
  exact QuadraticAlgebra.ext (by simp [generator]) (by simp [generator])

theorem generator_pow (p : Fin 128) : generator p ^ 256 = -1 := by
  have hodd : ((-1 : Zq)) ^ (2 * bitRev 7 p.val + 1) = -1 := by
    rw [pow_succ, pow_mul, neg_one_sq, one_pow, one_mul]
  have hgamma : (gammas.get p).residue ^ 128 = -1 := by
    rw [residue_gammas_get, blockConstant, Nat.sub_self, pow_zero, one_mul, ← pow_mul, Nat.mul_comm, pow_mul,
      zeta_pow_128, hodd]
  rw [show 256 = 2 * 128 by norm_num, pow_mul, generator_sq, ← map_pow, hgamma, map_neg, map_one]

theorem eq_combination (p : Fin 128) (a b : Zq) :
    (⟨a, b⟩ : Factor p) = algebraMap Zq (Factor p) a + algebraMap Zq (Factor p) b * generator p :=
  QuadraticAlgebra.ext (by simp [generator]) (by simp [generator])

/-- a polynomial modulo each of the quadratic factors -/
def split : Negacyclic Zq 256 →+* ((p : Fin 128) → Factor p) :=
  RingHom.pi fun p => Negacyclic.evalHom (generator p) (generator_pow p)

theorem split_apply (a : Negacyclic Zq 256) (p : Fin 128) : split a p = Negacyclic.eval (generator p) a := rfl

/-! ## The transforms of reduced elements -/

theorem ntt_reduced (hf : f.Reduced) : (ntt f).Reduced :=
  (residues_foldl layer_reduced residues_layer (List.finRange 7) hf).1

theorem residues_ntt (hf : f.Reduced) :
    residues (ntt f).coeffs = (List.finRange 7).foldl (fun v l => butterfly l v) (residues f.coeffs) :=
  (residues_foldl layer_reduced residues_layer (List.finRange 7) hf).2

theorem nttInverse_reduced (F : Tq) : (nttInverse F).Reduced := Rq.reduced_scale _ _

theorem residues_nttInverse (hF : F.Reduced) :
    residues (nttInverse F).coeffs =
      inverse128.residue • (List.finRange 7).reverse.foldl (fun v l => unbutterfly l v) (residues F.coeffs) := by
  obtain ⟨hred, hmap⟩ := residues_foldl unlayer_reduced residues_unlayer (List.finRange 7).reverse hF
  have hc : inverse128.Reduced := Elem.reduced_ofNat (by decide)
  rw [← hmap]
  exact value_scale (f := ⟨_⟩) hc hred

/-- **The transform splits.** Its residues are those of the polynomial modulo the quadratic factors. -/
theorem pairs_ntt (hf : f.Reduced) : pairs (ntt f) = split (value f) := by
  funext p
  have hvalue := value_transform (value f) p (generator_sq p)
  rw [split_apply, ← hvalue, ← eq_combination]
  exact QuadraticAlgebra.ext (congrFun (residues_ntt hf) _) (congrFun (residues_ntt hf) _)

/-- the scale at the end makes up for the factors of two -/
theorem inverse128_mul : inverse128.residue * 2 ^ (List.finRange 7).length = 1 := by
  have hc : inverse128.residue = (3303 : ℕ) := Elem.residue_ofNat (by decide)
  have h : ((3303 : ℕ) : ZMod 3329) * 2 ^ 7 = 1 := by
    reduce_mod_char
  rw [hc, List.length_finRange]
  exact h

theorem nttInverse_ntt (hf : f.Reduced) : nttInverse (ntt f) = f := by
  refine eq_of_value_eq (nttInverse_reduced _) hf ?_
  have h := residues_nttInverse (ntt_reduced hf)
  rw [residues_ntt hf, unlayers_layers, smul_smul, inverse128_mul, one_smul] at h
  exact h

/-- a constant passes through a run of layers -/
theorem foldl_butterfly_smul (c : Zq) (layers : List (Fin 7)) (v : Fin 256 → Zq) :
    layers.foldl (fun v l => butterfly l v) (c • v) = c • layers.foldl (fun v l => butterfly l v) v := by
  induction layers generalizing v with
  | nil => rfl
  | cons l layers ih => rw [List.foldl_cons, map_smul, ih, List.foldl_cons]

theorem ntt_nttInverse (hF : F.Reduced) : ntt (nttInverse F) = F := by
  have hred := nttInverse_reduced F
  have h := residues_ntt hred
  rw [residues_nttInverse hF, foldl_butterfly_smul, layers_unlayers, smul_smul, inverse128_mul, one_smul] at h
  have hcoeffs : (ntt (nttInverse F)).coeffs = F.coeffs := eq_of_residues_eq (ntt_reduced hred) hF h
  cases F
  exact congrArg NttPoly.mk hcoeffs

theorem split_injective : Function.Injective split := by
  intro a b h
  have hntt : ntt (ofValue a) = ntt (ofValue b) := by
    refine eq_of_pairs_eq (ntt_reduced (ofValue_reduced a)) (ntt_reduced (ofValue_reduced b)) ?_
    rw [pairs_ntt (ofValue_reduced a), pairs_ntt (ofValue_reduced b), value_ofValue, value_ofValue, h]
  have hpoly : ofValue a = ofValue b := by
    rw [← nttInverse_ntt (ofValue_reduced a), hntt, nttInverse_ntt (ofValue_reduced b)]
  rw [← value_ofValue a, hpoly, value_ofValue]

/-! ## Sums and multiples -/

theorem ntt_add {g : Rq} (hf : f.Reduced) (hg : g.Reduced) : ntt (f + g) = ntt f + ntt g := by
  have hsum := Rq.reduced_add hf hg
  refine eq_of_pairs_eq (ntt_reduced hsum) (Tq.reduced_add (ntt_reduced hf) (ntt_reduced hg)) ?_
  rw [pairs_ntt hsum, value_add hf hg, map_add, pairs_add (ntt_reduced hf) (ntt_reduced hg), pairs_ntt hf, pairs_ntt hg]

theorem ntt_scale_get {c : Coeff} (hc : c.Reduced) (hf : f.Reduced) (i : Fin 256) :
    (ntt (Poly.scale c f)).coeffs.get i = c * (ntt f).coeffs.get i := by
  have hscaled := Rq.reduced_scale c f
  have hvalues : residues (Poly.scale c f).coeffs = c.residue • residues f.coeffs := value_scale hc hf
  have h : residues (ntt (Poly.scale c f)).coeffs = c.residue • residues (ntt f).coeffs := by
    rw [residues_ntt hscaled, hvalues, foldl_butterfly_smul, ← residues_ntt hf]
  refine Elem.eq_of_residue_eq (ntt_reduced hscaled i) (Elem.reduced_mul _ _) ?_
  rw [Elem.residue_mul hc (ntt_reduced hf i)]
  exact congrFun h i

/-! ## The way back -/

theorem split_value_nttInverse (hF : F.Reduced) : split (value (nttInverse F)) = pairs F := by
  rw [← pairs_ntt (nttInverse_reduced F), ntt_nttInverse hF]

theorem value_nttInverse_add (hF : F.Reduced) (hG : G.Reduced) :
    value (nttInverse (F + G)) = value (nttInverse F) + value (nttInverse G) := by
  refine split_injective ?_
  rw [map_add, split_value_nttInverse hF, split_value_nttInverse hG, split_value_nttInverse (Tq.reduced_add hF hG),
    pairs_add hF hG]

theorem nttVec_get {k : ℕ} (u : RqVec k) (i : Fin k) : (nttVec u).polys.get i = ntt (u.polys.get i) :=
  get_map ntt u.polys i

theorem nttVec_reduced {k : ℕ} {u : RqVec k} (hu : u.Reduced) : (nttVec u).Reduced := by
  intro i
  rw [nttVec_get]
  exact ntt_reduced (hu i)

theorem nttInverseVec_get {k : ℕ} (v : TqVec k) (i : Fin k) :
    (nttInverseVec v).polys.get i = nttInverse (v.polys.get i) :=
  get_map nttInverse v.polys i

theorem nttInverseVec_reduced {k : ℕ} (v : TqVec k) : (nttInverseVec v).Reduced := by
  intro i
  rw [nttInverseVec_get]
  exact nttInverse_reduced _

theorem nttInverseVec_nttVec {k : ℕ} {u : RqVec k} (hu : u.Reduced) : nttInverseVec (nttVec u) = u := by
  refine PolyVec.ext_get fun i => ?_
  rw [nttInverseVec_get, nttVec_get]
  exact nttInverse_ntt (hu i)

theorem nttVec_nttInverseVec {k : ℕ} {v : TqVec k} (hv : v.Reduced) : nttVec (nttInverseVec v) = v := by
  refine NttVec.ext_get fun i => ?_
  rw [nttVec_get, nttInverseVec_get]
  exact ntt_nttInverse (hv i)

/-- **Dot products come back as sums of products.** -/
theorem value_nttInverse_dot {k : ℕ} {u v : TqVec k} (hu : u.Reduced) (hv : v.Reduced) :
    value (nttInverse (dot u v)) =
      ∑ i, value (nttInverse (u.polys.get i)) * value (nttInverse (v.polys.get i)) := by
  refine split_injective ?_
  rw [split_value_nttInverse (Tq.reduced_dot hu hv), pairs_dot hu hv, map_sum]
  refine Finset.sum_congr rfl fun i _ => ?_
  rw [map_mul, split_value_nttInverse (hu i), split_value_nttInverse (hv i)]

end PostQuantum.MLKEM
