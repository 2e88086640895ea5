/-
R_q and T_q as rings.

`value` reads a polynomial as an element of Z_q[X]/(X^256 + 1), and `pairs` an element of T_q as 128 residues modulo
the factors X^2 - gamma. On reduced operands the operations of the program are those of the two rings, products in
T_q being the products of the residues (`pairs_multiply`, `pairs_dot`). A reduced element is known by its ring element
(`eq_of_value_eq`, `eq_of_pairs_eq`), and every ring element has a reduced representative (`value_ofValue`).
-/
import Mathlib.Tactic
import Mathlib.Algebra.QuadraticAlgebra.Defs
import PostQuantum.Proofs.MLKEM.Layers
import PostQuantum.Proofs.Negacyclic

namespace PostQuantum.MLKEM

open PrimeField

/-! ## Polynomials -/

section Polynomials

variable {f g : Rq}

/-- the ring laws of `Negacyclic Zq 256` need a positive degree -/
instance neZero_degree : NeZero 256 := ⟨by norm_num⟩

/-- the element of Z_q[X]/(X^256 + 1) that a polynomial stands for -/
def value (f : Rq) : Negacyclic Zq 256 := residues f.coeffs

theorem eq_of_value_eq (hf : f.Reduced) (hg : g.Reduced) (h : value f = value g) : f = g := by
  cases f
  cases g
  exact congrArg Poly.mk (eq_of_residues_eq hf hg h)

theorem Rq.reduced_add (hf : f.Reduced) (hg : g.Reduced) : (f + g).Reduced := by
  intro i
  change ((f.coeffs + g.coeffs).get i).Reduced
  rw [get_add]
  exact Elem.reduced_add (hf i) (hg i)

theorem Rq.reduced_sub (hf : f.Reduced) (hg : g.Reduced) : (f - g).Reduced := by
  intro i
  change ((f.coeffs - g.coeffs).get i).Reduced
  rw [get_sub]
  exact Elem.reduced_sub (hf i) (hg i)

theorem value_add (hf : f.Reduced) (hg : g.Reduced) : value (f + g) = value f + value g := by
  funext i
  change ((f.coeffs + g.coeffs).get i).residue = (f.coeffs.get i).residue + (g.coeffs.get i).residue
  rw [get_add, Elem.residue_add (hf i) (hg i)]

theorem value_sub (hf : f.Reduced) (hg : g.Reduced) : value (f - g) = value f - value g := by
  funext i
  change ((f.coeffs - g.coeffs).get i).residue = (f.coeffs.get i).residue - (g.coeffs.get i).residue
  rw [get_sub, Elem.residue_sub (hf i) (hg i)]

theorem Rq.reduced_scale (c : Coeff) (f : Rq) : (Poly.scale c f).Reduced := by
  intro i
  change ((f.coeffs.map (c * ·)).get i).Reduced
  rw [get_map]
  exact Elem.reduced_mul _ _

theorem value_scale {c : Coeff} (hc : c.Reduced) (hf : f.Reduced) :
    value (Poly.scale c f) = c.residue • value f := by
  funext i
  change ((f.coeffs.map (c * ·)).get i).residue = c.residue * (f.coeffs.get i).residue
  rw [get_map, Elem.residue_mul hc (hf i)]

/-- the reduced polynomial of a ring element -/
def ofValue (a : Negacyclic Zq 256) : Rq := ⟨Vector.ofFn fun i => Elem.ofNat z3329 (a i).val⟩

theorem ofValue_reduced (a : Negacyclic Zq 256) : (ofValue a).Reduced := by
  intro i
  rw [ofValue, get_ofFn]
  exact Elem.reduced_ofNat (ZMod.val_lt _)

theorem value_ofValue (a : Negacyclic Zq 256) : value (ofValue a) = a := by
  funext i
  change ((ofValue a).coeffs.get i).residue = a i
  rw [ofValue, get_ofFn, Elem.residue_ofNat (ZMod.val_lt _), ZMod.natCast_zmod_val]

end Polynomials

/-! ## Residues modulo the quadratic factors -/

section Residues

variable {f g : Tq} {p : Fin 128}

/-- Z_q[X]/(X^2 - gamma), for the constant of factor `p` -/
abbrev Factor (p : Fin 128) : Type := QuadraticAlgebra Zq (gammas.get p).residue 0

/-- the residues that an element of T_q stands for -/
def pairs (f : Tq) (p : Fin 128) : Factor p := ⟨(f.constant p).residue, (f.linear p).residue⟩

theorem Tq.reduced_constant (hf : f.Reduced) (p : Fin 128) : (f.constant p).Reduced := hf _

theorem Tq.reduced_linear (hf : f.Reduced) (p : Fin 128) : (f.linear p).Reduced := hf _

/-- an entry is the constant or the linear term for its factor -/
theorem get_eq_term (f : Tq) (i : Fin 256) :
    f.coeffs.get i = if i.val % 2 = 0 then f.constant (factor i) else f.linear (factor i) := by
  split
  · exact congrArg f.coeffs.get (Fin.ext (by simp only [factor]; omega))
  · exact congrArg f.coeffs.get (Fin.ext (by simp only [factor]; omega))

theorem eq_of_pairs_eq (hf : f.Reduced) (hg : g.Reduced) (h : pairs f = pairs g) : f = g := by
  have hterms : ∀ p, f.constant p = g.constant p ∧ f.linear p = g.linear p := fun p => by
    have hp := congrFun h p
    exact ⟨Elem.eq_of_residue_eq (hf _) (hg _) (congrArg QuadraticAlgebra.re hp),
      Elem.eq_of_residue_eq (hf _) (hg _) (congrArg QuadraticAlgebra.im hp)⟩
  refine NttPoly.ext_get fun i => ?_
  have hi := hterms (factor i)
  exact (get_eq_term _ i).trans ((if_congr Iff.rfl hi.1 hi.2).trans (get_eq_term _ i).symm)

theorem Tq.reduced_add (hf : f.Reduced) (hg : g.Reduced) : (f + g).Reduced := by
  intro i
  change ((f.coeffs + g.coeffs).get i).Reduced
  rw [get_add]
  exact Elem.reduced_add (hf i) (hg i)

theorem pairs_add (hf : f.Reduced) (hg : g.Reduced) : pairs (f + g) = pairs f + pairs g := by
  have hterm : ∀ i, ((f + g).coeffs.get i).residue = (f.coeffs.get i).residue + (g.coeffs.get i).residue := by
    intro i
    change ((f.coeffs + g.coeffs).get i).residue = _
    rw [get_add, Elem.residue_add (hf i) (hg i)]
  funext p
  exact QuadraticAlgebra.ext (hterm _) (hterm _)

theorem Tq.reduced_zero : (0 : Tq).Reduced := by
  intro i
  change ((Vector.replicate 256 (0 : Coeff)).get i).Reduced
  rw [get_replicate]
  exact Elem.reduced_zero

theorem pairs_zero : pairs 0 = 0 := by
  have hterm : ∀ i, ((0 : Tq).coeffs.get i).residue = 0 := by
    intro i
    change ((Vector.replicate 256 (0 : Coeff)).get i).residue = 0
    rw [get_replicate]
    exact Elem.residue_zero
  funext p
  exact QuadraticAlgebra.ext (hterm _) (hterm _)

/-! ## Products -/

/-- a sum of two products of reduced elements fits the word that holds products -/
theorem toNat_sum_of_products {a b c d : Coeff} (ha : a.Reduced) (hb : b.Reduced) (hc : c.Reduced) (hd : d.Reduced) :
    (a.long * b.long + c.long * d.long).toNat = a.val * b.val + c.val * d.val := by
  rw [BitVec.toNat_add, Elem.long_mul_toNat ha hb, Elem.long_mul_toNat hc hd]
  have hab : a.val * b.val ≤ 3328 * 3328 := Nat.mul_le_mul (Nat.le_of_lt_succ ha) (Nat.le_of_lt_succ hb)
  have hcd : c.val * d.val ≤ 3328 * 3328 := Nat.mul_le_mul (Nat.le_of_lt_succ hc) (Nat.le_of_lt_succ hd)
  refine Nat.mod_eq_of_lt ?_
  change _ < 2 ^ 32
  omega

theorem reduced_barrettReduce (x : BitVec z3329.longBits) : (⟨z3329.barrettReduce x⟩ : Coeff).Reduced := by
  change (z3329.barrettReduce x).toNat < z3329.q
  rw [Modulus.toNat_barrettReduce]
  exact Nat.mod_lt _ z3329.q_pos

/-- one reduction of a sum of two products -/
theorem residue_sum_of_products {a b c d : Coeff} (ha : a.Reduced) (hb : b.Reduced) (hc : c.Reduced) (hd : d.Reduced) :
    (⟨z3329.barrettReduce (a.long * b.long + c.long * d.long)⟩ : Coeff).residue =
      a.residue * b.residue + c.residue * d.residue := by
  change ((z3329.barrettReduce (a.long * b.long + c.long * d.long)).toNat : Zq) = _
  rw [Modulus.toNat_barrettReduce, ZMod.natCast_mod, toNat_sum_of_products ha hb hc hd, Nat.cast_add, Nat.cast_mul,
    Nat.cast_mul]
  rfl

theorem multiply_get (f g : Tq) (i : Fin 256) :
    (multiply f g).coeffs.get i =
      if i.val % 2 = 0 then
        baseConstant (f.constant (factor i)) (f.linear (factor i)) (g.constant (factor i)) (g.linear (factor i))
          (gammas.get (factor i))
      else baseLinear (f.constant (factor i)) (f.linear (factor i)) (g.constant (factor i)) (g.linear (factor i)) :=
  get_ofFn _ i

/-- products are reduced, whatever the operands -/
theorem Tq.reduced_multiply (f g : Tq) : (multiply f g).Reduced := by
  intro i
  rw [multiply_get]
  split
  · exact reduced_barrettReduce _
  · exact reduced_barrettReduce _

theorem constant_multiply (f g : Tq) (p : Fin 128) :
    (multiply f g).constant p =
      baseConstant (f.constant p) (f.linear p) (g.constant p) (g.linear p) (gammas.get p) := by
  have hp : factor ⟨2 * p.val, constant_lt p⟩ = p := Fin.ext (by simp only [factor]; omega)
  rw [Tq.constant, multiply_get, if_pos (by simp), hp]

theorem linear_multiply (f g : Tq) (p : Fin 128) :
    (multiply f g).linear p = baseLinear (f.constant p) (f.linear p) (g.constant p) (g.linear p) := by
  have hp : factor ⟨2 * p.val + 1, linear_lt p⟩ = p := Fin.ext (by simp only [factor]; omega)
  rw [Tq.linear, multiply_get, if_neg (by simp only; omega), hp]

/-- **Products in T_q.** They are the products of the residues, factor by factor. -/
theorem pairs_multiply (hf : f.Reduced) (hg : g.Reduced) : pairs (multiply f g) = pairs f * pairs g := by
  funext p
  have hf0 := Tq.reduced_constant hf p
  have hf1 := Tq.reduced_linear hf p
  have hg0 := Tq.reduced_constant hg p
  have hg1 := Tq.reduced_linear hg p
  have hgamma : (g.linear p * gammas.get p).residue = (g.linear p).residue * (gammas.get p).residue :=
    Elem.residue_mul hg1 (gammas_get_reduced p)
  refine QuadraticAlgebra.ext ?_ ?_
  · change ((multiply f g).constant p).residue = _
    rw [constant_multiply, baseConstant, residue_sum_of_products hf0 hg0 hf1 (Elem.reduced_mul _ _), hgamma,
      Pi.mul_apply, QuadraticAlgebra.re_mul]
    simp only [pairs]
    ring
  · change ((multiply f g).linear p).residue = _
    rw [linear_multiply, baseLinear, residue_sum_of_products hf0 hg1 hf1 hg0, Pi.mul_apply,
      QuadraticAlgebra.im_mul]
    simp only [pairs]
    ring

/-- what a run over the entries of two vectors has summed up -/
theorem dot_run {k : ℕ} {u v : TqVec k} (hu : u.Reduced) (hv : v.Reduced) (entries : List (Fin k)) {acc : Tq}
    (hacc : acc.Reduced) :
    let result := entries.foldl (fun acc i => acc + multiply (u.polys.get i) (v.polys.get i)) acc
    result.Reduced ∧
      pairs result = pairs acc + (entries.map fun i => pairs (u.polys.get i) * pairs (v.polys.get i)).sum := by
  induction entries generalizing acc with
  | nil => exact ⟨hacc, (add_zero _).symm⟩
  | cons i entries ih =>
    have hproduct := Tq.reduced_multiply (u.polys.get i) (v.polys.get i)
    obtain ⟨h1, h2⟩ := ih (Tq.reduced_add hacc hproduct)
    refine ⟨h1, h2.trans ?_⟩
    rw [pairs_add hacc hproduct, pairs_multiply (hu i) (hv i), List.map_cons, List.sum_cons, add_assoc]

theorem Tq.reduced_dot {k : ℕ} {u v : TqVec k} (hu : u.Reduced) (hv : v.Reduced) : (dot u v).Reduced :=
  (dot_run hu hv _ Tq.reduced_zero).1

/-- **Dot products.** They are the sums of the products of the residues. -/
theorem pairs_dot {k : ℕ} {u v : TqVec k} (hu : u.Reduced) (hv : v.Reduced) :
    pairs (dot u v) = ∑ i, pairs (u.polys.get i) * pairs (v.polys.get i) := by
  rw [dot, (dot_run hu hv _ Tq.reduced_zero).2, pairs_zero, zero_add, Fin.sum_univ_def]

end Residues

end PostQuantum.MLKEM
