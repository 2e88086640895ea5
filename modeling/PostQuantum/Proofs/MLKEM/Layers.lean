/-
The layers of the transform as linear maps over Z/q.

`residues` reads a vector of coefficients as a function into Z/q. On reduced coefficients a layer acts there as the
linear map `butterfly l`, and an undone layer as `unbutterfly l` (`residues_layer`, `residues_unlayer`). The two maps
are inverse to each other up to a factor of two (`unbutterfly_butterfly`, `butterfly_unbutterfly`), and so seven layers
one way and seven the other way multiply by 2^7 (`unlayers_layers`, `layers_unlayers`).
-/
import Mathlib.Tactic
import Mathlib.Algebra.Module.LinearMap.Basic
import PostQuantum.Proofs.MLKEM.Roots

namespace PostQuantum.MLKEM

open PrimeField

/-- every coefficient is reduced -/
def AllReduced (f : Vector Coeff 256) : Prop := ∀ i, (f.get i).Reduced

/-- the coefficients in Z/q -/
def residues (f : Vector Coeff 256) : Fin 256 → Zq := fun i => (f.get i).residue

theorem eq_of_residues_eq {f g : Vector Coeff 256} (hf : AllReduced f) (hg : AllReduced g)
    (h : residues f = residues g) : f = g :=
  ext_get fun i => Elem.eq_of_residue_eq (hf i) (hg i) (congrFun h i)

/-! ## Partners -/

theorem div_mod_add_half {h i : ℕ} (hi : i % (2 * h) < h) :
    (i + h) / (2 * h) = i / (2 * h) ∧ (i + h) % (2 * h) = i % (2 * h) + h := by
  have hsplit := Nat.div_add_mod i (2 * h)
  exact (Nat.div_mod_unique (by omega)).2 ⟨by omega, by omega⟩

theorem div_mod_sub_half {h i : ℕ} (hpos : 0 < h) (hi : h ≤ i % (2 * h)) :
    (i - h) / (2 * h) = i / (2 * h) ∧ (i - h) % (2 * h) = i % (2 * h) - h := by
  have hsplit := Nat.div_add_mod i (2 * h)
  have hm : i % (2 * h) < 2 * h := Nat.mod_lt _ (by omega)
  exact (Nat.div_mod_unique (by omega)).2 ⟨by omega, by omega⟩

theorem partner_of_lower {l : Fin 7} {i : Fin 256} (h : InLower l i.val) : (partner l i).val = i.val + half l :=
  if_pos h

theorem partner_of_upper {l : Fin 7} {i : Fin 256} (h : ¬InLower l i.val) : (partner l i).val = i.val - half l :=
  if_neg h

/-- a partner lies in the other half of the same block -/
theorem inLower_partner (l : Fin 7) (i : Fin 256) : InLower l (partner l i).val ↔ ¬InLower l i.val := by
  have hpos := half_pos l
  by_cases h : InLower l i.val
  · have hm := (div_mod_add_half h).2
    simp only [h, not_true_eq_false, iff_false, partner_of_lower h]
    unfold InLower
    omega
  · have hm := (div_mod_sub_half hpos (not_lt.1 h)).2
    have hlt : i.val % (2 * half l) < 2 * half l := Nat.mod_lt _ (by omega)
    simp only [h, not_false_eq_true, iff_true, partner_of_upper h]
    unfold InLower at *
    omega

theorem blockOf_partner (l : Fin 7) (i : Fin 256) : blockOf l (partner l i).val = blockOf l i.val := by
  by_cases h : InLower l i.val
  · rw [partner_of_lower h]
    exact (div_mod_add_half h).1
  · rw [partner_of_upper h]
    exact (div_mod_sub_half (half_pos l) (not_lt.1 h)).1

theorem partner_partner (l : Fin 7) (i : Fin 256) : partner l (partner l i) = i := by
  have hp := inLower_partner l i
  refine Fin.ext ?_
  by_cases h : InLower l i.val
  · rw [partner_of_upper (by tauto), partner_of_lower h, Nat.add_sub_cancel]
  · rw [partner_of_lower (hp.2 h), partner_of_upper h]
    have hle : half l ≤ i.val := (not_lt.1 h).trans (Nat.mod_le _ _)
    omega

theorem root_partner (l : Fin 7) (i : Fin 256) : root l (partner l i) = root l i := by
  simp only [root, blockOf_partner]

/-! ## One layer -/

/-- a layer over Z/q -/
def butterfly (l : Fin 7) : (Fin 256 → Zq) →ₗ[Zq] Fin 256 → Zq where
  toFun v i :=
    if InLower l i.val then v i + (root l i).residue * v (partner l i)
    else v (partner l i) - (root l i).residue * v i
  map_add' v w := by
    funext i
    simp only [Pi.add_apply]
    split <;> ring
  map_smul' c v := by
    funext i
    simp only [Pi.smul_apply, smul_eq_mul, RingHom.id_apply]
    split <;> ring

/-- an undone layer over Z/q -/
def unbutterfly (l : Fin 7) : (Fin 256 → Zq) →ₗ[Zq] Fin 256 → Zq where
  toFun v i :=
    if InLower l i.val then v i + v (partner l i)
    else (opposite l i).residue * (v i - v (partner l i))
  map_add' v w := by
    funext i
    simp only [Pi.add_apply]
    split <;> ring
  map_smul' c v := by
    funext i
    simp only [Pi.smul_apply, smul_eq_mul, RingHom.id_apply]
    split <;> ring

theorem butterfly_lower {l : Fin 7} {i : Fin 256} (h : InLower l i.val) (v : Fin 256 → Zq) :
    butterfly l v i = v i + (root l i).residue * v (partner l i) :=
  if_pos h

theorem butterfly_upper {l : Fin 7} {i : Fin 256} (h : ¬InLower l i.val) (v : Fin 256 → Zq) :
    butterfly l v i = v (partner l i) - (root l i).residue * v i :=
  if_neg h

theorem unbutterfly_lower {l : Fin 7} {i : Fin 256} (h : InLower l i.val) (v : Fin 256 → Zq) :
    unbutterfly l v i = v i + v (partner l i) :=
  if_pos h

theorem unbutterfly_upper {l : Fin 7} {i : Fin 256} (h : ¬InLower l i.val) (v : Fin 256 → Zq) :
    unbutterfly l v i = (opposite l i).residue * (v i - v (partner l i)) :=
  if_neg h

/-- undoing a layer leaves a factor of two -/
theorem unbutterfly_butterfly (l : Fin 7) (v : Fin 256 → Zq) : unbutterfly l (butterfly l v) = (2 : Zq) • v := by
  funext i
  have hp := inLower_partner l i
  rw [Pi.smul_apply, smul_eq_mul]
  by_cases h : InLower l i.val
  · rw [unbutterfly_lower h, butterfly_lower h, butterfly_upper (by tauto), partner_partner, root_partner]
    ring
  · rw [unbutterfly_upper h, butterfly_upper h, butterfly_lower (hp.2 h), partner_partner, root_partner]
    linear_combination (-2 * v i) * residue_opposite_mul_root l i

/-- a layer after an undone one leaves a factor of two -/
theorem butterfly_unbutterfly (l : Fin 7) (v : Fin 256 → Zq) : butterfly l (unbutterfly l v) = (2 : Zq) • v := by
  funext i
  have hp := inLower_partner l i
  rw [Pi.smul_apply, smul_eq_mul]
  by_cases h : InLower l i.val
  · rw [butterfly_lower h, unbutterfly_lower h, unbutterfly_upper (by tauto), partner_partner]
    have hroot := residue_opposite_mul_root l (partner l i)
    rw [root_partner] at hroot
    linear_combination (v (partner l i) - v i) * hroot
  · rw [butterfly_upper h, unbutterfly_upper h, unbutterfly_lower (hp.2 h), partner_partner]
    linear_combination (v (partner l i) - v i) * residue_opposite_mul_root l i

/-! ## Layers of reduced coefficients -/

theorem twist_get (l : Fin 7) (f : Vector Coeff 256) (i : Fin 256) :
    (twist l f).get i = if InLower l i.val then f.get i else root l i * f.get i :=
  get_ofFn _ i

theorem twist_reduced {f : Vector Coeff 256} (hf : AllReduced f) (l : Fin 7) : AllReduced (twist l f) := by
  intro i
  rw [twist_get]
  split
  · exact hf i
  · exact Elem.reduced_mul _ _

theorem residue_twist {f : Vector Coeff 256} (hf : AllReduced f) (l : Fin 7) (i : Fin 256) :
    ((twist l f).get i).residue =
      if InLower l i.val then (f.get i).residue else (root l i).residue * (f.get i).residue := by
  rw [twist_get]
  split
  · rfl
  · exact Elem.residue_mul (root_reduced l i) (hf i)

theorem layer_get (l : Fin 7) (f : Vector Coeff 256) (i : Fin 256) :
    (layer l f).get i =
      if InLower l i.val then (twist l f).get i + (twist l f).get (partner l i)
      else (twist l f).get (partner l i) - (twist l f).get i :=
  get_ofFn _ i

theorem unlayer_get (l : Fin 7) (f : Vector Coeff 256) (i : Fin 256) :
    (unlayer l f).get i =
      if InLower l i.val then f.get i + f.get (partner l i) else opposite l i * (f.get i - f.get (partner l i)) :=
  get_ofFn _ i

theorem layer_reduced {f : Vector Coeff 256} (hf : AllReduced f) (l : Fin 7) : AllReduced (layer l f) := by
  intro i
  have ht := twist_reduced hf l
  rw [layer_get]
  split
  · exact Elem.reduced_add (ht i) (ht _)
  · exact Elem.reduced_sub (ht _) (ht i)

theorem unlayer_reduced {f : Vector Coeff 256} (hf : AllReduced f) (l : Fin 7) : AllReduced (unlayer l f) := by
  intro i
  rw [unlayer_get]
  split
  · exact Elem.reduced_add (hf i) (hf _)
  · exact Elem.reduced_mul _ _

/-- a layer of reduced coefficients is the linear map -/
theorem residues_layer {f : Vector Coeff 256} (hf : AllReduced f) (l : Fin 7) :
    residues (layer l f) = butterfly l (residues f) := by
  funext i
  have ht := twist_reduced hf l
  have hp := inLower_partner l i
  unfold residues
  rw [layer_get]
  by_cases h : InLower l i.val
  · rw [if_pos h, Elem.residue_add (ht i) (ht _), residue_twist hf, residue_twist hf, if_pos h, if_neg (by tauto),
      butterfly_lower h, root_partner]
  · rw [if_neg h, Elem.residue_sub (ht _) (ht i), residue_twist hf, residue_twist hf, if_neg h, if_pos (hp.2 h),
      butterfly_upper h]

theorem residues_unlayer {f : Vector Coeff 256} (hf : AllReduced f) (l : Fin 7) :
    residues (unlayer l f) = unbutterfly l (residues f) := by
  funext i
  unfold residues
  rw [unlayer_get]
  by_cases h : InLower l i.val
  · rw [if_pos h, Elem.residue_add (hf i) (hf _), unbutterfly_lower h]
  · rw [if_neg h, Elem.residue_mul (opposite_reduced l i) (Elem.reduced_sub (hf i) (hf _)),
      Elem.residue_sub (hf i) (hf _), unbutterfly_upper h]

/-! ## Runs of layers -/

/-- what a run of layers does to reduced coefficients, for layers of either kind -/
theorem residues_foldl {step : Fin 7 → Vector Coeff 256 → Vector Coeff 256}
    {map : Fin 7 → (Fin 256 → Zq) →ₗ[Zq] Fin 256 → Zq}
    (hred : ∀ {f : Vector Coeff 256}, AllReduced f → ∀ l, AllReduced (step l f))
    (hmap : ∀ {f : Vector Coeff 256}, AllReduced f → ∀ l, residues (step l f) = map l (residues f))
    (layers : List (Fin 7)) {f : Vector Coeff 256} (hf : AllReduced f) :
    AllReduced (layers.foldl (fun v l => step l v) f) ∧
      residues (layers.foldl (fun v l => step l v) f) = layers.foldl (fun v l => map l v) (residues f) := by
  induction layers generalizing f with
  | nil => exact ⟨hf, rfl⟩
  | cons l layers ih =>
    obtain ⟨h1, h2⟩ := ih (hred hf l)
    refine ⟨h1, h2.trans ?_⟩
    rw [hmap hf l, List.foldl_cons]

/-- layers one way and then the other way, where each pair leaves a factor of two -/
theorem foldl_reverse_foldl {there back : Fin 7 → (Fin 256 → Zq) →ₗ[Zq] Fin 256 → Zq}
    (h : ∀ l v, back l (there l v) = (2 : Zq) • v) (layers : List (Fin 7)) (v : Fin 256 → Zq) :
    layers.reverse.foldl (fun v l => back l v) (layers.foldl (fun v l => there l v) v) =
      (2 : Zq) ^ layers.length • v := by
  induction layers generalizing v with
  | nil => simp
  | cons l layers ih =>
    rw [List.foldl_cons, List.reverse_cons, List.foldl_append, ih, List.foldl_cons, List.foldl_nil, map_smul, h,
      smul_smul, List.length_cons, pow_succ]

theorem unlayers_layers (layers : List (Fin 7)) (v : Fin 256 → Zq) :
    layers.reverse.foldl (fun v l => unbutterfly l v) (layers.foldl (fun v l => butterfly l v) v) =
      (2 : Zq) ^ layers.length • v :=
  foldl_reverse_foldl unbutterfly_butterfly layers v

theorem layers_unlayers (layers : List (Fin 7)) (v : Fin 256 → Zq) :
    layers.foldl (fun v l => butterfly l v) (layers.reverse.foldl (fun v l => unbutterfly l v) v) =
      (2 : Zq) ^ layers.length • v := by
  have h := foldl_reverse_foldl butterfly_unbutterfly layers.reverse v
  rwa [List.reverse_reverse, List.length_reverse] at h

end PostQuantum.MLKEM
