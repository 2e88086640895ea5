/-
The transforms as loops over one vector.

A pass of a loop goes through the blocks of length 2 len, takes the next root of the table for each block, and replaces
the coefficients at j and j + len by a butterfly of the two, in place. A counter runs through the table across all
passes, upwards in the transform and downwards in its inverse.
- `Replaced`: after any number of pairs, those are replaced and all others are as they were.
- `updateLayer_forward`, `updateLayer_backward`: so a pass is a layer, and it leaves the counter at the next layer.
- `transformLoop_eq`, `inverseLoop_eq`: seven passes are the seven layers.
- `ntt_eq_loop`, `nttInverse_eq_loop`: so the transform and its inverse are these loops.
-/
import Mathlib.Tactic
import PostQuantum.Proofs.MLKEM.Evaluation

namespace PostQuantum.MLKEM

open PrimeField

/-! ## The loops -/

/-- the butterfly of the transform -/
def forward (zeta lower upper : Coeff) : Coeff × Coeff :=
  let t := zeta * upper
  (lower + t, lower - t)

/-- the butterfly of the inverse -/
def backward (zeta lower upper : Coeff) : Coeff × Coeff := (lower + upper, zeta * (upper - lower))

/-- replace the coefficients at `j` and `j + len` -/
def updatePair (op : Coeff → Coeff → Coeff × Coeff) (len : ℕ) (f : Vector Coeff 256) (j : ℕ) : Vector Coeff 256 :=
  let (lower, upper) := op (f.getD j 0) (f.getD (j + len) 0)
  (f.setIfInBounds (j + len) upper).setIfInBounds j lower

/-- replace all pairs of the block that begins at `start` -/
def updateBlock (op : Coeff → Coeff → Coeff × Coeff) (len : ℕ) (f : Vector Coeff 256) (start : ℕ) : Vector Coeff 256 :=
  (List.range' start len).foldl (updatePair op len) f

/-- replace all pairs of all blocks, with the root at the counter for each block -/
def updateLayer (op : Coeff → Coeff → Coeff → Coeff × Coeff) (next : ℕ → ℕ) (s : Vector Coeff 256 × ℕ) (len : ℕ) :
    Vector Coeff 256 × ℕ :=
  (List.range' 0 (128 / len) (2 * len)).foldl
    (fun s start => (updateBlock (op (zetas.getD s.2 0)) len s.1 start, next s.2)) s

/-- the transform in place -/
def transformLoop (f : Vector Coeff 256) : Vector Coeff 256 :=
  ([128, 64, 32, 16, 8, 4, 2].foldl (updateLayer forward (· + 1)) (f, 1)).1

/-- the inverse in place, without the scale at the end -/
def inverseLoop (f : Vector Coeff 256) : Vector Coeff 256 :=
  ([2, 4, 8, 16, 32, 64, 128].foldl (updateLayer backward (· - 1)) (f, 127)).1

/-! ## One pair -/

section Pairs

variable {op : Coeff → Coeff → Coeff × Coeff} {l : Fin 7} {f g : Vector Coeff 256} {b m r t : ℕ}

/-- the pair at place `r` of block `b` -/
def pairAt (l : Fin 7) (f : Vector Coeff 256) (b r : ℕ) : Coeff × Coeff :=
  (f.getD (2 * half l * b + r) 0, f.getD (2 * half l * b + (half l + r)) 0)

theorem getD_of_lt {n k : ℕ} (f : Vector Coeff n) (hk : k < n) : f.getD k 0 = f.get ⟨k, hk⟩ := by
  simp [Vector.getD, Array.getD, hk, Vector.get]

theorem getD_updatePair {len j n : ℕ} (hn : n < 256) :
    (updatePair op len f j).getD n 0 =
      if n = j then (op (f.getD j 0) (f.getD (j + len) 0)).1
      else if n = j + len then (op (f.getD j 0) (f.getD (j + len) 0)).2
      else f.getD n 0 := by
  have hset : ∀ (v : Vector Coeff 256) (k : ℕ) (a : Coeff), (v.setIfInBounds k a).getD n 0 =
      if n = k then a else v.getD n 0 := fun v k a => by
    rw [getD_of_lt _ hn, getD_of_lt v hn]
    refine (Vector.getElem_setIfInBounds hn).trans ?_
    simp only [eq_comm]
    rfl
  unfold updatePair
  simp only
  rw [hset, hset]

theorem place_inj (hr : r < 2 * half l) (ht : t < 2 * half l) :
    2 * half l * b + r = 2 * half l * m + t ↔ b = m ∧ r = t := by
  constructor
  · intro h
    obtain ⟨hdiv, hmod⟩ := div_mod_place (b := b) hr
    obtain ⟨hdiv', hmod'⟩ := div_mod_place (b := m) ht
    rw [h] at hdiv hmod
    exact ⟨hdiv.symm.trans hdiv', hmod.symm.trans hmod'⟩
  · rintro ⟨rfl, rfl⟩
    rfl

/-- replacing one pair leaves all others as they were -/
theorem pairAt_updatePair (hb : b < 2 ^ l.val) (hm : m < 2 ^ l.val) (hr : r < half l) (ht : t < half l) :
    pairAt l (updatePair op (half l) f (2 * half l * m + t)) b r =
      if b = m ∧ r = t then op (pairAt l f m t).1 (pairAt l f m t).2 else pairAt l f b r := by
  have hupper : 2 * half l * m + t + half l = 2 * half l * m + (half l + t) := by omega
  have hpos := half_pos l
  have h1 := place_inj (l := l) (b := b) (m := m) (r := r) (t := t) (by omega) (by omega)
  have h2 := place_inj (l := l) (b := b) (m := m) (r := r) (t := half l + t) (by omega) (by omega)
  have h3 := place_inj (l := l) (b := b) (m := m) (r := half l + r) (t := t) (by omega) (by omega)
  have h4 := place_inj (l := l) (b := b) (m := m) (r := half l + r) (t := half l + t) (by omega) (by omega)
  unfold pairAt
  rw [getD_updatePair (place_lt_of_lt hb (by omega)), getD_updatePair (place_lt_of_lt hb (by omega)),
    hupper]
  simp only [h1, h2, h3, h4]
  by_cases h : b = m ∧ r = t
  · obtain ⟨rfl, rfl⟩ := h
    simp [hpos.ne']
  · have h5 : ¬(b = m ∧ r = half l + t) := by omega
    have h6 : ¬(b = m ∧ half l + r = t) := by omega
    have h7 : ¬(b = m ∧ half l + r = half l + t) := by omega
    simp only [h, h5, h6, h7, if_false]

end Pairs

/-! ## Blocks and layers -/

section Layers

variable {op : ℕ → Coeff → Coeff → Coeff × Coeff} {l : Fin 7} {f g : Vector Coeff 256} {m t : ℕ}

/-- the pairs of the blocks below `m` and the first `t` pairs of block `m` are replaced, and all others are as before -/
def Replaced (op : ℕ → Coeff → Coeff → Coeff × Coeff) (l : Fin 7) (f : Vector Coeff 256) (m t : ℕ)
    (g : Vector Coeff 256) : Prop :=
  ∀ b < 2 ^ l.val, ∀ r < half l,
    pairAt l g b r =
      if b < m ∨ b = m ∧ r < t then op b (pairAt l f b r).1 (pairAt l f b r).2 else pairAt l f b r

theorem replaced_zero (op : ℕ → Coeff → Coeff → Coeff × Coeff) (l : Fin 7) (f : Vector Coeff 256) :
    Replaced op l f 0 0 f := by
  intro b _ r _
  rw [if_neg (by omega)]

/-- one more pair -/
theorem Replaced.updatePair (h : Replaced op l f m t g) (hm : m < 2 ^ l.val) (ht : t < half l) :
    Replaced op l f m (t + 1) (updatePair (op m) (half l) g (2 * half l * m + t)) := by
  intro b hb r hr
  have hnext : pairAt l g m t = pairAt l f m t := by
    rw [h m hm t ht, if_neg (by omega)]
  rw [pairAt_updatePair hb hm hr ht, hnext, h b hb r hr]
  by_cases hthis : b = m ∧ r = t
  · obtain ⟨rfl, rfl⟩ := hthis
    rw [if_pos ⟨rfl, rfl⟩, if_pos (by omega)]
  · rw [if_neg hthis]
    exact if_congr (by omega) rfl rfl

/-- all pairs of a block -/
theorem Replaced.updateBlock (h : Replaced op l f m 0 g) (hm : m < 2 ^ l.val) :
    Replaced op l f (m + 1) 0 (updateBlock (op m) (half l) g (2 * half l * m)) := by
  have hpairs : ∀ t ≤ half l,
      Replaced op l f m t ((List.range' (2 * half l * m) t).foldl (MLKEM.updatePair (op m) (half l)) g) := by
    intro t
    induction t with
    | zero => exact fun _ => h
    | succ t ih =>
      intro ht
      rw [List.range'_1_concat, List.foldl_append]
      exact (ih (by omega)).updatePair hm (by omega)
  intro b hb r hr
  rw [MLKEM.updateBlock, hpairs (half l) le_rfl b hb r hr]
  exact if_congr (by omega) rfl rfl

/-- two vectors with equal pairs are equal -/
theorem eq_of_pairAt_eq (h : ∀ b < 2 ^ l.val, ∀ r < half l, pairAt l f b r = pairAt l g b r) : f = g := by
  refine ext_get fun i => ?_
  have hb : blockOf l i.val < 2 ^ l.val := by
    have hb := blockOf_lt l i.isLt
    rwa [blocks_eq] at hb
  have hi := Nat.div_add_mod i.val (2 * half l)
  have hr : i.val % (2 * half l) < 2 * half l := Nat.mod_lt _ (by have := half_pos l; omega)
  rcases lt_or_ge (i.val % (2 * half l)) (half l) with hlower | hupper
  · have hpair := congrArg Prod.fst (h _ hb _ hlower)
    simp only [pairAt, blockOf, hi, getD_of_lt _ i.isLt] at hpair
    exact hpair
  · have hpair := congrArg Prod.snd (h _ hb (i.val % (2 * half l) - half l) (by omega))
    have hplace : 2 * half l * blockOf l i.val + (half l + (i.val % (2 * half l) - half l)) = i.val := by
      unfold blockOf
      omega
    simp only [pairAt, hplace, getD_of_lt _ i.isLt] at hpair
    exact hpair

theorem count_eq (l : Fin 7) : 128 / half l = 2 ^ l.val := by
  revert l
  decide

/-- a pass, with the counter as a function of the block -/
theorem updateLayer_run (op : Coeff → Coeff → Coeff → Coeff × Coeff) (next counter : ℕ → ℕ)
    (hnext : ∀ b, next (counter b) = counter (b + 1)) (l : Fin 7) (f : Vector Coeff 256) :
    ∃ g, updateLayer op next (f, counter 0) (half l) = (g, counter (2 ^ l.val)) ∧
      Replaced (fun b => op (zetas.getD (counter b) 0)) l f (2 ^ l.val) 0 g := by
  have hblocks : ∀ m ≤ 2 ^ l.val, ∃ g,
      (List.range' 0 m (2 * half l)).foldl
        (fun s start => (MLKEM.updateBlock (op (zetas.getD s.2 0)) (half l) s.1 start, next s.2)) (f, counter 0) =
          (g, counter m) ∧
      Replaced (fun b => op (zetas.getD (counter b) 0)) l f m 0 g := by
    intro m
    induction m with
    | zero => exact fun _ => ⟨f, rfl, replaced_zero _ l f⟩
    | succ m ih =>
      intro hm
      obtain ⟨g, hg, hreplaced⟩ := ih (by omega)
      refine ⟨_, ?_, hreplaced.updateBlock (by omega)⟩
      rw [List.range'_concat, List.foldl_append, hg, Nat.zero_add, List.foldl_cons, List.foldl_nil, hnext]
  rw [updateLayer, count_eq]
  exact hblocks _ le_rfl

/-- the pairs of a layer -/
theorem pairAt_layer (f : Vector Coeff 256) {b r : ℕ} (hb : b < 2 ^ l.val) (hr : r < half l) :
    pairAt l (layer l f) b r = forward (zetas.getD (2 ^ l.val + b) 0) (pairAt l f b r).1 (pairAt l f b r).2 := by
  have hi := place_lt_of_lt hb (r := r) (by omega)
  have hi' := place_lt_of_lt hb (r := half l + r) (by omega)
  have hroot : ∀ i : Fin 256, blockOf l i.val = b → root l i = zetas.getD (2 ^ l.val + b) 0 := fun i h => by
    have hlt := root_lt l i
    rw [blocks_eq, h] at hlt
    rw [getD_of_lt _ hlt]
    simp only [root, h, blocks_eq]
  unfold pairAt forward
  rw [getD_of_lt _ hi, getD_of_lt _ hi', getD_of_lt _ hi, getD_of_lt _ hi', layer_get, layer_get,
    if_pos (inLower_place hr), if_neg (not_inLower_place hr), partner_lowerPlace hb hr, partner_upperPlace hb hr,
    twist_get, twist_get, if_pos (inLower_place hr), if_neg (not_inLower_place hr), hroot _ (blockOf_place (by omega))]

/-- the pairs of an undone layer -/
theorem pairAt_unlayer (f : Vector Coeff 256) {b r : ℕ} (hb : b < 2 ^ l.val) (hr : r < half l) :
    pairAt l (unlayer l f) b r =
      backward (zetas.getD (2 * 2 ^ l.val - 1 - b) 0) (pairAt l f b r).1 (pairAt l f b r).2 := by
  have hi := place_lt_of_lt hb (r := r) (by omega)
  have hi' := place_lt_of_lt hb (r := half l + r) (by omega)
  have hroot : ∀ i : Fin 256, blockOf l i.val = b → opposite l i = zetas.getD (2 * 2 ^ l.val - 1 - b) 0 := fun i h => by
    have hlt := opposite_lt l i
    rw [blocks_eq, h] at hlt
    rw [getD_of_lt _ hlt]
    simp only [opposite, h, blocks_eq]
  unfold pairAt backward
  rw [getD_of_lt _ hi, getD_of_lt _ hi', getD_of_lt _ hi, getD_of_lt _ hi', unlayer_get, unlayer_get,
    if_pos (inLower_place hr), if_neg (not_inLower_place hr), partner_lowerPlace hb hr, partner_upperPlace hb hr,
    hroot _ (blockOf_place (by omega))]

/-- a pass of the transform is a layer -/
theorem updateLayer_forward (l : Fin 7) (f : Vector Coeff 256) :
    updateLayer forward (· + 1) (f, 2 ^ l.val) (half l) = (layer l f, 2 ^ (l.val + 1)) := by
  obtain ⟨g, hg, hreplaced⟩ := updateLayer_run forward (· + 1) (2 ^ l.val + ·) (fun b => Nat.add_assoc _ b 1) l f
  have hlayer : g = layer l f := eq_of_pairAt_eq fun b hb r hr => by
    rw [hreplaced b hb r hr, if_pos (.inl hb), pairAt_layer f hb hr]
  rw [← hlayer, pow_succ, Nat.mul_two]
  exact hg

/-- a pass of the inverse undoes a layer -/
theorem updateLayer_backward (l : Fin 7) (f : Vector Coeff 256) :
    updateLayer backward (· - 1) (f, 2 ^ (l.val + 1) - 1) (half l) = (unlayer l f, 2 ^ l.val - 1) := by
  obtain ⟨g, hg, hreplaced⟩ := updateLayer_run backward (· - 1) (2 * 2 ^ l.val - 1 - ·) (fun b => Nat.sub_sub _ b 1) l f
  have hlayer : g = unlayer l f := eq_of_pairAt_eq fun b hb r hr => by
    rw [hreplaced b hb r hr, if_pos (.inl hb), pairAt_unlayer f hb hr]
  have hcounter : 2 * 2 ^ l.val - 1 - 2 ^ l.val = 2 ^ l.val - 1 := by omega
  rw [← hlayer, pow_succ', ← hcounter]
  exact hg

end Layers

/-! ## All passes -/

/-- **The loop of the transform** computes the seven layers. -/
theorem transformLoop_eq (f : Vector Coeff 256) :
    transformLoop f = (List.finRange 7).foldl (fun v l => layer l v) f := by
  have hlengths : [128, 64, 32, 16, 8, 4, 2] = (List.finRange 7).map half := by decide
  unfold transformLoop
  rw [hlengths, List.foldl_map]
  have hpasses := foldl_finRange_relation (f := fun l s => updateLayer forward (· + 1) s (half l))
    (g := fun l v => layer l v) (R := fun n s v => s = (v, 2 ^ n)) (s := (f, 1)) (t := f) rfl fun l s v h => by
      rw [h]
      exact updateLayer_forward l v
  rw [hpasses]

/-- **The loop of the inverse** undoes the layers, the last one first. -/
theorem inverseLoop_eq (f : Vector Coeff 256) :
    inverseLoop f = (List.finRange 7).reverse.foldl (fun v l => unlayer l v) f := by
  have hlengths : [2, 4, 8, 16, 32, 64, 128] = (List.finRange 7).map fun l => half l.rev := by decide
  unfold inverseLoop
  rw [hlengths, List.finRange_reverse, List.foldl_map, List.foldl_map]
  have hpasses := foldl_finRange_relation (f := fun l s => updateLayer backward (· - 1) s (half l.rev))
    (g := fun l v => unlayer l.rev v) (R := fun n s v => s = (v, 2 ^ (7 - n) - 1)) (s := (f, 127)) (t := f) rfl
    fun l s v h => by
      have hrev : l.rev.val = 7 - (l.val + 1) := Fin.val_rev l
      have hprevious : 7 - l.val = l.rev.val + 1 := by omega
      rw [h, hprevious, ← hrev]
      exact updateLayer_backward l.rev v
  rw [hpasses]

/-- the transform runs as the loop does -/
theorem ntt_eq_loop (f : Rq) : ntt f = ⟨transformLoop f.coeffs⟩ :=
  congrArg NttPoly.mk (transformLoop_eq f.coeffs).symm

/-- the inverse runs as the loop does, with the scale at the end -/
theorem nttInverse_eq_loop (F : Tq) : nttInverse F = Poly.scale inverse128 ⟨inverseLoop F.coeffs⟩ :=
  congrArg (fun v => Poly.scale inverse128 ⟨v⟩) (inverseLoop_eq F.coeffs).symm

end PostQuantum.MLKEM
