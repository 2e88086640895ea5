/-
The transform evaluates.

After l layers, block b holds the polynomial modulo X^(256 / 2^l) - `blockConstant l b`. This is said by values
(`HoldsBlocks`): at any point of any algebra over Z/q whose power of that degree is the constant, the block has the
value of the whole polynomial. One layer keeps it with the blocks cut in halves (`HoldsBlocks.butterfly`), since the
value of a block is the value of its lower half plus the power times the value of its upper half. After all seven
layers the blocks are pairs (`value_transform`), each a residue modulo X^2 - gamma.
-/
import Mathlib.Tactic
import PostQuantum.Proofs.MLKEM.Layers
import PostQuantum.Proofs.Negacyclic

namespace PostQuantum.MLKEM

open PrimeField Finset

variable {A : Type} [CommRing A] [Algebra Zq A]

/-- coefficient `n`, for `n` below 256 -/
def entry (v : Fin 256 → Zq) (n : ℕ) : Zq := v (Fin.ofNat 256 n)

theorem entry_of_lt (v : Fin 256 → Zq) {n : ℕ} (hn : n < 256) : entry v n = v ⟨n, hn⟩ :=
  congrArg v (Fin.ext (Nat.mod_eq_of_lt hn))

/-- the value at `x` of block `b` of `len` coefficients -/
def blockValue (v : Fin 256 → Zq) (len b : ℕ) (x : A) : A :=
  ∑ r ∈ range len, algebraMap Zq A (entry v (len * b + r)) * x ^ r

theorem length_eq (l : Fin 7) : 256 / 2 ^ l.val = 2 * half l := by
  revert l
  decide

theorem half_eq (l : Fin 7) : 256 / 2 ^ (l.val + 1) = half l := by
  revert l
  decide

/-! ## One layer, by block and place -/

theorem blocks_mul_length (l : Fin 7) : 2 * half l * 2 ^ l.val = 256 := by
  rw [← blocks_eq, Nat.mul_assoc, Nat.mul_comm (half l), blocks_mul_half]

theorem place_lt_of_lt {l : Fin 7} {b r : ℕ} (hb : b < 2 ^ l.val) (hr : r < 2 * half l) :
    2 * half l * b + r < 256 := by
  calc 2 * half l * b + r < 2 * half l * b + 2 * half l := Nat.add_lt_add_left hr _
    _ = 2 * half l * (b + 1) := by ring
    _ ≤ 2 * half l * 2 ^ l.val := Nat.mul_le_mul_left _ hb
    _ = 256 := blocks_mul_length l

theorem div_mod_place {l : Fin 7} {b r : ℕ} (hr : r < 2 * half l) :
    (2 * half l * b + r) / (2 * half l) = b ∧ (2 * half l * b + r) % (2 * half l) = r := by
  have hpos := half_pos l
  exact (Nat.div_mod_unique (by omega)).2 ⟨Nat.add_comm _ _, hr⟩

theorem blockOf_place {l : Fin 7} {b r : ℕ} (hr : r < 2 * half l) : blockOf l (2 * half l * b + r) = b :=
  (div_mod_place hr).1

theorem inLower_place {l : Fin 7} {b r : ℕ} (hr : r < half l) : InLower l (2 * half l * b + r) :=
  lt_of_eq_of_lt (div_mod_place (by omega)).2 hr

theorem not_inLower_place {l : Fin 7} {b r : ℕ} (hr : r < half l) : ¬InLower l (2 * half l * b + (half l + r)) := by
  have hmod := (div_mod_place (l := l) (b := b) (r := half l + r) (by omega)).2
  unfold InLower
  omega

theorem partner_lowerPlace {l : Fin 7} {b r : ℕ} (hb : b < 2 ^ l.val) (hr : r < half l) :
    partner l ⟨2 * half l * b + r, place_lt_of_lt hb (by omega)⟩ =
      ⟨2 * half l * b + (half l + r), place_lt_of_lt hb (by omega)⟩ := by
  refine Fin.ext ((partner_of_lower (inLower_place hr)).trans ?_)
  simp only
  omega

theorem partner_upperPlace {l : Fin 7} {b r : ℕ} (hb : b < 2 ^ l.val) (hr : r < half l) :
    partner l ⟨2 * half l * b + (half l + r), place_lt_of_lt hb (by omega)⟩ =
      ⟨2 * half l * b + r, place_lt_of_lt hb (by omega)⟩ := by
  refine Fin.ext ((partner_of_upper (not_inLower_place hr)).trans ?_)
  simp only
  omega

theorem entry_butterfly_lower (v : Fin 256 → Zq) {l : Fin 7} {b r : ℕ} (hb : b < 2 ^ l.val) (hr : r < half l) :
    entry (butterfly l v) (2 * half l * b + r) =
      entry v (2 * half l * b + r) + splitter l.val b * entry v (2 * half l * b + (half l + r)) := by
  have hi := place_lt_of_lt hb (r := r) (by omega)
  have hi' := place_lt_of_lt hb (r := half l + r) (by omega)
  rw [entry_of_lt _ hi, entry_of_lt v hi, entry_of_lt v hi', butterfly_lower (inLower_place hr), residue_root,
    blockOf_place (by omega), partner_lowerPlace hb hr]

theorem entry_butterfly_upper (v : Fin 256 → Zq) {l : Fin 7} {b r : ℕ} (hb : b < 2 ^ l.val) (hr : r < half l) :
    entry (butterfly l v) (2 * half l * b + (half l + r)) =
      entry v (2 * half l * b + r) - splitter l.val b * entry v (2 * half l * b + (half l + r)) := by
  have hi := place_lt_of_lt hb (r := r) (by omega)
  have hi' := place_lt_of_lt hb (r := half l + r) (by omega)
  rw [entry_of_lt _ hi', entry_of_lt v hi, entry_of_lt v hi', butterfly_upper (not_inLower_place hr), residue_root,
    blockOf_place (by omega), partner_upperPlace hb hr]

/-! ## One layer, by values of blocks -/

/-- a block is its lower half plus a power times its upper half -/
theorem blockValue_split (v : Fin 256 → Zq) (h b : ℕ) (x : A) :
    blockValue v (2 * h) b x =
      ∑ r ∈ range h, algebraMap Zq A (entry v (2 * h * b + r)) * x ^ r +
        x ^ h * ∑ r ∈ range h, algebraMap Zq A (entry v (2 * h * b + (h + r))) * x ^ r := by
  unfold blockValue
  rw [Nat.two_mul h, sum_range_add, mul_sum]
  refine congrArg₂ _ rfl (sum_congr rfl fun r _ => ?_)
  rw [pow_add]
  ring

/-- the lower half of a block after a layer: the block at points where the power is the root -/
theorem blockValue_butterfly_lower (v : Fin 256 → Zq) {l : Fin 7} {b : ℕ} (hb : b < 2 ^ l.val) {x : A}
    (hx : x ^ half l = algebraMap Zq A (splitter l.val b)) :
    blockValue (butterfly l v) (half l) (2 * b) x = blockValue v (2 * half l) b x := by
  rw [blockValue_split, hx, mul_sum, ← sum_add_distrib]
  refine sum_congr rfl fun r hr => ?_
  rw [show half l * (2 * b) + r = 2 * half l * b + r by ring, entry_butterfly_lower v hb (mem_range.1 hr), map_add,
    map_mul]
  ring

/-- the upper half of a block after a layer: the block at points where the power is the negative of the root -/
theorem blockValue_butterfly_upper (v : Fin 256 → Zq) {l : Fin 7} {b : ℕ} (hb : b < 2 ^ l.val) {x : A}
    (hx : x ^ half l = algebraMap Zq A (-splitter l.val b)) :
    blockValue (butterfly l v) (half l) (2 * b + 1) x = blockValue v (2 * half l) b x := by
  rw [blockValue_split, hx, mul_sum, ← sum_add_distrib]
  refine sum_congr rfl fun r hr => ?_
  rw [show half l * (2 * b + 1) + r = 2 * half l * b + (half l + r) by ring,
    entry_butterfly_upper v hb (mem_range.1 hr), map_sub, map_mul, map_neg]
  ring

/-! ## All layers -/

variable (A) in
/-- after `l` layers, each block of `v` is `f` modulo X^(256 / 2^l) less the constant of the block -/
def HoldsBlocks (f : Negacyclic Zq 256) (l : ℕ) (v : Fin 256 → Zq) : Prop :=
  ∀ b < 2 ^ l, ∀ x : A, x ^ (256 / 2 ^ l) = algebraMap Zq A (blockConstant l b) →
    blockValue v (256 / 2 ^ l) b x = Negacyclic.eval x f

theorem holdsBlocks_zero (f : Negacyclic Zq 256) : HoldsBlocks A f 0 f := by
  intro b hb x _
  obtain rfl : b = 0 := by simpa using hb
  change ∑ r ∈ range 256, algebraMap Zq A (entry f (256 * 0 + r)) * x ^ r = _
  rw [← Fin.sum_univ_eq_sum_range fun r => algebraMap Zq A (entry f (256 * 0 + r)) * x ^ r]
  refine sum_congr rfl fun i _ => ?_
  rw [Nat.mul_zero, Nat.zero_add, entry_of_lt f i.isLt]

/-- one layer keeps what the blocks hold -/
theorem HoldsBlocks.butterfly {f : Negacyclic Zq 256} {l : Fin 7} {v : Fin 256 → Zq} (h : HoldsBlocks A f l.val v) :
    HoldsBlocks A f (l.val + 1) (butterfly l v) := by
  intro b' hb' x hx
  rw [half_eq] at hx ⊢
  rw [pow_succ] at hb'
  have hsquare : ∀ b, x ^ half l = algebraMap Zq A (splitter l.val b) ∨
      x ^ half l = algebraMap Zq A (-splitter l.val b) →
        x ^ (256 / 2 ^ l.val) = algebraMap Zq A (blockConstant l.val b) := by
    intro b hroot
    rw [length_eq, Nat.mul_comm, pow_mul, ← splitter_sq l.isLt]
    rcases hroot with hroot | hroot <;> rw [hroot, ← map_pow]
    rw [neg_sq]
  rcases Nat.even_or_odd' b' with ⟨b, rfl | rfl⟩
  · rw [blockConstant_even] at hx
    rw [blockValue_butterfly_lower v (by omega) hx, ← length_eq]
    exact h b (by omega) x (hsquare b (.inl hx))
  · rw [blockConstant_odd l.isLt] at hx
    rw [blockValue_butterfly_upper v (by omega) hx, ← length_eq]
    exact h b (by omega) x (hsquare b (.inr hx))

/-- a relation between two runs of numbered steps holds after all of them -/
theorem foldl_finRange_relation {α β : Type} {n : ℕ} {f : Fin n → α → α} {g : Fin n → β → β} {R : ℕ → α → β → Prop}
    {s : α} {t : β} (h0 : R 0 s t)
    (hstep : ∀ (l : Fin n) (s : α) (t : β), R l.val s t → R (l.val + 1) (f l s) (g l t)) :
    R n ((List.finRange n).foldl (fun s l => f l s) s) ((List.finRange n).foldl (fun t l => g l t) t) := by
  induction n with
  | zero => exact h0
  | succ n ih =>
    rw [List.finRange_succ_last, List.foldl_append, List.foldl_append, List.foldl_map, List.foldl_map]
    exact hstep (Fin.last n) _ _ (ih fun l s t => hstep l.castSucc s t)

/-- an invariant of numbered steps holds after all of them -/
theorem foldl_finRange_invariant {α : Type} {n : ℕ} {step : Fin n → α → α} {P : ℕ → α → Prop} {s : α} (h0 : P 0 s)
    (hstep : ∀ (l : Fin n) (s : α), P l.val s → P (l.val + 1) (step l s)) :
    P n ((List.finRange n).foldl (fun s l => step l s) s) :=
  foldl_finRange_relation (g := fun _ (t : Unit) => t) (R := fun n s _ => P n s) (t := ()) h0 fun l s _ => hstep l s

/-- **The transform evaluates.** After the seven layers, pair p has the value of the polynomial at every point whose
square is the constant of factor p. -/
theorem value_transform (f : Negacyclic Zq 256) (p : Fin 128) {x : A}
    (hx : x ^ 2 = algebraMap Zq A (gammas.get p).residue) :
    let v := (List.finRange 7).foldl (fun v l => butterfly l v) f
    algebraMap Zq A (v ⟨2 * p.val, constant_lt p⟩) + algebraMap Zq A (v ⟨2 * p.val + 1, linear_lt p⟩) * x =
      Negacyclic.eval x f := by
  intro v
  have hall : HoldsBlocks A f 7 v := foldl_finRange_invariant (holdsBlocks_zero f) fun l w hw => hw.butterfly
  have hp : blockValue v (256 / 2 ^ 7) p.val x = Negacyclic.eval x f :=
    hall p.val p.isLt x (by rw [← residue_gammas_get]; exact hx)
  rw [← hp, blockValue, show 256 / 2 ^ 7 = 2 by norm_num, sum_range_succ, sum_range_one, pow_zero, pow_one, mul_one,
    Nat.add_zero (2 * p.val), entry_of_lt v (constant_lt p), entry_of_lt v (linear_lt p)]

end PostQuantum.MLKEM
