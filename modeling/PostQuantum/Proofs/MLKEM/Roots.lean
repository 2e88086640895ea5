/-
The roots of unity behind the transform.

17 has order 256 modulo q, and X^256 + 1 is X^256 - 17^128. A factor X^(2n) - w^2 splits into X^n - w and X^n + w, so
after l layers there are 2^l factors X^(256 / 2^l) - `blockConstant l b`, one for each block b.
- `residue_root`: the root of block b in layer l is `splitter l b`, a square root of the constant of the block;
- `blockConstant_even`, `blockConstant_odd`: the halves of the block have this root and its negative as constants;
- `residue_opposite_mul_root`: the roots of two blocks as far from either end of a layer have the product -1.
All of it is arithmetic on exponents, with `bitRev` reversing the bits of a block's number.
-/
import Mathlib.Tactic
import Mathlib.Data.ZMod.Basic
import PostQuantum.Proofs.PrimeField.Residue
import PostQuantum.Indexed
import PostQuantum.MLKEM.Transform

namespace PostQuantum.MLKEM

open PrimeField

/-- the integers modulo 3329 -/
abbrev Zq := ZMod z3329.q

instance : Fact (Nat.Prime z3329.q) := ⟨show Nat.Prime 3329 by norm_num⟩

/-! ## Reversed bits -/

theorem bitRev_two_mul (w b : ℕ) : bitRev (w + 1) (2 * b) = bitRev w b := by
  simp [bitRev]

theorem bitRev_two_mul_add_one (w b : ℕ) : bitRev (w + 1) (2 * b + 1) = 2 ^ w + bitRev w b := by
  have hdiv : (2 * b + 1) / 2 = b := by omega
  have hmod : (2 * b + 1) % 2 = 1 := by omega
  rw [bitRev, hdiv, hmod, Nat.shiftLeft_eq, Nat.one_mul]

theorem bitRev_zero_right (w : ℕ) : bitRev w 0 = 0 := by
  induction w with
  | zero => rfl
  | succ w ih => exact (bitRev_two_mul w 0).trans ih

theorem bitRev_lt (w b : ℕ) : bitRev w b < 2 ^ w := by
  induction w generalizing b with
  | zero => exact Nat.one_pos
  | succ w ih =>
    rcases Nat.even_or_odd' b with ⟨b, rfl | rfl⟩
    · rw [bitRev_two_mul, pow_succ]
      have h := ih b
      omega
    · rw [bitRev_two_mul_add_one, pow_succ]
      have h := ih b
      omega

/-- a bit on top comes out at the bottom -/
theorem bitRev_add_top {w b : ℕ} (hb : b < 2 ^ w) : bitRev (w + 1) (2 ^ w + b) = 2 * bitRev w b + 1 := by
  induction w generalizing b with
  | zero =>
    obtain rfl : b = 0 := by simpa using hb
    rfl
  | succ w ih =>
    rw [pow_succ] at hb ⊢
    rcases Nat.even_or_odd' b with ⟨b, rfl | rfl⟩
    · rw [show 2 ^ w * 2 + 2 * b = 2 * (2 ^ w + b) by ring, bitRev_two_mul, ih (by omega), bitRev_two_mul]
    · rw [show 2 ^ w * 2 + (2 * b + 1) = 2 * (2 ^ w + b) + 1 by ring, bitRev_two_mul_add_one, ih (by omega),
        bitRev_two_mul_add_one]
      ring

/-- in a wider word, zeros come in from below -/
theorem bitRev_wider {w b : ℕ} (hb : b < 2 ^ w) (k : ℕ) : bitRev (w + k) b = 2 ^ k * bitRev w b := by
  induction w generalizing b with
  | zero =>
    obtain rfl : b = 0 := by simpa using hb
    rw [bitRev_zero_right, bitRev, Nat.mul_zero]
  | succ w ih =>
    rw [pow_succ] at hb
    rw [show w + 1 + k = w + k + 1 by omega]
    rcases Nat.even_or_odd' b with ⟨b, rfl | rfl⟩
    · rw [bitRev_two_mul, bitRev_two_mul, ih (by omega)]
    · rw [bitRev_two_mul_add_one, bitRev_two_mul_add_one, ih (by omega)]
      ring

/-- complements have complementary reversals -/
theorem bitRev_add_bitRev_complement {w b : ℕ} (hb : b < 2 ^ w) :
    bitRev w b + bitRev w (2 ^ w - 1 - b) = 2 ^ w - 1 := by
  induction w generalizing b with
  | zero => rfl
  | succ w ih =>
    rw [pow_succ] at hb ⊢
    rcases Nat.even_or_odd' b with ⟨b, rfl | rfl⟩
    · have h := ih (b := b) (by omega)
      rw [show 2 ^ w * 2 - 1 - 2 * b = 2 * (2 ^ w - 1 - b) + 1 by omega, bitRev_two_mul, bitRev_two_mul_add_one]
      omega
    · have h := ih (b := b) (by omega)
      rw [show 2 ^ w * 2 - 1 - (2 * b + 1) = 2 * (2 ^ w - 1 - b) by omega, bitRev_two_mul, bitRev_two_mul_add_one]
      omega

/-- the bits come out in the opposite order -/
theorem testBit_bitRev {w t : ℕ} (ht : t < w) (b : ℕ) : (bitRev w b).testBit t = b.testBit (w - 1 - t) := by
  induction w generalizing b t with
  | zero => omega
  | succ w ih =>
    have hlt : bitRev w (b / 2) < 2 ^ w := bitRev_lt w _
    rw [bitRev, Nat.shiftLeft_eq, Nat.mul_comm, Nat.testBit_two_pow_mul_add _ hlt]
    by_cases h : t < w
    · have hshift : w + 1 - 1 - t = w - 1 - t + 1 := by omega
      rw [if_pos h, ih h, hshift, Nat.testBit_succ]
    · obtain rfl : t = w := by omega
      simp [Nat.testBit_zero]

/-! ## Powers of the root of unity -/

theorem zeta_pow_128 : (17 : Zq) ^ 128 = -1 := by
  change (17 : ZMod 3329) ^ 128 = -1
  reduce_mod_char

theorem zeta_reduced (e : ℕ) : (zeta e).Reduced :=
  Elem.reduced_ofNat (Nat.mod_lt _ z3329.q_pos)

theorem residue_zeta (e : ℕ) : (zeta e).residue = 17 ^ e := by
  unfold zeta
  exact (Elem.residue_ofNat (Nat.mod_lt _ z3329.q_pos)).trans
    ((ZMod.natCast_mod (17 ^ e) z3329.q).trans (Nat.cast_pow 17 e))

/-- what block `b` is reduced by after `l` layers: X^(256 / 2^l) - constant -/
def blockConstant (l b : ℕ) : Zq := 17 ^ (2 ^ (7 - l) * (2 * bitRev l b + 1))

/-- the root that splits block `b` of layer `l` -/
def splitter (l b : ℕ) : Zq := 17 ^ (2 ^ (6 - l) * (2 * bitRev l b + 1))

theorem splitter_sq {l : ℕ} (hl : l < 7) (b : ℕ) : splitter l b ^ 2 = blockConstant l b := by
  unfold splitter blockConstant
  rw [← pow_mul, show 7 - l = 6 - l + 1 by omega, pow_succ]
  ring_nf

theorem blockConstant_even (l b : ℕ) : blockConstant (l + 1) (2 * b) = splitter l b := by
  unfold splitter blockConstant
  rw [bitRev_two_mul, show 7 - (l + 1) = 6 - l by omega]

theorem blockConstant_odd {l : ℕ} (hl : l < 7) (b : ℕ) : blockConstant (l + 1) (2 * b + 1) = -splitter l b := by
  have h128 : 2 ^ (6 - l) * (2 * 2 ^ l) = 128 := by
    rw [← pow_succ', ← pow_add, show 6 - l + (l + 1) = 7 by omega]
    norm_num
  have hexp : 2 ^ (6 - l) * (2 * (2 ^ l + bitRev l b) + 1) = 128 + 2 ^ (6 - l) * (2 * bitRev l b + 1) := by
    rw [← h128]
    ring
  unfold splitter blockConstant
  rw [bitRev_two_mul_add_one, show 7 - (l + 1) = 6 - l by omega, hexp, pow_add, zeta_pow_128, neg_one_mul]

/-- the roots of two blocks as far from either end of the layer have the product -1 -/
theorem splitter_mul_reflected {l b : ℕ} (hl : l < 7) (hb : b < 2 ^ l) :
    splitter l (2 ^ l - 1 - b) * splitter l b = -1 := by
  have hsum : 2 * bitRev l (2 ^ l - 1 - b) + 1 + (2 * bitRev l b + 1) = 2 * 2 ^ l := by
    have h := bitRev_add_bitRev_complement hb
    have h2 : 0 < 2 ^ l := Nat.two_pow_pos l
    omega
  have hexp : 2 ^ (6 - l) * (2 * 2 ^ l) = 128 := by
    rw [← pow_succ', ← pow_add, show 6 - l + (l + 1) = 7 by omega]
    norm_num
  unfold splitter
  rw [← pow_add, ← Nat.mul_add, hsum, hexp, zeta_pow_128]

/-! ## The tables -/

theorem blocks_eq (l : Fin 7) : blocks l = 2 ^ l.val := by
  rw [blocks, Nat.shiftLeft_eq, Nat.one_mul]

/-- entry 2^l + b of the table of roots splits block `b` of layer `l` -/
theorem residue_zetas_get {l b : ℕ} (hl : l < 7) (hb : b < 2 ^ l) {i : Fin 128} (hi : i.val = 2 ^ l + b) :
    (zetas.get i).residue = splitter l b := by
  have hrev : bitRev 7 (2 ^ l + b) = 2 ^ (6 - l) * (2 * bitRev l b + 1) := by
    rw [← bitRev_add_top hb, ← bitRev_wider (by rw [pow_succ]; omega), show l + 1 + (6 - l) = 7 by omega]
  rw [zetas, get_ofFn, residue_zeta, hi, hrev, splitter]

theorem zetas_get_reduced (i : Fin 128) : (zetas.get i).Reduced := by
  rw [zetas, get_ofFn]
  exact zeta_reduced _

theorem gammas_get_reduced (p : Fin 128) : (gammas.get p).Reduced := by
  rw [gammas, get_ofFn]
  exact zeta_reduced _

/-- the constants after the last layer -/
theorem residue_gammas_get (p : Fin 128) : (gammas.get p).residue = blockConstant 7 p.val := by
  rw [gammas, get_ofFn, residue_zeta, blockConstant]
  simp

theorem root_reduced (l : Fin 7) (i : Fin 256) : (root l i).Reduced := zetas_get_reduced _

theorem opposite_reduced (l : Fin 7) (i : Fin 256) : (opposite l i).Reduced := zetas_get_reduced _

theorem residue_root (l : Fin 7) (i : Fin 256) : (root l i).residue = splitter l.val (blockOf l i.val) := by
  have hb := blockOf_lt l i.isLt
  rw [blocks_eq] at hb
  refine residue_zetas_get l.isLt hb ?_
  simp only [blocks_eq]

theorem residue_opposite (l : Fin 7) (i : Fin 256) :
    (opposite l i).residue = splitter l.val (2 ^ l.val - 1 - blockOf l i.val) := by
  have hb := blockOf_lt l i.isLt
  rw [blocks_eq] at hb
  refine residue_zetas_get l.isLt (by omega) ?_
  simp only [blocks_eq]
  omega

/-- the inverse root of a block is its root's inverse, but for the sign -/
theorem residue_opposite_mul_root (l : Fin 7) (i : Fin 256) : (opposite l i).residue * (root l i).residue = -1 := by
  have hb := blockOf_lt l i.isLt
  rw [blocks_eq] at hb
  rw [residue_opposite, residue_root, splitter_mul_reflected l.isLt hb]

end PostQuantum.MLKEM
