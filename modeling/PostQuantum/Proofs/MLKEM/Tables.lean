/-
The tables of roots, as they are computed.

A power of 17 is multiplied up in a word of 32 bits, with a remainder after each factor, and the seven bits of an index
are reversed by reversing a byte. A table is an array of zeros that is written from its first entry to its last.
- `toNat_powerLoop`: the word holds the power modulo q, and no product wraps (`toNat_powerLoop_mul`).
- `reverseSeven_eq`: the byte reversed and moved down by one bit is the index reversed.
- `foldl_write`: an array that is written entry by entry ends as the table of what was written.
- `zetas_eq_loop`, `gammas_eq_loop`: so both tables are the roots that the transform and the products use.
-/
import Mathlib.Tactic
import PostQuantum.Proofs.MLKEM.Roots

namespace PostQuantum.MLKEM

open PrimeField Word

/-! ## The loops -/

/-- 17 to the power `e` modulo q, factor by factor -/
def powerLoop : (e : ℕ) → BitVec 32
  | 0 => 1#32
  | e + 1 => (powerLoop e * 17#32) % 3329#32

/-- the power as a coefficient -/
def rootLoop (e : ℕ) : Coeff := ⟨narrow 16 (powerLoop e)⟩

/-- the low seven bits of `i` in the opposite order: a byte reversed and moved down by one bit -/
def reverseSeven (i : ℕ) : ℕ := ((BitVec.ofNat 8 i).reverse >>> 1).toNat

/-- an array of zeros, written from its first entry to its last -/
def tableLoop (entry : ℕ → Coeff) : Vector Coeff 128 :=
  (List.range 128).foldl (fun out i => out.setIfInBounds i (entry i)) (Vector.replicate 128 0)

/-! ## Powers -/

theorem toNat_powerLoop_lt (e : ℕ) : (powerLoop e).toNat < 3329 := by
  cases e with
  | zero => decide
  | succ e =>
    rw [powerLoop, BitVec.toNat_umod]
    exact Nat.mod_lt _ (by decide)

/-- no product wraps -/
theorem toNat_powerLoop_mul (e : ℕ) : (powerLoop e * 17#32).toNat = (powerLoop e).toNat * 17 := by
  have hlt := toNat_powerLoop_lt e
  rw [BitVec.toNat_mul]
  exact Nat.mod_eq_of_lt (by simp; omega)

/-- **The power modulo q.** -/
theorem toNat_powerLoop (e : ℕ) : (powerLoop e).toNat = 17 ^ e % 3329 := by
  induction e with
  | zero => rfl
  | succ e ih =>
    calc (powerLoop (e + 1)).toNat = (powerLoop e).toNat * 17 % 3329 := by
          rw [powerLoop, BitVec.toNat_umod, toNat_powerLoop_mul]
          rfl
      _ = 17 ^ (e + 1) % 3329 := by rw [ih, Nat.mod_mul_mod, pow_succ]

theorem rootLoop_eq (e : ℕ) : rootLoop e = zeta e := by
  have hlt := toNat_powerLoop_lt e
  refine congrArg Elem.mk (BitVec.eq_of_toNat_eq ?_)
  change ((powerLoop e).setWidth 16).toNat = (BitVec.ofNat 16 (17 ^ e % 3329)).toNat
  rw [BitVec.toNat_setWidth, toNat_powerLoop, BitVec.toNat_ofNat]

/-- **Reversed indices.** -/
theorem reverseSeven_eq (i : Fin 128) : reverseSeven i = bitRev 7 i := by
  revert i
  decide +kernel

/-! ## Arrays written entry by entry -/

/-- after `m` writes the entries below `m` are those that were written, and the others are as before -/
theorem get_foldl_write {α : Type} {n : ℕ} (entry : ℕ → α) (v : Vector α n) (m : ℕ) (i : Fin n) :
    ((List.range m).foldl (fun out i => out.setIfInBounds i (entry i)) v).get i =
      if i.val < m then entry i else v.get i := by
  induction m with
  | zero => simp
  | succ m ih =>
    rw [List.range_succ, List.foldl_append, List.foldl_cons, List.foldl_nil]
    refine (Vector.getElem_setIfInBounds i.isLt).trans ?_
    rcases eq_or_ne m i.val with rfl | hne
    · simp
    · rw [if_neg hne]
      refine ih.trans (if_congr ?_ rfl rfl)
      omega

/-- **Filling an array** gives the table of its entries. -/
theorem foldl_write {α : Type} {n : ℕ} (entry : ℕ → α) (v : Vector α n) :
    (List.range n).foldl (fun out i => out.setIfInBounds i (entry i)) v = Vector.ofFn fun i => entry i := by
  refine ext_get fun i => ?_
  rw [get_foldl_write, if_pos i.isLt, get_ofFn]

/-! ## The tables -/

/-- **The roots of the layers** as they are computed. -/
theorem zetas_eq_loop : zetas = tableLoop fun i => rootLoop (reverseSeven i) := by
  unfold tableLoop
  rw [foldl_write]
  refine congrArg Vector.ofFn (funext fun i => ?_)
  rw [rootLoop_eq, reverseSeven_eq]

/-- **The constants of the factors** as they are computed. -/
theorem gammas_eq_loop : gammas = tableLoop fun i => rootLoop (2 * reverseSeven i + 1) := by
  unfold tableLoop
  rw [foldl_write]
  refine congrArg Vector.ofFn (funext fun i => ?_)
  rw [rootLoop_eq, reverseSeven_eq]

end PostQuantum.MLKEM
