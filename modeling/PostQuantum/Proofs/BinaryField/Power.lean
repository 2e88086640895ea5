/-
Squares and the inversion chain are powers.

Spreading the bits of a word apart squares its polynomial, because over GF(2) the square of a sum is the sum of the
squares. The inversion chain carries a power of the element and a count k that says which one, the power 2^k - 1; each
bit of degree - 1 doubles the count, and a set bit adds one to it.
- `getLsbD_spread`, `poly_spread`: where the bits go, and that this is the square.
- `Elem.square_eq_mul_self`, `Elem.residue_squareN`: squares are products, and k of them are the power 2^k.
- `Elem.OnChain.run`, `Elem.snd_chain`: the chain keeps its power, and its count ends at degree - 1.
- `Elem.residue_invert`: so inversion is the power 2^degree - 2.
Nothing here needs an irreducible modulus.
-/
import Mathlib.Tactic
import Mathlib.FieldTheory.Finite.Basic
import PostQuantum.Proofs.BinaryField.Ring

namespace PostQuantum.BinaryField

open Polynomial Word

variable {m : Modulus} {x y : BitVec 32} {b k n : ℕ}

/-! ## Bits spread apart -/

/-- `y` holds the bits of `x` in order, in blocks of `b` bits with as many zeros after each -/
def InBlocks (b : ℕ) (x y : BitVec 32) : Prop :=
  ∀ q, ∀ r < b, b * q + r < 32 → y.getLsbD (b * q + r) = (decide (q % 2 = 0) && x.getLsbD (b * (q / 2) + r))

theorem inBlocks_sixteen (hx : x.toNat < 2 ^ 16) : InBlocks 16 x x := by
  intro q r hr hn
  rcases q with _ | q
  · simp
  · have hodd : (q + 1) % 2 ≠ 0 := by omega
    rw [getLsbD_of_lt_two_pow hx (by omega)]
    simp [hodd]

/-- a step halves the blocks: the upper half of each moves into the zeros after it -/
theorem InBlocks.halve (h : InBlocks (2 * b) x y) (mask : BitVec 32)
    (hmask : ∀ n < 32, mask.getLsbD n = decide (n / b % 2 = 0)) : InBlocks b x ((y ||| y <<< b) &&& mask) := by
  intro q r hr hn
  have hblock : (b * q + r) / b = q := by
    rw [Nat.mul_add_div (by omega), Nat.div_eq_of_lt hr, Nat.add_zero]
  rw [BitVec.getLsbD_and, BitVec.getLsbD_or, BitVec.getLsbD_shiftLeft, hmask _ hn, hblock]
  obtain ⟨p, rfl | rfl⟩ := Nat.even_or_odd' q
  case inr => simp
  -- of `y`, the lower half of block p stays, and the upper half of the block before it moves here
  have hstays := h p r (by omega)
  have hplace : b * (2 * p) + r = 2 * b * p + r := by ring
  rw [hplace] at hn ⊢
  rw [hstays hn]
  obtain ⟨t, rfl | rfl⟩ := Nat.even_or_odd' p
  case inl =>
    have hindex : 2 * b * t + r = b * (2 * t) + r := by ring
    have hnone : 2 * b * (2 * t) + r < b ∨ y.getLsbD (2 * b * (2 * t) + r - b) = false := by
      rcases t with _ | t
      · left
        simpa using hr
      · right
        have hmoves := h (2 * t + 1) (b + r) (by omega)
        have hbefore : 2 * b * (2 * (t + 1)) + r = 2 * b * (2 * t + 1) + (b + r) + b := by ring
        rw [hbefore] at hn ⊢
        rw [Nat.add_sub_cancel, hmoves (by omega)]
        simp
    rcases hnone with hnone | hnone <;> simp [hnone, hindex]
  case inr =>
    have hmoves := h (2 * t) (b + r) (by omega)
    have hbefore : 2 * b * (2 * t + 1) + r = 2 * b * (2 * t) + (b + r) + b := by ring
    have hindex : 2 * b * t + (b + r) = b * (2 * t + 1) + r := by ring
    have hnot : ¬2 * b * (2 * t) + (b + r) + b < b := by omega
    rw [hbefore] at hn ⊢
    rw [Nat.add_sub_cancel, hmoves (by omega)]
    simp [hn, hnot, hindex]

/-- bit i goes to bit 2 i, and zeros stand between -/
theorem getLsbD_spread (hx : x.toNat < 2 ^ 16) (hn : n < 32) :
    (spread x).getLsbD n = (decide (n % 2 = 0) && x.getLsbD (n / 2)) := by
  have h8 : InBlocks 8 x _ := (inBlocks_sixteen hx).halve 0x00ff00ff#32 (by decide)
  have h4 : InBlocks 4 x _ := h8.halve 0x0f0f0f0f#32 (by decide)
  have h2 : InBlocks 2 x _ := h4.halve 0x33333333#32 (by decide)
  have h1 : InBlocks 1 x (spread x) := h2.halve 0x55555555#32 (by decide)
  simpa using h1 n 0 Nat.one_pos (by omega)

/-- **Spreading the bits apart squares.** -/
theorem poly_spread (hx : x.toNat < 2 ^ 16) : poly (spread x) = poly x ^ 2 := by
  ext n
  rw [← ZMod.expand_card, coeff_expand two_pos, coeff_poly, coeff_poly]
  by_cases hn : n < 32
  · rw [getLsbD_spread hx hn]
    by_cases heven : n % 2 = 0
    · simp [heven, Nat.dvd_of_mod_eq_zero heven]
    · simp [heven, Nat.dvd_iff_mod_eq_zero]
  · rw [BitVec.getLsbD_of_ge _ _ (by omega), getLsbD_of_lt_two_pow hx (by omega)]
    simp

theorem spread_lt (hk : k ≤ 16) (hx : x.toNat < 2 ^ k) : (spread x).toNat < 2 ^ (k + (k - 1)) := by
  have hx16 : x.toNat < 2 ^ 16 := hx.trans_le (Nat.pow_le_pow_right Nat.two_pos hk)
  rw [lt_two_pow_iff]
  intro n hn
  by_cases hlong : 32 ≤ n
  · exact BitVec.getLsbD_of_ge _ _ hlong
  · rw [getLsbD_spread hx16 (by omega)]
    by_cases heven : n % 2 = 0
    · rw [getLsbD_of_lt_two_pow hx (by omega), Bool.and_false]
    · simp [heven]

namespace Elem

/-! ## Squares -/

section Squares

variable (a : Elem m)

/-- **Squares are products.** -/
theorem square_eq_mul_self : a.square = a * a := by
  have hdegree := m.degree_le
  have hwide : a.wide.toNat < 2 ^ 16 := a.wide_lt.trans_le (Nat.pow_le_pow_right Nat.two_pos hdegree)
  have hpoly : poly a.square.bits = poly (a * a).bits := by
    rw [square, poly_reduce (spread_lt hdegree a.wide_lt), poly_spread hwide, poly_wide, poly_mul, pow_two]
  exact congrArg mk (poly_injective hpoly)

@[simp] theorem residue_square : a.square.residue = a.residue ^ 2 := by
  rw [square_eq_mul_self, residue_mul, pow_two]

/-- `k` squares are the power 2^k -/
@[simp] theorem residue_squareN : (a.squareN k).residue = a.residue ^ 2 ^ k := by
  induction k generalizing a with
  | zero => simp [squareN]
  | succ k ih => rw [squareN, ih, residue_square, ← pow_mul, pow_succ']

end Squares

/-! ## The inversion chain -/

variable {a : Elem m} {s : Elem m × ℕ}

/-- with a count of k stands the power 2^k - 1 -/
def OnChain (a : Elem m) (s : Elem m × ℕ) : Prop := s.1.residue = a.residue ^ (2 ^ s.2 - 1)

theorem OnChain.start (a : Elem m) : OnChain a (a, 1) := by
  simp [OnChain]

/-- a count is doubled by as many squares and a product -/
theorem OnChain.double (h : OnChain a s) : OnChain a (s.1.squareN s.2 * s.1, 2 * s.2) := by
  have hexponent : (2 ^ s.2 - 1) * 2 ^ s.2 + (2 ^ s.2 - 1) = 2 ^ (2 * s.2) - 1 := by
    obtain ⟨t, ht⟩ : ∃ t, 2 ^ s.2 = t + 1 := Nat.exists_eq_succ_of_ne_zero (by positivity)
    have hsquare : (t + 1) * (t + 1) = t * (t + 1) + t + 1 := by ring
    rw [two_mul, pow_add, ht, hsquare, Nat.add_sub_cancel, Nat.add_sub_cancel]
  unfold OnChain at h ⊢
  rw [residue_mul, residue_squareN, h, ← pow_mul, ← pow_add, hexponent]

/-- one is added to a count by a square and a product with the element -/
theorem OnChain.increment (h : OnChain a s) : OnChain a (s.1.square * a, s.2 + 1) := by
  have hexponent : (2 ^ s.2 - 1) * 2 + 1 = 2 ^ (s.2 + 1) - 1 := by
    have hpos := Nat.one_le_two_pow (n := s.2)
    rw [pow_succ]
    omega
  unfold OnChain at h ⊢
  rw [residue_mul, residue_square, h, ← pow_mul, ← pow_succ, hexponent]

theorem OnChain.step (h : OnChain a s) (bit : Bool) : OnChain a (chainStep a s bit) := by
  cases bit with
  | false => exact h.double
  | true => exact h.double.increment

theorem OnChain.run (h : OnChain a s) (bits : List Bool) : OnChain a (bits.foldl (chainStep a) s) := by
  induction bits generalizing s with
  | nil => exact h
  | cons bit bits ih => exact ih (h.step bit)

theorem snd_chainStep (a : Elem m) (s : Elem m × ℕ) (bit : Bool) : (chainStep a s bit).2 = 2 * s.2 + bit.toNat := by
  cases bit <;> rfl

/-- the low bits of a number, from the top, take a count from the bits above them to the number -/
theorem snd_run (n l : ℕ) (hs : s.2 = n >>> l) :
    (((List.range l).reverse.map n.testBit).foldl (chainStep a) s).2 = n := by
  induction l generalizing s with
  | zero => simpa using hs
  | succ l ih =>
    rw [List.range_succ, List.reverse_append, List.reverse_singleton, List.singleton_append, List.map_cons,
      List.foldl_cons]
    refine ih ?_
    rw [snd_chainStep, hs, ← shiftRight_eq_two_mul_add]

theorem shiftRight_log2 (hn : n ≠ 0) : n >>> n.log2 = 1 := by
  have hlow := Nat.log2_self_le hn
  have hhigh := Nat.lt_log2_self (n := n)
  rw [pow_succ] at hhigh
  rw [Nat.shiftRight_eq_div_pow]
  exact Nat.div_eq_of_lt_le (by omega) (by omega)

/-- **The count ends at degree - 1.** -/
theorem snd_chain (a : Elem m) : (chain a).2 = m.degree - 1 := by
  have htwo := m.two_le_degree
  exact snd_run _ _ (shiftRight_log2 (by omega)).symm

/-- **Inversion is a power**, whether or not the modulus is irreducible. -/
theorem residue_invert (a : Elem m) : a.invert.residue = a.residue ^ (2 ^ m.degree - 2) := by
  have hchain : OnChain a (chain a) := (OnChain.start a).run _
  have hexponent : (2 ^ (m.degree - 1) - 1) * 2 = 2 ^ m.degree - 2 := by
    have htwo := m.two_le_degree
    have hdegree : 2 ^ m.degree = 2 ^ (m.degree - 1) * 2 := by
      rw [← pow_succ, Nat.sub_add_cancel (by omega)]
    omega
  unfold OnChain at hchain
  rw [invert, residue_square, hchain, snd_chain, ← pow_mul, hexponent]

end Elem

end PostQuantum.BinaryField
