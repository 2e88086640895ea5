/-
The inversion chain, step by step.

The chain reads the bits of degree - 1 from the top. Before its first step the count is the highest bit alone, and each
step takes the next bit into it, so after t steps the count is degree - 1 without its lowest bits and the power is
2^count - 1. The chain is written again with its count in a word that must not wrap, products that must not drop a bit,
and a check of the count at the end (`Elem.invert?`).
- `Elem.chainAfter_eq`: the power and the count after any number of steps.
- `Elem.chainStep?_eq`, `Elem.foldlM_chainStep?`: no step refuses, and none of the run.
- `Elem.invert?_eq`: the check at the end succeeds.
- `inversion_chain`: so inversion is the power 2^degree - 2, as products of as many factors give it.
-/
import Mathlib.Tactic
import PostQuantum.Proofs.BinaryField.Frobenius

namespace PostQuantum.BinaryField

open Word
open InRange (andThen foldlM_invariant)

variable {m : Modulus} {t : ℕ}

namespace Modulus

/-- the count that the inversion chain ends at -/
def lastCount (m : Modulus) : ℕ := m.degree - 1

/-- the number of steps of the inversion chain -/
def chainLength (m : Modulus) : ℕ := m.lastCount.log2

/-- the count after `t` steps: degree - 1 without the bits that are left -/
def countAfter (m : Modulus) (t : ℕ) : ℕ := m.lastCount >>> (m.chainLength - t)

theorem lastCount_bounds (m : Modulus) : 1 ≤ m.lastCount ∧ m.lastCount ≤ 15 := by
  have htwo := m.two_le_degree
  have hdegree := m.degree_le
  unfold lastCount
  omega

theorem countAfter_zero (m : Modulus) : m.countAfter 0 = 1 := by
  have hpos := m.lastCount_bounds.1
  exact Elem.shiftRight_log2 (by omega)

theorem countAfter_succ (ht : t < m.chainLength) :
    m.countAfter (t + 1) = 2 * m.countAfter t + (m.lastCount.testBit (m.chainLength - 1 - t)).toNat := by
  obtain ⟨l, hl⟩ : ∃ l, m.chainLength = t + 1 + l := Nat.exists_eq_add_of_le ht
  unfold countAfter
  rw [show m.chainLength - (t + 1) = l by omega, show m.chainLength - t = l + 1 by omega,
    show m.chainLength - 1 - t = l by omega]
  exact shiftRight_eq_two_mul_add _ l

/-- past the last step the count stays -/
theorem countAfter_of_le (ht : m.chainLength ≤ t) : m.countAfter t = m.lastCount := by
  rw [countAfter, Nat.sub_eq_zero_of_le ht, Nat.shiftRight_zero]

theorem countAfter_le (m : Modulus) (t : ℕ) : m.countAfter t ≤ 15 :=
  (Nat.shiftRight_le _ _).trans m.lastCount_bounds.2

end Modulus

namespace Elem

/-! ## The chain after each step -/

/-- the bits that the chain reads -/
def chainBits (m : Modulus) : List Bool := (List.range m.chainLength).reverse.map m.lastCount.testBit

/-- the power and the count after `t` steps -/
def chainAfter (a : Elem m) (t : ℕ) : Elem m × ℕ := ((chainBits m).take t).foldl (chainStep a) (a, 1)

theorem chainBits_getElem? (ht : t < m.chainLength) :
    (chainBits m)[t]? = some (m.lastCount.testBit (m.chainLength - 1 - t)) := by
  simp [chainBits, ht]

theorem chainAfter_succ (a : Elem m) (ht : t < m.chainLength) :
    a.chainAfter (t + 1) = chainStep a (a.chainAfter t) (m.lastCount.testBit (m.chainLength - 1 - t)) := by
  unfold chainAfter
  rw [List.take_add_one, chainBits_getElem? ht, List.foldl_append]
  rfl

theorem chainAfter_of_le (a : Elem m) (ht : m.chainLength ≤ t) : a.chainAfter t = chain a := by
  have hlength : (chainBits m).length ≤ t := by simpa [chainBits] using ht
  unfold chainAfter
  rw [List.take_of_length_le hlength]
  rfl

theorem snd_chainAfter (a : Elem m) (t : ℕ) : (a.chainAfter t).2 = m.countAfter t := by
  induction t with
  | zero => exact m.countAfter_zero.symm
  | succ t ih =>
    rcases Nat.lt_or_ge t m.chainLength with ht | ht
    · rw [chainAfter_succ a ht, snd_chainStep, ih, Modulus.countAfter_succ ht]
    · rw [chainAfter_of_le a (Nat.le_succ_of_le ht), snd_chain, Modulus.countAfter_of_le (Nat.le_succ_of_le ht)]
      rfl

/-- **The chain after each step**: the count is a front part of degree - 1, and with it stands its power. -/
theorem chainAfter_eq (a : Elem m) (t : ℕ) :
    a.chainAfter t = (a.power (2 ^ m.countAfter t - 1), m.countAfter t) := by
  have hcount := snd_chainAfter a t
  have hchain : OnChain a (a.chainAfter t) := (OnChain.start a).run _
  unfold OnChain at hchain
  rw [hcount, ← residue_power] at hchain
  exact Prod.ext (residue_injective hchain) hcount

theorem invert_eq_power (a : Elem m) : a.invert = a.power (2 ^ m.degree - 2) := by
  apply residue_injective
  rw [residue_invert, residue_power]

/-! ## The chain with its checks -/

/-- one step for bit `i` of `n`, if no product drops a bit and the count does not wrap -/
def chainStep? (a : Elem m) (n : BitVec 32) (s : Elem m × BitVec 32) (i : ℕ) : Option (Elem m × BitVec 32) := do
  let squares ← squareN? s.1 s.2.toNat
  let doubled ← mul? squares s.1
  let count ← Word.mul? s.2 2
  if (n >>> i) &&& 1 = 1 then
    let square ← square? doubled
    let raised ← mul? square a
    let count ← Word.add? count 1
    some (raised, count)
  else some (doubled, count)

/-- the place of the highest bit, if one is set -/
def highestBit? (n : BitVec 32) : Option ℕ := if n = 0 then none else some n.toNat.log2

/-- the inverse, if degree - 1 is not zero, no step refuses and the count ends at degree - 1 -/
def invert? (a : Elem m) : Option (Elem m) := do
  let n ← Word.sub? (BitVec.ofNat 32 m.degree) 1
  let steps ← highestBit? n
  let (power, count) ← (List.range steps).reverse.foldlM (chainStep? a n) (a, 1)
  if count = n then square? power else none

/-- a count as a word -/
def withWord (s : Elem m × ℕ) : Elem m × BitVec 32 := (s.1, BitVec.ofNat 32 s.2)

theorem toNat_count {c : ℕ} (hc : c ≤ 31) : (BitVec.ofNat 32 c).toNat = c := by
  rw [BitVec.toNat_ofNat]
  exact Nat.mod_eq_of_lt (by omega)

/-- **One step** refuses nothing, and does what a step of the chain does. -/
theorem chainStep?_eq (a : Elem m) (n : BitVec 32) {s : Elem m × ℕ} (hs : s.2 ≤ 15) (i : ℕ) :
    chainStep? a n (withWord s) i = some (withWord (chainStep a s (n.getLsbD i))) := by
  have hcount : (withWord s).2.toNat = s.2 := toNat_count (by omega)
  have hdouble : Word.mul? (withWord s).2 2 = some (BitVec.ofNat 32 (2 * s.2)) := by
    rw [mul?_eq_some_iff, hcount, toNat_count (by omega), Nat.mul_comm]
    rfl
  have hincrement : Word.add? (BitVec.ofNat 32 (2 * s.2)) 1 = some (BitVec.ofNat 32 (2 * s.2 + 1)) := by
    rw [add?_eq_some_iff, toNat_count (by omega), toNat_count (by omega)]
    rfl
  unfold chainStep?
  rw [hcount]
  refine andThen (squareN?_eq _ _) ?_
  refine andThen (mul?_eq _ _) ?_
  refine andThen hdouble ?_
  simp only [shiftRight_and_one_eq_one_iff (show 0 < 32 by norm_num)]
  rcases n.getLsbD i with _ | _
  · rfl
  · refine andThen (square?_eq _) ?_
    refine andThen (mul?_eq _ _) ?_
    exact andThen hincrement rfl

/-- degree - 1 as a word -/
def lastWord (m : Modulus) : BitVec 32 := BitVec.ofNat 32 m.lastCount

theorem toNat_lastWord (m : Modulus) : (lastWord m).toNat = m.lastCount := by
  have hle := m.lastCount_bounds.2
  exact toNat_count (by omega)

theorem sub?_lastWord (m : Modulus) : Word.sub? (BitVec.ofNat 32 m.degree) 1 = some (lastWord m) := by
  have htwo := m.two_le_degree
  have hdegree := m.degree_le
  rw [sub?_eq_some_iff, toNat_lastWord, toNat_count (by omega)]
  exact Nat.sub_add_cancel (by omega)

theorem highestBit?_lastWord (m : Modulus) : highestBit? (lastWord m) = some m.chainLength := by
  have hne : lastWord m ≠ 0 := by
    intro h
    have hzero := toNat_lastWord m
    rw [h] at hzero
    exact absurd hzero (Nat.ne_of_lt m.lastCount_bounds.1)
  rw [highestBit?, if_neg hne, toNat_lastWord]
  rfl

/-- **The run** refuses no step, and it ends with what the chain ends with. -/
theorem foldlM_chainStep? (a : Elem m) :
    (List.range m.chainLength).reverse.foldlM (chainStep? a (lastWord m)) (a, 1) =
      some ((chain a).1, lastWord m) := by
  -- after t steps the words hold what the chain has after t steps
  obtain ⟨s, hrun, hs⟩ := foldlM_invariant (chainStep? a (lastWord m)) (List.range m.chainLength).reverse
    (s := (a, 1)) (fun t s => s = withWord (a.chainAfter t)) rfl fun t ht s hs => by
      have ht : t < m.chainLength := by simpa using ht
      have hcount : (a.chainAfter t).2 ≤ 15 := (snd_chainAfter a t).trans_le (m.countAfter_le t)
      have hbit : (lastWord m).getLsbD (List.range m.chainLength).reverse[t] =
          m.lastCount.testBit (m.chainLength - 1 - t) := by
        rw [BitVec.getLsbD, toNat_lastWord]
        simp
      refine ⟨_, ?_, rfl⟩
      rw [hs, chainStep?_eq a _ hcount, chainAfter_succ a ht, hbit]
  rw [List.length_reverse, List.length_range, chainAfter_of_le a le_rfl] at hs
  rw [hrun, hs, withWord, snd_chain]
  rfl

/-- **No step of an inversion refuses**, and its check of the count succeeds. -/
theorem invert?_eq (a : Elem m) : invert? a = some a.invert := by
  refine andThen (sub?_lastWord m) ?_
  refine andThen (highestBit?_lastWord m) ?_
  refine andThen (foldlM_chainStep? a) ?_
  exact (if_pos rfl).trans (square?_eq _)

end Elem

/-! ## Every modulus -/

/-- **Inversion.** Whatever the modulus, if only it is admissible: inversion is the power 2^degree - 2, the product of
that many factors. No product or square of its chain drops a bit, the count does not wrap, and it ends at degree - 1, as
is checked. After t steps the count is degree - 1 without the bits that are left, and with a count of k stands the power
2^k - 1. -/
theorem inversion_chain (m : Modulus) (a : Elem m) :
    a.invert = a.power (2 ^ m.degree - 2) ∧
    Elem.invert? a = some a.invert ∧
    (Elem.chain a).2 = m.degree - 1 ∧
    ∀ t, a.chainAfter t = (a.power (2 ^ m.countAfter t - 1), m.countAfter t) := by
  refine ⟨a.invert_eq_power, a.invert?_eq, a.snd_chain, fun t => ?_⟩
  exact a.chainAfter_eq t

end PostQuantum.BinaryField
