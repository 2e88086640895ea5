/-
The arithmetic of a prime field is exact in every width that is wide enough.

The reductions and the operations are written again with steps that refuse to lose bits (`barrettReduce?`, `Elem.add?`
and so on). Only a small reduction wraps on purpose: it borrows below q, and the borrow shows in the top bit.
- `smallReduce_eq_masked`: adding q back where the top bit is set is adding q masked by that bit.
- `reciprocal?_eq`, `barrettReduce?_eq`: no step of a Barrett reduction refuses, for any word and any modulus.
- `Elem.add?_eq` and its like: no step of an operation on reduced elements refuses.
- `arithmetic_exact`: so reductions give remainders and operations give the reduced elements that they should.
-/
import Mathlib.Tactic
import PostQuantum.Proofs.Checked
import PostQuantum.Proofs.PrimeField.Residue

namespace PostQuantum.PrimeField

open Word

variable {F : Modulus}

namespace Modulus

/-! ## Small reduction -/

/-- the top bit alone, as a mask of all bits -/
theorem neg_topBit {w : ℕ} (x : BitVec w) : -(x >>> (w - 1)) = if x.msb then BitVec.allOnes w else 0 := by
  rcases Nat.eq_zero_or_pos w with rfl | hw
  · exact Subsingleton.elim _ _
  have hx := x.isLt
  have hpow : 2 ^ w = 2 * 2 ^ (w - 1) := by
    rw [← Nat.pow_succ', Nat.succ_eq_add_one, Nat.sub_add_cancel hw]
  have hshift : (x >>> (w - 1)).toNat = x.toNat / 2 ^ (w - 1) := by
    rw [BitVec.toNat_ushiftRight, Nat.shiftRight_eq_div_pow]
  rw [BitVec.msb_eq_decide]
  rcases Nat.lt_or_ge x.toNat (2 ^ (w - 1)) with h | h
  · have hzero : x >>> (w - 1) = 0 := by
      rw [BitVec.toNat_eq, hshift, Nat.div_eq_of_lt h]
      simp
    simp [hzero, h]
  · have hone : x >>> (w - 1) = 1#w := by
      rw [BitVec.toNat_eq, hshift, BitVec.toNat_one hw]
      exact Nat.div_eq_of_lt_le (by omega) (by omega)
    rw [hone, if_pos (by simpa using h)]
    exact BitVec.neg_one_eq_allOnes

/-- **The borrow as a mask.** Adding q back where the difference borrowed is adding q masked by the top bit. -/
theorem smallReduce_eq_masked (x : BitVec F.intBits) :
    F.smallReduce x = x - F.qInt + (F.qInt &&& -((x - F.qInt) >>> (F.intBits - 1))) := by
  unfold smallReduce
  rw [neg_topBit]
  simp only
  split
  · rw [BitVec.and_allOnes]
  · simp

/-! ## Barrett reduction -/

/-- the reciprocal of q, if two to the width of a product fits the widest word -/
def reciprocal? (F : Modulus) : Option (BitVec F.wideBits) := do
  let scale ← shiftLeft? 1 F.longBits
  some (scale / F.qWide)

/-- the Barrett reduction of `x`, if no step loses bits -/
def barrettReduce? (F : Modulus) (x : BitVec F.longBits) : Option (BitVec F.intBits) := do
  let x ← resize? F.wideBits x
  let scaled ← mul? x F.reciprocal
  let multiple ← mul? (scaled >>> F.longBits) F.qWide
  let remainder ← sub? x multiple
  let remainder ← resize? F.intBits remainder
  some (F.smallReduce remainder)

/-- the widest word holds two to the width of a product -/
theorem scale_lt (F : Modulus) : 2 ^ F.longBits < 2 ^ F.wideBits := by
  have h2 : 2 * F.q < 2 ^ F.longBits := F.double_lt.trans_le F.intBits_le_longBits
  have hq := F.q_pos
  have htwo : 2 ≤ 2 ^ F.longBits / F.q := (Nat.le_div_iff_mul_le hq).2 h2.le
  calc 2 ^ F.longBits ≤ (2 ^ F.longBits - 1) * 2 := by omega
    _ ≤ (2 ^ F.longBits - 1) * (2 ^ F.longBits / F.q) := Nat.mul_le_mul_left _ htwo
    _ < 2 ^ F.wideBits := F.quotient_lt

theorem reciprocal?_eq (F : Modulus) : F.reciprocal? = some F.reciprocal := by
  have hone : (1 : BitVec F.wideBits).toNat = 1 :=
    BitVec.toNat_one (Nat.pos_of_ne_zero fun h => by
      have := F.scale_lt
      rw [h] at this
      have := Nat.two_pow_pos F.longBits
      omega)
  have hscale : shiftLeft? (1 : BitVec F.wideBits) F.longBits = some (BitVec.ofNat F.wideBits (2 ^ F.longBits)) := by
    rw [shiftLeft?_eq_some_iff, hone, BitVec.toNat_ofNat, Nat.mod_eq_of_lt F.scale_lt, Nat.one_mul]
  unfold reciprocal?
  rw [hscale]
  refine congrArg some (BitVec.eq_of_toNat_eq ?_)
  rw [BitVec.toNat_udiv, toNat_reciprocal, toNat_qWide, BitVec.toNat_ofNat, Nat.mod_eq_of_lt F.scale_lt]

theorem barrettReduce?_eq (x : BitVec F.longBits) : F.barrettReduce? x = some (F.barrettReduce x) := by
  have hwidened := resize?_eq_some_iff.2 (toNat_widened x)
  have hscaled : mul? (x.setWidth F.wideBits) F.reciprocal = some (x.setWidth F.wideBits * F.reciprocal) := by
    rw [mul?_eq_some_iff, toNat_scaled, toNat_widened, toNat_reciprocal]
  have hmultiple := mul?_eq_some_iff.2 ((toNat_multiple x).trans
    (congr (congrArg HMul.hMul (toNat_quotient x).symm) F.toNat_qWide.symm))
  have hremainder : sub? (x.setWidth F.wideBits)
      ((x.setWidth F.wideBits * F.reciprocal) >>> F.longBits * F.qWide) =
        some (x.setWidth F.wideBits - (x.setWidth F.wideBits * F.reciprocal) >>> F.longBits * F.qWide) := by
    rw [sub?_eq_some_iff, toNat_remainder, toNat_multiple, toNat_widened]
    exact Nat.sub_add_cancel (F.quotient_mul_q_le _)
  have hnarrow := resize?_eq_some_iff.2 ((toNat_narrow_remainder x).trans (toNat_remainder x).symm)
  unfold barrettReduce?
  simp only [hwidened, hscaled, hmultiple, hremainder, hnarrow, Option.bind_eq_bind, Option.bind_some]
  rfl

end Modulus

/-! ## Operations -/

namespace Elem

variable {a b : Elem F}

/-- the sum, if no step loses bits -/
def add? (a b : Elem F) : Option (Elem F) := do
  let sum ← Word.add? a.rep b.rep
  some ⟨F.smallReduce sum⟩

/-- the difference, if no step loses bits or falls below zero -/
def sub? (a b : Elem F) : Option (Elem F) := do
  let raised ← Word.add? a.rep F.qInt
  let difference ← Word.sub? raised b.rep
  some ⟨F.smallReduce difference⟩

/-- the negation, if no step loses bits or falls below zero -/
def neg? (a : Elem F) : Option (Elem F) := sub? 0 a

/-- the product, if no step loses bits -/
def mul? (a b : Elem F) : Option (Elem F) := do
  let x ← resize? F.longBits a.rep
  let y ← resize? F.longBits b.rep
  let product ← Word.mul? x y
  let reduced ← F.barrettReduce? product
  some ⟨reduced⟩

theorem add?_eq (ha : a.Reduced) (hb : b.Reduced) : add? a b = some (a + b) := by
  unfold add?
  rw [add?_eq_some_iff.2 (toNat_sum ha hb)]
  rfl

theorem sub?_eq (ha : a.Reduced) (hb : b.Reduced) : sub? a b = some (a - b) := by
  have hraised : Word.add? a.rep F.qInt = some (a.rep + F.qInt) := by
    rw [add?_eq_some_iff, toNat_raised ha, F.toNat_qInt]
    rfl
  have hdifference : Word.sub? (a.rep + F.qInt) b.rep = some (a.rep + F.qInt - b.rep) := by
    rw [sub?_eq_some_iff, toNat_difference ha hb, toNat_raised ha]
    exact Nat.sub_add_cancel (hb.le.trans (Nat.le_add_left _ _))
  unfold sub?
  rw [hraised, Option.bind_eq_bind, Option.bind_some, hdifference]
  rfl

theorem mul?_eq (ha : a.Reduced) (hb : b.Reduced) : mul? a b = some (a * b) := by
  have hproduct : Word.mul? a.long b.long = some (a.long * b.long) := by
    rw [mul?_eq_some_iff, long_mul_toNat ha hb, toNat_long, toNat_long]
  unfold mul?
  rw [resize?_eq_some_iff.2 (toNat_long a), resize?_eq_some_iff.2 (toNat_long b)]
  simp only [Option.bind_eq_bind, Option.bind_some, hproduct, Modulus.barrettReduce?_eq]
  rfl

/-- the computation `r` refuses no step and gives `a`, and `a` is reduced and congruent to `n` -/
def Exact (r : Option (Elem F)) (a : Elem F) (n : ℤ) : Prop := r = some a ∧ a.Reduced ∧ (a.val : ℤ) = n % F.q

theorem exact_add (ha : a.Reduced) (hb : b.Reduced) : Exact (add? a b) (a + b) (a.val + b.val) := by
  refine ⟨add?_eq ha hb, reduced_add ha hb, ?_⟩
  rw [val_add ha hb]
  push_cast
  rfl

theorem exact_sub (ha : a.Reduced) (hb : b.Reduced) : Exact (sub? a b) (a - b) (a.val - b.val) := by
  refine ⟨sub?_eq ha hb, reduced_sub ha hb, ?_⟩
  rw [val_sub ha hb]
  push_cast [Nat.cast_sub (hb.le.trans (Nat.le_add_left F.q a.val))]
  rw [add_sub_right_comm, Int.add_emod_right]

theorem exact_neg (ha : a.Reduced) : Exact (neg? a) (-a) (-a.val) := by
  have h := exact_sub reduced_zero ha
  rwa [show (0 : Elem F).val = 0 from val_ofNat F.q_pos, Nat.cast_zero, zero_sub] at h

theorem exact_mul (ha : a.Reduced) (hb : b.Reduced) : Exact (mul? a b) (a * b) (a.val * b.val) := by
  refine ⟨mul?_eq ha hb, reduced_mul a b, ?_⟩
  rw [val_mul ha hb]
  push_cast
  rfl

end Elem

/-! ## Every modulus and every width -/

open Elem (Exact add? sub? neg? mul?)

/-- **Exact arithmetic.** Whatever the modulus and the three widths, if only they are admissible: a Barrett reduction is
the remainder of every word that holds a product, a small reduction that of every word below 2q, and sums, differences,
negations and products of reduced elements are the reduced elements that they should be. No step but the borrow of a
small reduction, which the top bit tells, loses a bit or falls below zero. -/
theorem arithmetic_exact (F : Modulus) :
    F.reciprocal? = some F.reciprocal ∧
    (∀ x, F.barrettReduce? x = some (F.barrettReduce x) ∧ (F.barrettReduce x).toNat = x.toNat % F.q) ∧
    (∀ x, F.smallReduce x = x - F.qInt + (F.qInt &&& -((x - F.qInt) >>> (F.intBits - 1)))) ∧
    (∀ x, x.toNat < 2 * F.q → (F.smallReduce x).toNat = x.toNat % F.q) ∧
    ∀ a b : Elem F, a.Reduced → b.Reduced →
      Exact (add? a b) (a + b) (a.val + b.val) ∧ Exact (sub? a b) (a - b) (a.val - b.val) ∧
      Exact (neg? a) (-a) (-a.val) ∧ Exact (mul? a b) (a * b) (a.val * b.val) := by
  refine ⟨F.reciprocal?_eq, fun x => ⟨Modulus.barrettReduce?_eq x, Modulus.toNat_barrettReduce x⟩,
    Modulus.smallReduce_eq_masked, ?_, ?_⟩
  · intro x hx
    exact Modulus.toNat_smallReduce hx
  · intro a b ha hb
    exact ⟨Elem.exact_add ha hb, Elem.exact_sub ha hb, Elem.exact_neg ha, Elem.exact_mul ha hb⟩

/-- the largest elements of the largest modulus that fits four bytes -/
theorem arithmetic_exact_largest :
    let F : Modulus := { q := 2147483647, intBits := 32, longBits := 64, wideBits := 128 }
    let a := Elem.ofNat F 2147483646
    let x : BitVec F.intBits := BitVec.ofNat 32 4294967293
    a.Reduced ∧ Exact (add? a a) (a + a) (a.val + a.val) ∧ Exact (sub? a a) (a - a) (a.val - a.val) ∧
      Exact (neg? a) (-a) (-a.val) ∧ Exact (mul? a a) (a * a) (a.val * a.val) ∧
      x.toNat < 2 * F.q ∧ (F.smallReduce x).toNat = x.toNat % F.q := by
  intro F a x
  have ha : a.Reduced := Elem.reduced_ofNat (by decide)
  have hx : x.toNat < 2 * F.q := by decide
  obtain ⟨-, -, -, hsmall, hops⟩ := arithmetic_exact F
  obtain ⟨hadd, hsub, hneg, hmul⟩ := hops a a ha ha
  exact ⟨ha, hadd, hsub, hneg, hmul, hx, hsmall x hx⟩

end PostQuantum.PrimeField
