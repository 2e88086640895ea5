/-
Word arithmetic that refuses to lose bits.

Sums, differences, products, shifts and narrowings of words, each defined only where it is what it would be on numbers
without a bound. A computation written with them has a value exactly if none of its steps wraps, underflows or drops a
bit that is set, and then it is the computation on words.
- `add?_eq_some_iff` and the like: an operation has a value exactly if that value is right as a number.
- `foldlM_eq_some_foldl`: a fold none of whose steps refuses is the fold on words.
-/
import Mathlib.Tactic
import PostQuantum.Word

namespace PostQuantum.Word

variable {w n : ℕ}

/-! ## Operations -/

/-- the sum, if it does not wrap -/
def add? (x y : BitVec w) : Option (BitVec w) := if x.uaddOverflow y then none else some (x + y)

/-- the difference, if it is not negative -/
def sub? (x y : BitVec w) : Option (BitVec w) := if x.usubOverflow y then none else some (x - y)

/-- the product, if it does not wrap -/
def mul? (x y : BitVec w) : Option (BitVec w) := if x.umulOverflow y then none else some (x * y)

/-- the word moved up by `k` bits, if no bit that is set drops out -/
def shiftLeft? (x : BitVec w) (k : ℕ) : Option (BitVec w) :=
  if x.toNat <<< k < 2 ^ w then some (x <<< k) else none

/-- the word in `m` bits, if no bit that is set drops out -/
def resize? (m : ℕ) (x : BitVec w) : Option (BitVec m) := if x.toNat < 2 ^ m then some (x.setWidth m) else none

/-! ## What a result says -/

theorem add?_eq_some_iff {x y z : BitVec w} : add? x y = some z ↔ z.toNat = x.toNat + y.toNat := by
  have hz := z.isLt
  unfold add?
  rcases h : x.uaddOverflow y with _ | _
  · simp only [BitVec.uaddOverflow, ge_iff_le, decide_eq_false_iff_not, not_le] at h
    simp [BitVec.toNat_eq, BitVec.toNat_add, Nat.mod_eq_of_lt h, eq_comm]
  · simp only [BitVec.uaddOverflow, ge_iff_le, decide_eq_true_eq] at h
    simp only [if_true, reduceCtorEq, false_iff]
    omega

theorem sub?_eq_some_iff {x y z : BitVec w} : sub? x y = some z ↔ z.toNat + y.toNat = x.toNat := by
  unfold sub?
  rcases h : x.usubOverflow y with _ | _
  · simp only [BitVec.usubOverflow, decide_eq_false_iff_not, not_lt] at h
    have hsub : (x - y).toNat = x.toNat - y.toNat := BitVec.toNat_sub_of_le h
    simp only [Bool.false_eq_true, if_false, Option.some.injEq, BitVec.toNat_eq, hsub]
    omega
  · simp only [BitVec.usubOverflow, decide_eq_true_eq] at h
    simp only [if_true, reduceCtorEq, false_iff]
    omega

theorem mul?_eq_some_iff {x y z : BitVec w} : mul? x y = some z ↔ z.toNat = x.toNat * y.toNat := by
  have hz := z.isLt
  unfold mul?
  rcases h : x.umulOverflow y with _ | _
  · simp only [BitVec.umulOverflow, ge_iff_le, decide_eq_false_iff_not, not_le] at h
    simp [BitVec.toNat_eq, BitVec.toNat_mul, Nat.mod_eq_of_lt h, eq_comm]
  · simp only [BitVec.umulOverflow, ge_iff_le, decide_eq_true_eq] at h
    simp only [if_true, reduceCtorEq, false_iff]
    omega

theorem shiftLeft?_eq_some_iff {x z : BitVec w} {k : ℕ} :
    shiftLeft? x k = some z ↔ z.toNat = x.toNat * 2 ^ k := by
  have hz := z.isLt
  unfold shiftLeft?
  rw [Nat.shiftLeft_eq]
  split
  case isTrue h => simp [BitVec.toNat_eq, Nat.shiftLeft_eq, Nat.mod_eq_of_lt h, eq_comm]
  case isFalse h =>
    simp only [reduceCtorEq, false_iff]
    omega

theorem resize?_eq_some_iff {m : ℕ} {x : BitVec w} {z : BitVec m} : resize? m x = some z ↔ z.toNat = x.toNat := by
  have hz := z.isLt
  unfold resize?
  split
  case isTrue h => simp [BitVec.toNat_eq, Nat.mod_eq_of_lt h, eq_comm]
  case isFalse h =>
    simp only [reduceCtorEq, false_iff]
    omega

/-! ## Loops -/

/-- a loop none of whose steps refuses -/
theorem foldlM_eq_some_foldl {α β : Type} {step? : β → α → Option β} {step : β → α → β} {items : List α}
    (h : ∀ acc, ∀ a ∈ items, step? acc a = some (step acc a)) (acc : β) :
    items.foldlM step? acc = some (items.foldl step acc) := by
  induction items generalizing acc with
  | nil => rfl
  | cons a items ih =>
    rw [List.foldlM_cons, h acc a List.mem_cons_self, List.foldl_cons]
    exact ih (fun acc b hb => h acc b (List.mem_cons_of_mem a hb)) (step acc a)

end PostQuantum.Word
