/-
Strings byte by byte, without an early exit.

Secrets are compared and chosen by loops that go through all bytes and do the same work for each of them, whatever the
bytes are.
- `same_eq`: the loop that compares decides equality.
- `assign_eq`: the loop that assigns gives one string or the other as a whole (`ofList?_assign`).
-/
import Mathlib.Tactic
import PostQuantum.Bytes

namespace PostQuantum.ConstantTime

/-- equality of two strings: of their lengths, then of each two bytes in one place -/
def same (a b : List UInt8) : Bool :=
  a.length == b.length && (a.zip b).foldl (fun all pair => all && pair.1 == pair.2) true

/-- each byte assigned the one in its place among `others`, or each left; bytes past the end of `others` are left -/
def assign (replace : Bool) : (bytes others : List UInt8) → List UInt8
  | x :: bytes, y :: others => (if replace then y else x) :: assign replace bytes others
  | bytes, _ => bytes

theorem foldl_same {a b : List UInt8} (h : a.length = b.length) (all : Bool) :
    (a.zip b).foldl (fun all pair => all && pair.1 == pair.2) all = (all && decide (a = b)) := by
  induction a generalizing b all with
  | nil =>
    obtain rfl := List.length_eq_zero_iff.1 h.symm
    simp
  | cons x a ih =>
    cases b with
    | nil => cases h
    | cons y b =>
      rw [List.zip_cons_cons, List.foldl_cons, ih (Nat.succ.inj h)]
      simp [Bool.and_assoc, beq_eq_decide]

/-- **Comparing every byte** decides equality. -/
theorem same_eq (a b : List UInt8) : same a b = decide (a = b) := by
  unfold same
  by_cases h : a.length = b.length
  · rw [foldl_same h]
    simp [h]
  · have hne : a ≠ b := fun hab => h (congrArg List.length hab)
    simp [h, hne]

/-- **Assigning every byte** gives one string or the other. -/
theorem assign_eq {bytes others : List UInt8} (h : bytes.length = others.length) (replace : Bool) :
    assign replace bytes others = if replace then others else bytes := by
  induction bytes generalizing others with
  | nil =>
    obtain rfl := List.length_eq_zero_iff.1 h.symm
    cases replace <;> rfl
  | cons x bytes ih =>
    cases others with
    | nil => cases h
    | cons y others =>
      rw [assign, ih (Nat.succ.inj h)]
      cases replace <;> rfl

theorem ofList?_assign {n : ℕ} (bytes others : Bytes n) (replace : Bool) :
    Bytes.ofList? n (assign replace bytes.toList others.toList) = some (if replace then others else bytes) := by
  rw [assign_eq (by simp)]
  cases replace with
  | true => exact Bytes.ofList?_toList others
  | false => exact Bytes.ofList?_toList bytes

end PostQuantum.ConstantTime
