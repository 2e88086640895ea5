/-
Repeated squares keep sums and products.

An element is its own negative, so in the square of a sum the cross terms cancel: squaring is additive, and it is
multiplicative as in every commutative ring. Both pass to any number of squares by induction. A power is a product of
so many factors (`Elem.power`), and k squares are the power 2^k.
- `Elem.square_add`, `Elem.square_mul`: one square of a sum and of a product.
- `Elem.squareN_add`, `Elem.squareN_mul`, `Elem.squareN_eq_power`: the same for k squares, and which power they are.
- `spread?_eq`, `Elem.square?_eq`, `Elem.squareN?_eq`: no step of a square drops a bit.
- `repeated_squares`: all this for every modulus, irreducible or not.
-/
import Mathlib.Tactic
import PostQuantum.Proofs.InRange
import PostQuantum.Proofs.BinaryField.Power

namespace PostQuantum.BinaryField

open Word
open InRange (andThen)

variable {m : Modulus} {x : BitVec 32} {k n : ℕ}

/-! ## Squares -/

namespace Elem

/-- the product of `n` factors `a` -/
def power (a : Elem m) : ℕ → Elem m
  | 0 => 1
  | n + 1 => a.power n * a

@[simp] theorem residue_power (a : Elem m) (n : ℕ) : (a.power n).residue = a.residue ^ n := by
  induction n with
  | zero => simp [power]
  | succ n ih => simp [power, ih, pow_succ]

/-- two equal summands cancel -/
theorem add_self (a : Elem m) : a + a = 0 := a.neg_add_cancel

theorem square_add (a b : Elem m) : (a + b).square = a.square + b.square := by
  have hcross : a.residue * b.residue + a.residue * b.residue = 0 := by
    rw [← residue_mul, ← residue_add, add_self, residue_zero]
  apply residue_injective
  simp only [residue_square, residue_add]
  linear_combination hcross

theorem square_mul (a b : Elem m) : (a * b).square = a.square * b.square := by
  apply residue_injective
  simp [mul_pow]

/-- **Repeated squares are additive.** -/
theorem squareN_add (a b : Elem m) (k : ℕ) : (a + b).squareN k = a.squareN k + b.squareN k := by
  induction k generalizing a b with
  | zero => rfl
  | succ k ih => rw [squareN, square_add, ih, squareN, squareN]

/-- **Repeated squares are multiplicative.** -/
theorem squareN_mul (a b : Elem m) (k : ℕ) : (a * b).squareN k = a.squareN k * b.squareN k := by
  induction k generalizing a b with
  | zero => rfl
  | succ k ih => rw [squareN, square_mul, ih, squareN, squareN]

theorem squareN_eq_power (a : Elem m) (k : ℕ) : a.squareN k = a.power (2 ^ k) := by
  apply residue_injective
  simp

end Elem

/-! ## No bit is lost -/

/-- a step of spreading: the bits of `mask` among those of the word and of the word moved up, if none drops out -/
def spreadStep? (k : ℕ) (mask x : BitVec 32) : Option (BitVec 32) := do
  let moved ← shiftLeft? x k
  some ((x ||| moved) &&& mask)

/-- the bits spread apart, if no step drops a bit -/
def spread? (x : BitVec 32) : Option (BitVec 32) := do
  let x ← spreadStep? 8 0x00ff00ff#32 x
  let x ← spreadStep? 4 0x0f0f0f0f#32 x
  let x ← spreadStep? 2 0x33333333#32 x
  spreadStep? 1 0x55555555#32 x

/-- the square, if no step drops a bit -/
def Elem.square? (a : Elem m) : Option (Elem m) := do
  let x ← resize? 32 a.bits
  let spread ← spread? x
  reduce? spread

/-- the element squared `k` times, if no step drops a bit -/
def Elem.squareN? (a : Elem m) : ℕ → Option (Elem m)
  | 0 => some a
  | k + 1 => do
    let square ← square? a
    squareN? square k

theorem spreadStep?_eq (mask : BitVec 32) (hx : x.toNat < 2 ^ n) (hn : n + k ≤ 32) :
    spreadStep? k mask x = some ((x ||| x <<< k) &&& mask) :=
  andThen (shiftLeft?_eq_some_iff.2 (toNat_shiftLeft_of_fits (shiftLeft_fits hx hn))) rfl

theorem spread?_eq (hx : x.toNat < 2 ^ 16) : spread? x = some (spread x) := by
  -- each mask leaves so many bits that the next step has room for them
  refine andThen (spreadStep?_eq 0x00ff00ff#32 hx (by norm_num)) ?_
  refine andThen (spreadStep?_eq (n := 24) 0x0f0f0f0f#32 (and_lt _ (by decide)) (by norm_num)) ?_
  refine andThen (spreadStep?_eq (n := 28) 0x33333333#32 (and_lt _ (by decide)) (by norm_num)) ?_
  exact spreadStep?_eq (n := 30) 0x55555555#32 (and_lt _ (by decide)) (by norm_num)

/-- **No step of a square drops a bit.** -/
theorem Elem.square?_eq (a : Elem m) : square? a = some a.square := by
  have hwide : a.wide.toNat < 2 ^ 16 := a.wide_lt.trans_le (Nat.pow_le_pow_right Nat.two_pos m.degree_le)
  refine andThen (resize?_eq_some_iff.2 (toNat_wide a)) ?_
  refine andThen (spread?_eq hwide) ?_
  exact reduce?_eq (spread_lt m.degree_le a.wide_lt)

theorem Elem.squareN?_eq (a : Elem m) (k : ℕ) : squareN? a k = some (a.squareN k) := by
  induction k generalizing a with
  | zero => rfl
  | succ k ih => exact andThen (square?_eq a) (ih a.square)

/-! ## Every modulus -/

/-- **Repeated squares.** Whatever the modulus, if only it is admissible: spreading the bits apart gives the product of
an element with itself. Squaring k times drops no bit and is the product of 2^k factors, and of a sum or a product it is
the sum or the product of what it is of the parts. -/
theorem repeated_squares (m : Modulus) (a b : Elem m) (k : ℕ) :
    a.square = a * a ∧
    Elem.squareN? a k = some (a.squareN k) ∧ a.squareN k = a.power (2 ^ k) ∧
    (a + b).squareN k = a.squareN k + b.squareN k ∧
    (a * b).squareN k = a.squareN k * b.squareN k := by
  refine ⟨a.square_eq_mul_self, a.squareN?_eq k, a.squareN_eq_power k, ?_, ?_⟩
  · exact a.squareN_add b k
  · exact a.squareN_mul b k

-- modulo z^8 + 1 = (z^4 + 1)^2, one square is zero already
example : (⟨0b00010001⟩ : Elem { name := "R8", degree := 8, tail := 1 }).square = 0 := by decide

end PostQuantum.BinaryField
