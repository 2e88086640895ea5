/-
Powers and inverses in a prime field.

A power reads the bits of its exponent from the top, with a square for each and a product with the base where it is set:
what it holds is the power of the bits read so far. The loop is written again for an exponent in a word of 64 bits,
which it reads from the highest bit that is set, with products that must not lose bits.
- `Elem.pow_run`: the bits that are left take the power of the bits before them to the power of the whole exponent.
- `Elem.val_pow`: so a power is that of the representation, modulo q.
- `Elem.bitLength_add_clz`, `Elem.pow?_eq`: the loop over the word takes the same bits and refuses no step.
- `Elem.mul_invert`, `Elem.div_mul`: if q is prime, the power q - 2 is the inverse, by Fermat's little theorem.
- `powers_and_inverses`: all this for every modulus and every width.
-/
import Mathlib.Tactic
import Mathlib.FieldTheory.Finite.Basic
import PostQuantum.Proofs.Bits
import PostQuantum.Proofs.InRange
import PostQuantum.Proofs.PrimeField.Exact

namespace PostQuantum.PrimeField

open Word
open InRange (andThen)

variable {F : Modulus}

namespace Elem

variable {a b acc : Elem F}

/-! ## Powers -/

theorem reduced_one : (1 : Elem F).Reduced := reduced_ofNat F.admissible.two_le_q

@[simp] theorem residue_one : (1 : Elem F).residue = 1 :=
  (residue_ofNat F.admissible.two_le_q).trans Nat.cast_one

/-- a square, and a product with the base where the bit is set -/
def powStep (a acc : Elem F) (bit : Bool) : Elem F := if bit then acc * acc * a else acc * acc

/-- the bits of `e` below place `l`, the highest first -/
def bitsBelow (e l : ℕ) : List Bool := (List.range l).reverse.map e.testBit

theorem bitsBelow_succ (e l : ℕ) : bitsBelow e (l + 1) = e.testBit l :: bitsBelow e l := by
  simp [bitsBelow, List.range_succ]

theorem reduced_powStep (bit : Bool) : (powStep a acc bit).Reduced := by
  cases bit with
  | false => exact reduced_mul acc acc
  | true => exact reduced_mul (acc * acc) a

theorem residue_powStep (ha : a.Reduced) (hacc : acc.Reduced) (bit : Bool) :
    (powStep a acc bit).residue = acc.residue ^ 2 * a.residue ^ bit.toNat := by
  have hsquare := residue_mul hacc hacc
  cases bit with
  | false => simp [powStep, hsquare, pow_two]
  | true => simp [powStep, residue_mul (reduced_mul acc acc) ha, hsquare, pow_two]

/-- **The run.** From the power of the bits above place `l`, the bits below it go on to the power `e`. -/
theorem pow_run (ha : a.Reduced) (e l : ℕ) (hacc : acc.Reduced) (h : acc.residue = a.residue ^ (e >>> l)) :
    ((bitsBelow e l).foldl (powStep a) acc).Reduced ∧
      ((bitsBelow e l).foldl (powStep a) acc).residue = a.residue ^ e := by
  induction l generalizing acc with
  | zero => exact ⟨hacc, h⟩
  | succ l ih =>
    rw [bitsBelow_succ, List.foldl_cons]
    refine ih (reduced_powStep _) ?_
    rw [residue_powStep ha hacc, h, ← pow_mul, ← pow_add, Nat.mul_comm, ← shiftRight_eq_two_mul_add]

/-- the number of bits of `e` -/
def bitLength (e : ℕ) : ℕ := if e = 0 then 0 else e.log2 + 1

theorem lt_two_pow_bitLength (e : ℕ) : e < 2 ^ bitLength e := by
  unfold bitLength
  split
  case isTrue h => simp [h]
  case isFalse => exact Nat.lt_log2_self

theorem pow_eq (a : Elem F) (e : ℕ) : a.pow e = (bitsBelow e (bitLength e)).foldl (powStep a) 1 := by
  have hbits : bitsFromTop e = bitsBelow e (bitLength e) := by
    unfold bitsFromTop bitLength bitsBelow
    split
    · rfl
    · rfl
  unfold pow
  rw [hbits]
  rfl

theorem pow_facts (ha : a.Reduced) (e : ℕ) : (a.pow e).Reduced ∧ (a.pow e).residue = a.residue ^ e := by
  rw [pow_eq]
  refine pow_run ha e _ reduced_one ?_
  rw [Nat.shiftRight_eq_div_pow, Nat.div_eq_of_lt (lt_two_pow_bitLength e), residue_one, pow_zero]

theorem reduced_pow (ha : a.Reduced) (e : ℕ) : (a.pow e).Reduced := (pow_facts ha e).1

theorem residue_pow (ha : a.Reduced) (e : ℕ) : (a.pow e).residue = a.residue ^ e := (pow_facts ha e).2

/-- **Powers**, as numbers. -/
theorem val_pow (ha : a.Reduced) (e : ℕ) : (a.pow e).val = a.val ^ e % F.q := by
  rw [← val_residue (reduced_pow ha e), residue_pow ha e, residue, ← Nat.cast_pow, ZMod.val_natCast]

/-! ## Exponents in a word -/

/-- one step for bit `i` of the exponent, if no product loses bits -/
def powStep? (a : Elem F) (e : BitVec 64) (acc : Elem F) (i : ℕ) : Option (Elem F) := do
  let square ← mul? acc acc
  if (e >>> i) &&& 1 = 1 then mul? square a else some square

/-- the power, from the highest bit of the exponent that is set, if no step loses bits -/
def pow? (a : Elem F) (e : BitVec 64) : Option (Elem F) := do
  let bits ← Word.sub? 64 e.clz
  (List.range bits.toNat).reverse.foldlM (powStep? a e) 1

theorem powStep?_eq (ha : a.Reduced) (hacc : acc.Reduced) (e : BitVec 64) (i : ℕ) :
    powStep? a e acc i = some (powStep a acc (e.toNat.testBit i)) := by
  unfold powStep?
  refine andThen (mul?_eq hacc hacc) ?_
  simp only [shiftRight_and_one_eq_one_iff (show 0 < 64 by norm_num), BitVec.getLsbD]
  rcases e.toNat.testBit i with _ | _
  · rfl
  · exact mul?_eq (reduced_mul acc acc) ha

/-- without the zeros at its top a word has as many bits as its number -/
theorem bitLength_add_clz (e : BitVec 64) : bitLength e.toNat + e.clz.toNat = 64 := by
  rcases eq_or_ne e 0 with rfl | he
  · rfl
  · have hpos : e.toNat ≠ 0 := fun h => he (BitVec.eq_of_toNat_eq h)
    have hclz : e.clz.toNat < 64 := BitVec.clz_lt_iff_ne_zero.2 he
    have hlow := BitVec.two_pow_sub_clz_le_toNat_of_ne_zero (by norm_num) he
    have hhigh := BitVec.toNat_lt_two_pow_sub_clz (x := e)
    have hlog : e.toNat.log2 = 64 - 1 - e.clz.toNat := by
      refine (Nat.log2_eq_iff hpos).2 ⟨hlow, ?_⟩
      rwa [show 64 - 1 - e.clz.toNat + 1 = 64 - e.clz.toNat by omega]
    rw [bitLength, if_neg hpos, hlog]
    omega

/-- **The loop over the word** refuses no step, and takes the bits of the exponent. -/
theorem pow?_eq (ha : a.Reduced) (e : BitVec 64) : pow? a e = some (a.pow e.toNat) := by
  have hlength := bitLength_add_clz e
  have hbits : Word.sub? 64 e.clz = some (BitVec.ofNat 64 (bitLength e.toNat)) := by
    rw [sub?_eq_some_iff, BitVec.toNat_ofNat, Nat.mod_eq_of_lt (by omega)]
    exact hlength
  refine andThen hbits ?_
  rw [BitVec.toNat_ofNat, Nat.mod_eq_of_lt (by omega), pow_eq, bitsBelow, List.foldl_map]
  -- reduced operands are all that the products need
  exact (InRange.foldlM_eq_foldl (powStep? a e) (fun acc i => powStep a acc (e.toNat.testBit i)) _
    (fun _ acc => acc.Reduced) reduced_one fun i _ acc hacc =>
      ⟨powStep?_eq ha hacc e _, reduced_powStep _⟩).1

/-! ## Inverses -/

/-- the power q - 2, if 64 bits hold the exponent and no step loses bits -/
def invert? (a : Elem F) : Option (Elem F) :=
  if F.inversionExponent < 2 ^ 64 then pow? a (BitVec.ofNat 64 F.inversionExponent) else none

/-- the quotient, if no step loses bits -/
def div? (a b : Elem F) : Option (Elem F) := do
  let inverse ← invert? b
  mul? a inverse

theorem reduced_invert (ha : a.Reduced) : a.invert.Reduced := reduced_pow ha _

theorem invert?_eq (hwidth : F.intBits ≤ 64) (ha : a.Reduced) : invert? a = some a.invert := by
  have hq := F.q_lt.trans_le (Nat.pow_le_pow_right Nat.two_pos hwidth)
  have hexponent : F.inversionExponent < 2 ^ 64 := (Nat.sub_le _ _).trans_lt hq
  rw [invert?, if_pos hexponent, pow?_eq ha, BitVec.toNat_ofNat, Nat.mod_eq_of_lt hexponent]
  rfl

theorem div?_eq (hwidth : F.intBits ≤ 64) (ha : a.Reduced) (hb : b.Reduced) : div? a b = some (a / b) :=
  andThen (invert?_eq hwidth hb) (mul?_eq ha (reduced_invert hb))

section Prime

variable (hq : F.q.Prime) (ha : a.Reduced) (hne : a ≠ 0)

include hq ha hne

/-- a residue that is not zero times its power q - 2, by Fermat's little theorem -/
theorem residue_mul_invert : a.residue * a.invert.residue = 1 := by
  have hprime : Fact F.q.Prime := ⟨hq⟩
  have hresidue : a.residue ≠ 0 := by
    intro h
    exact hne (eq_of_residue_eq ha reduced_zero (h.trans residue_zero.symm))
  have hexponent : F.q - 2 + 1 = F.q - 1 := by
    have htwo := hq.two_le
    omega
  calc a.residue * a.invert.residue = a.residue * a.residue ^ (F.q - 2) := by rw [invert, residue_pow ha]; rfl
    _ = a.residue ^ (F.q - 1) := by rw [← pow_succ', hexponent]
    _ = 1 := ZMod.pow_card_sub_one_eq_one hresidue

/-- **An element times its inverse.** -/
theorem mul_invert : a * a.invert = 1 := by
  refine eq_of_residue_eq (reduced_mul _ _) reduced_one ?_
  rw [residue_mul ha (reduced_invert ha), residue_mul_invert hq ha hne, residue_one]

/-- **A quotient times what it was divided by.** -/
theorem div_mul (hb : b.Reduced) : b / a * a = b := by
  have hinverse := reduced_invert ha
  refine eq_of_residue_eq (reduced_mul _ _) hb ?_
  calc (b / a * a).residue = (b * a.invert).residue * a.residue := residue_mul (reduced_mul _ _) ha
    _ = b.residue * a.invert.residue * a.residue := by rw [residue_mul hb hinverse]
    _ = b.residue * (a.residue * a.invert.residue) := by ring
    _ = b.residue := by rw [residue_mul_invert hq ha hne, mul_one]

end Prime

end Elem

/-! ## Every modulus and every width -/

open Elem (Exact pow? invert? div?)

/-- **Powers and inverses.** Whatever the modulus and the three widths, if only they are admissible: the power of a
reduced element by any exponent of 64 bits is the reduced element that it should be, and no step of it loses a bit; the
power 0 is one. Where elements have at most 64 bits, q - 2 is such an exponent, and inverses and quotients lose no bit
either. If q is prime, an element that is not zero times its inverse is one, and a quotient by it times it is what was
divided. -/
theorem powers_and_inverses (F : Modulus) :
    (∀ (a : Elem F) (e : BitVec 64), a.Reduced → Exact (pow? a e) (a.pow e.toNat) ((a.val ^ e.toNat : ℕ) : ℤ)) ∧
    (∀ a : Elem F, a.pow 0 = 1) ∧
    (∀ a b : Elem F, a.Reduced → b.Reduced →
      a.invert.Reduced ∧ (b / a).Reduced ∧
      (F.intBits ≤ 64 → invert? a = some a.invert ∧ div? b a = some (b / a)) ∧
      (F.q.Prime → a ≠ 0 → a * a.invert = 1 ∧ b / a * a = b)) := by
  refine ⟨fun a e ha => ?_, fun a => rfl, fun a b ha hb => ?_⟩
  · refine ⟨Elem.pow?_eq ha e, Elem.reduced_pow ha _, ?_⟩
    rw [Elem.val_pow ha]
    push_cast
    rfl
  · refine ⟨Elem.reduced_invert ha, Elem.reduced_mul _ _, fun hwidth => ?_, fun hq hne => ?_⟩
    · exact ⟨Elem.invert?_eq hwidth ha, Elem.div?_eq hwidth hb ha⟩
    · exact ⟨Elem.mul_invert hq ha hne, Elem.div_mul hq ha hne hb⟩

/-- modulo 8380417, in words of four bytes: the power q - 1 of 2 is one, and its inverse is 4190209 -/
theorem powers_and_inverses_two :
    let F : Modulus := { q := 8380417, intBits := 32, longBits := 64, wideBits := 128 }
    let a := Elem.ofNat F 2
    let b := Elem.ofNat F 8380416
    let e := 8380416#64
    F.q.Prime ∧ a.Reduced ∧ b.Reduced ∧ a ≠ 0 ∧ F.intBits ≤ 64 ∧
      Exact (pow? a e) (a.pow e.toNat) ((a.val ^ e.toNat : ℕ) : ℤ) ∧ a.pow e.toNat = 1 ∧
      invert? a = some a.invert ∧ a.invert = Elem.ofNat F 4190209 ∧ a * a.invert = 1 ∧ b / a * a = b := by
  intro F a b e
  have hq : F.q.Prime := by
    change Nat.Prime 8380417
    norm_num
  have ha : a.Reduced := Elem.reduced_ofNat (by decide)
  have hb : b.Reduced := Elem.reduced_ofNat (by decide)
  have hne : a ≠ 0 := by decide
  have hwidth : F.intBits ≤ 64 := by decide
  have hone : a.pow e.toNat = 1 := by decide +kernel
  have hinverse : a.invert = Elem.ofNat F 4190209 := by decide +kernel
  obtain ⟨hpow, -, hdivision⟩ := powers_and_inverses F
  obtain ⟨-, -, hexact, hfield⟩ := hdivision a b ha hb
  obtain ⟨hmul, hdiv⟩ := hfield hq hne
  exact ⟨hq, ha, hb, hne, hwidth, hpow a e ha, hone, (hexact hwidth).1, hinverse, hmul, hdiv⟩

end PostQuantum.PrimeField
