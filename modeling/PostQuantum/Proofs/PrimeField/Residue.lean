/-
The word arithmetic of a prime field is arithmetic modulo q.

`Elem.residue` is the element of Z/q that a representation stands for. The facts about words come first:
- `toNat_smallReduce`: below 2q, a small reduction is the remainder modulo q;
- `toNat_barrettReduce`: a Barrett reduction is the remainder modulo q, for every word it takes.
From them, for reduced operands, each operation is reduced and has the residue that it should have. Products are
reduced and right whatever the operands are. Reduced elements with equal residues are equal (`eq_of_residue_eq`), so
an equation between reduced elements is settled in Z/q.
-/
import Mathlib.Tactic
import Mathlib.Data.ZMod.Basic
import PostQuantum.PrimeField

namespace PostQuantum.PrimeField

open Word

variable {F : Modulus}

namespace Modulus

theorem q_pos (F : Modulus) : 0 < F.q :=
  lt_of_lt_of_le Nat.two_pos F.admissible.two_le_q

instance (F : Modulus) : NeZero F.q := ⟨F.q_pos.ne'⟩

theorem double_lt (F : Modulus) : 2 * F.q < 2 ^ F.intBits := by
  simpa [Nat.shiftLeft_eq] using F.admissible.double_lt

theorem q_lt (F : Modulus) : F.q < 2 ^ F.intBits := by
  have h := F.double_lt
  omega

theorem intBits_le_longBits (F : Modulus) : 2 ^ F.intBits ≤ 2 ^ F.longBits :=
  Nat.pow_le_pow_right Nat.two_pos F.admissible.int_le_long

theorem product_lt (F : Modulus) : (F.q - 1) * (F.q - 1) < 2 ^ F.longBits := by
  simpa [Nat.shiftLeft_eq] using F.admissible.product_lt

theorem quotient_lt (F : Modulus) : (2 ^ F.longBits - 1) * (2 ^ F.longBits / F.q) < 2 ^ F.wideBits := by
  simpa [Nat.shiftLeft_eq] using F.admissible.quotient_lt

theorem reciprocal_pos (F : Modulus) : 0 < 2 ^ F.longBits / F.q :=
  Nat.div_pos (F.q_lt.le.trans F.intBits_le_longBits) F.q_pos

/-- the widest word holds whatever a product word holds -/
theorem longBits_le_wideBits (F : Modulus) : 2 ^ F.longBits ≤ 2 ^ F.wideBits := by
  have h : 2 ^ F.longBits - 1 ≤ (2 ^ F.longBits - 1) * (2 ^ F.longBits / F.q) :=
    Nat.le_mul_of_pos_right _ F.reciprocal_pos
  have hq := F.quotient_lt
  omega

theorem toNat_qInt (F : Modulus) : F.qInt.toNat = F.q :=
  BitVec.toNat_ofNat .. |>.trans (Nat.mod_eq_of_lt F.q_lt)

theorem toNat_qWide (F : Modulus) : F.qWide.toNat = F.q :=
  BitVec.toNat_ofNat .. |>.trans
    (Nat.mod_eq_of_lt (F.q_lt.trans_le (F.intBits_le_longBits.trans F.longBits_le_wideBits)))

theorem toNat_reciprocal (F : Modulus) : F.reciprocal.toNat = 2 ^ F.longBits / F.q := by
  unfold reciprocal
  rw [Nat.shiftLeft_eq, Nat.one_mul, BitVec.toNat_ofNat]
  refine Nat.mod_eq_of_lt ?_
  have h : 2 ^ F.longBits / F.q ≤ (2 ^ F.longBits - 1) * (2 ^ F.longBits / F.q) := by
    have h2 : 2 * F.q < 2 ^ F.longBits := F.double_lt.trans_le F.intBits_le_longBits
    exact Nat.le_mul_of_pos_left _ (by have := F.q_pos; omega)
  exact h.trans_lt F.quotient_lt

/-! ## The reductions -/

/-- **Small reduction.** Below 2q, one conditional subtraction is the remainder. The subtraction wraps exactly below
q, and then the difference has its top bit set since twice the modulus fits the word. -/
theorem toNat_smallReduce {x : BitVec F.intBits} (hx : x.toNat < 2 * F.q) :
    (F.smallReduce x).toNat = x.toNat % F.q := by
  have hd := F.double_lt
  have hw : 2 ^ F.intBits = 2 * 2 ^ (F.intBits - 1) := by
    have h0 : F.intBits ≠ 0 := by
      rintro h0
      rw [h0] at hd
      have := F.q_pos
      omega
    conv_lhs => rw [← Nat.succ_pred_eq_of_ne_zero h0]
    exact Nat.pow_succ'
  have hdiff : (x - F.qInt).toNat = if x.toNat < F.q then 2 ^ F.intBits - F.q + x.toNat else x.toNat - F.q := by
    rw [BitVec.toNat_sub, toNat_qInt]
    split
    case isTrue h => exact Nat.mod_eq_of_lt (by omega)
    case isFalse h =>
      rw [show 2 ^ F.intBits - F.q + x.toNat = x.toNat - F.q + 2 ^ F.intBits by omega, Nat.add_mod_right]
      exact Nat.mod_eq_of_lt (by omega)
  have hmsb : (x - F.qInt).msb = decide (x.toNat < F.q) := by
    rw [BitVec.msb_eq_decide, hdiff]
    by_cases h : x.toNat < F.q <;> simp [h] <;> omega
  unfold smallReduce
  simp only [hmsb, decide_eq_true_eq]
  split
  case isTrue h =>
    rw [BitVec.sub_add_cancel, Nat.mod_eq_of_lt h]
  case isFalse h =>
    rw [hdiff, if_neg h, Nat.mod_eq_sub_mod (Nat.le_of_not_lt h)]
    exact (Nat.mod_eq_of_lt (by omega)).symm

/-- a quotient by the truncated reciprocal is at most one too small -/
theorem sub_quotient_mul_lt {q scale x : ℕ} (hq : 0 < q) (hx : x < scale) :
    x - x * (scale / q) / scale * q < 2 * q := by
  set quotient := x * (scale / q) / scale
  set rest := x * (scale / q) % scale
  have hs : 0 < scale := Nat.zero_lt_of_lt hx
  have hscale : scale = scale / q * q + scale % q := (Nat.div_add_mod' scale q).symm
  have hproduct : x * (scale / q) = quotient * scale + rest := (Nat.div_add_mod' _ scale).symm
  have hrest : rest * q < scale * q := Nat.mul_lt_mul_of_pos_right (Nat.mod_lt _ hs) hq
  have hmod : x * (scale % q) ≤ scale * q := Nat.mul_le_mul hx.le (Nat.mod_lt _ hq).le
  -- scaled up, the remainder splits into what the two divisions left over
  have hscaled : x * scale < (quotient * q + 2 * q) * scale := by
    calc x * scale = x * (scale / q * q + scale % q) := congrArg (x * ·) hscale
      _ = x * (scale / q) * q + x * (scale % q) := by ring
      _ = (quotient * scale + rest) * q + x * (scale % q) := by rw [hproduct]
      _ = quotient * q * scale + (rest * q + x * (scale % q)) := by ring
      _ < quotient * q * scale + (scale * q + scale * q) := by omega
      _ = (quotient * q + 2 * q) * scale := by ring
  have hlt : x < quotient * q + 2 * q := Nat.lt_of_mul_lt_mul_right hscaled
  omega

theorem quotient_mul_le {q scale x : ℕ} (hs : 0 < scale) : x * (scale / q) / scale * q ≤ x := by
  refine Nat.le_of_mul_le_mul_right ?_ hs
  calc x * (scale / q) / scale * q * scale = x * (scale / q) / scale * scale * q := by ring
    _ ≤ x * (scale / q) * q := Nat.mul_le_mul_right q (Nat.div_mul_le_self _ _)
    _ = x * (scale / q * q) := by ring
    _ ≤ x * scale := Nat.mul_le_mul_left x (Nat.div_mul_le_self _ _)

section Barrett

variable (x : BitVec F.longBits)

/-- the quotient that Barrett reduction subtracts -/
def quotient (F : Modulus) (x : ℕ) : ℕ := x * (2 ^ F.longBits / F.q) / 2 ^ F.longBits

theorem quotient_mul_q_le (F : Modulus) (x : ℕ) : F.quotient x * F.q ≤ x :=
  quotient_mul_le (Nat.two_pow_pos _)

theorem remainder_lt : x.toNat - F.quotient x.toNat * F.q < 2 * F.q :=
  sub_quotient_mul_lt F.q_pos x.isLt

theorem toNat_widened : (x.setWidth F.wideBits).toNat = x.toNat := by
  rw [BitVec.toNat_setWidth]
  exact Nat.mod_eq_of_lt (x.isLt.trans_le F.longBits_le_wideBits)

theorem toNat_scaled : (x.setWidth F.wideBits * F.reciprocal).toNat = x.toNat * (2 ^ F.longBits / F.q) := by
  have hx := x.isLt
  rw [BitVec.toNat_mul, toNat_widened, toNat_reciprocal]
  exact Nat.mod_eq_of_lt ((Nat.mul_le_mul_right _ (by omega)).trans_lt F.quotient_lt)

theorem toNat_quotient : ((x.setWidth F.wideBits * F.reciprocal) >>> F.longBits).toNat = F.quotient x.toNat := by
  rw [BitVec.toNat_ushiftRight, toNat_scaled, Nat.shiftRight_eq_div_pow]
  rfl

theorem toNat_multiple :
    ((x.setWidth F.wideBits * F.reciprocal) >>> F.longBits * F.qWide).toNat = F.quotient x.toNat * F.q := by
  rw [BitVec.toNat_mul, toNat_quotient, toNat_qWide]
  exact Nat.mod_eq_of_lt ((F.quotient_mul_q_le _).trans_lt (x.isLt.trans_le F.longBits_le_wideBits))

theorem toNat_remainder :
    (x.setWidth F.wideBits - (x.setWidth F.wideBits * F.reciprocal) >>> F.longBits * F.qWide).toNat =
      x.toNat - F.quotient x.toNat * F.q := by
  rw [BitVec.toNat_sub_of_le, toNat_widened, toNat_multiple]
  rw [BitVec.le_def, toNat_multiple, toNat_widened]
  exact F.quotient_mul_q_le _

theorem toNat_narrow_remainder :
    (narrow F.intBits
      (x.setWidth F.wideBits - (x.setWidth F.wideBits * F.reciprocal) >>> F.longBits * F.qWide)).toNat =
        x.toNat - F.quotient x.toNat * F.q := by
  unfold narrow
  rw [BitVec.toNat_setWidth, toNat_remainder]
  exact Nat.mod_eq_of_lt ((remainder_lt x).trans F.double_lt)

/-- **Barrett reduction.** It is the remainder, for every word that it takes. -/
theorem toNat_barrettReduce : (F.barrettReduce x).toNat = x.toNat % F.q := by
  unfold barrettReduce
  simp only
  rw [toNat_smallReduce (by rw [toNat_narrow_remainder]; exact remainder_lt x), toNat_narrow_remainder]
  conv_rhs => rw [← Nat.sub_add_cancel (F.quotient_mul_q_le x.toNat)]
  rw [Nat.add_mul_mod_self_right]

end Barrett

end Modulus

/-! ## Elements -/

namespace Elem

variable {a b : Elem F}

/-- the element of Z/q that a representation stands for -/
def residue (a : Elem F) : ZMod F.q := a.val

theorem ext_val (h : a.val = b.val) : a = b := by
  cases a
  cases b
  exact congrArg mk (BitVec.eq_of_toNat_eq h)

/-- **Reduced representations are unique.** -/
theorem eq_of_residue_eq (ha : a.Reduced) (hb : b.Reduced) (h : a.residue = b.residue) : a = b := by
  have hmod : a.val % F.q = b.val % F.q := (ZMod.natCast_eq_natCast_iff' ..).1 h
  rw [Nat.mod_eq_of_lt ha, Nat.mod_eq_of_lt hb] at hmod
  exact ext_val hmod

theorem val_ofNat {n : ℕ} (h : n < F.q) : (ofNat F n).val = n :=
  BitVec.toNat_ofNat .. |>.trans (Nat.mod_eq_of_lt (h.trans F.q_lt))

theorem reduced_ofNat {n : ℕ} (h : n < F.q) : (ofNat F n).Reduced := by
  unfold Reduced
  rwa [val_ofNat h]

theorem residue_ofNat {n : ℕ} (h : n < F.q) : (ofNat F n).residue = n :=
  congrArg Nat.cast (val_ofNat h)

theorem reduced_zero : (0 : Elem F).Reduced := reduced_ofNat F.q_pos

theorem residue_zero : (0 : Elem F).residue = 0 := (residue_ofNat F.q_pos).trans Nat.cast_zero

/-! ### The words that operations form -/

theorem toNat_sum (ha : a.Reduced) (hb : b.Reduced) : (a.rep + b.rep).toNat = a.val + b.val := by
  have hd := F.double_lt
  rw [BitVec.toNat_add]
  unfold Reduced val at *
  exact Nat.mod_eq_of_lt (by omega)

theorem toNat_raised (ha : a.Reduced) : (a.rep + F.qInt).toNat = a.val + F.q := by
  have hd := F.double_lt
  rw [BitVec.toNat_add, F.toNat_qInt]
  unfold Reduced val at *
  exact Nat.mod_eq_of_lt (by omega)

theorem toNat_difference (ha : a.Reduced) (hb : b.Reduced) :
    (a.rep + F.qInt - b.rep).toNat = a.val + F.q - b.val := by
  have hle : b.rep ≤ a.rep + F.qInt := by
    rw [BitVec.le_def, toNat_raised ha]
    exact hb.le.trans (Nat.le_add_left _ _)
  rw [BitVec.toNat_sub_of_le hle, toNat_raised ha]
  rfl

theorem toNat_long (a : Elem F) : a.long.toNat = a.val := by
  unfold long
  rw [BitVec.toNat_setWidth]
  exact Nat.mod_eq_of_lt (a.rep.isLt.trans_le F.intBits_le_longBits)

/-- the product of two representations fits the word that holds products -/
theorem long_mul_toNat (ha : a.Reduced) (hb : b.Reduced) : (a.long * b.long).toNat = a.val * b.val := by
  rw [BitVec.toNat_mul, toNat_long, toNat_long]
  unfold Reduced at ha hb
  have hle : a.val * b.val ≤ (F.q - 1) * (F.q - 1) := Nat.mul_le_mul (by omega) (by omega)
  exact Nat.mod_eq_of_lt (hle.trans_lt F.product_lt)

/-! ### The operations -/

theorem val_add (ha : a.Reduced) (hb : b.Reduced) : (a + b).val = (a.val + b.val) % F.q := by
  rw [← toNat_sum ha hb]
  refine Modulus.toNat_smallReduce ?_
  rw [toNat_sum ha hb]
  unfold Reduced at *
  omega

theorem val_sub (ha : a.Reduced) (hb : b.Reduced) : (a - b).val = (a.val + F.q - b.val) % F.q := by
  rw [← toNat_difference ha hb]
  refine Modulus.toNat_smallReduce ?_
  rw [toNat_difference ha hb]
  unfold Reduced at *
  omega

theorem val_mul (ha : a.Reduced) (hb : b.Reduced) : (a * b).val = a.val * b.val % F.q := by
  rw [← long_mul_toNat ha hb]
  exact Modulus.toNat_barrettReduce _

theorem reduced_add (ha : a.Reduced) (hb : b.Reduced) : (a + b).Reduced := by
  unfold Reduced
  rw [val_add ha hb]
  exact Nat.mod_lt _ F.q_pos

theorem reduced_sub (ha : a.Reduced) (hb : b.Reduced) : (a - b).Reduced := by
  unfold Reduced
  rw [val_sub ha hb]
  exact Nat.mod_lt _ F.q_pos

/-- products are reduced, whatever the operands -/
theorem reduced_mul (a b : Elem F) : (a * b).Reduced := by
  change (F.barrettReduce (a.long * b.long)).toNat < F.q
  rw [Modulus.toNat_barrettReduce]
  exact Nat.mod_lt _ F.q_pos

theorem residue_add (ha : a.Reduced) (hb : b.Reduced) : (a + b).residue = a.residue + b.residue := by
  unfold residue
  rw [val_add ha hb, ZMod.natCast_mod, Nat.cast_add]

theorem residue_sub (ha : a.Reduced) (hb : b.Reduced) : (a - b).residue = a.residue - b.residue := by
  unfold residue
  rw [val_sub ha hb, ZMod.natCast_mod, Nat.cast_sub (hb.le.trans (Nat.le_add_left _ _)), Nat.cast_add,
    ZMod.natCast_self, add_zero]

theorem residue_mul (ha : a.Reduced) (hb : b.Reduced) : (a * b).residue = a.residue * b.residue := by
  unfold residue
  rw [val_mul ha hb, ZMod.natCast_mod, Nat.cast_mul]

/-- the representation is the residue as a number below q -/
theorem val_residue (ha : a.Reduced) : a.residue.val = a.val := by
  unfold residue
  rw [ZMod.val_natCast]
  exact Nat.mod_eq_of_lt ha

end Elem

end PostQuantum.PrimeField
