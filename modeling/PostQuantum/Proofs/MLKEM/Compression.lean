/-
Compression rounds to the nearest integer.

- `val_compress`: for d up to 11, a reduced coefficient x is compressed to (2^d x + 1664) / 3329 modulo 2^d, rounded
  down; the product with the reciprocal makes no error, since q leaves 2083 as the remainder of 2^34.
- `val_decompress`: y is decompressed to (3329 y + 2^(d - 1)) / 2^d, rounded down.
- `val_compress_eq_round`, `val_decompress_eq_round`: these are the rationals 2^d x / q and q y / 2^d, rounded.
- `compress_one_eq_zero_iff`: one bit tells whether the centered coefficient lies between -832 and 832.
-/
import Mathlib.Tactic
import Mathlib.Algebra.Order.Round
import PostQuantum.Proofs.MLKEM.Factors
import PostQuantum.Proofs.MLKEM.Packing
import PostQuantum.MLKEM.Compression

namespace PostQuantum.MLKEM

open PrimeField Word

variable {d : ℕ} {x y : Coeff}

/-! ## Coefficients -/

/-- the product with the reciprocal divides by q, one more in the dividend making up for the truncation -/
theorem reciprocal_divides {n : ℕ} (hn : n ≤ 2048 * 3329) : (n + 1) * 5160669 / 2 ^ 34 = n / 3329 := by
  have hsplit := Nat.div_add_mod n 3329
  have hmod := Nat.mod_lt n (show 0 < 3329 by norm_num)
  have hquotient : n / 3329 ≤ 2048 := Nat.div_le_of_le_mul (by omega)
  refine (Nat.div_eq_iff (by norm_num)).2 ⟨?_, ?_⟩ <;> omega

theorem toNat_setWidth_rep {w : ℕ} (hw : 16 ≤ w) (x : Coeff) : (x.rep.setWidth w).toNat = x.val := by
  rw [BitVec.toNat_setWidth]
  exact Nat.mod_eq_of_lt (x.rep.isLt.trans_le (Nat.pow_le_pow_right (by norm_num) hw))

/-- the bound on all that compression forms before it divides -/
theorem shifted_le (hd11 : d ≤ 11) (hx : x.Reduced) : 2 ^ d * x.val ≤ 2 ^ 11 * 3328 :=
  Nat.mul_le_mul (Nat.pow_le_pow_right (by norm_num) hd11) (Nat.le_of_lt_succ hx)

theorem toNat_shifted (hd11 : d ≤ 11) (hx : x.Reduced) : (x.rep.setWidth 64 <<< d).toNat = 2 ^ d * x.val := by
  have hle := shifted_le hd11 hx
  rw [BitVec.toNat_shiftLeft, toNat_setWidth_rep (by norm_num), Nat.shiftLeft_eq, Nat.mul_comm]
  exact Nat.mod_eq_of_lt (by omega)

theorem toNat_halfModulus : halfModulus.toNat = 1665 := by decide

theorem toNat_divMultiplier : divMultiplier.toNat = 5160669 := by decide

theorem toNat_rounded (hd11 : d ≤ 11) (hx : x.Reduced) :
    (x.rep.setWidth 64 <<< d + halfModulus).toNat = 2 ^ d * x.val + 1664 + 1 := by
  have hle := shifted_le hd11 hx
  rw [BitVec.toNat_add, toNat_shifted hd11 hx, toNat_halfModulus]
  exact Nat.mod_eq_of_lt (by omega)

theorem toNat_dividend (hd11 : d ≤ 11) (hx : x.Reduced) :
    ((x.rep.setWidth 64 <<< d + halfModulus) * divMultiplier).toNat = (2 ^ d * x.val + 1664 + 1) * 5160669 := by
  have hle := shifted_le hd11 hx
  rw [BitVec.toNat_mul, toNat_rounded hd11 hx, toNat_divMultiplier]
  exact Nat.mod_eq_of_lt (by omega)

/-- the quotient that compression takes the low bits of -/
theorem toNat_quotient (hd11 : d ≤ 11) (hx : x.Reduced) :
    ((((x.rep.setWidth 64 <<< d) + halfModulus) * divMultiplier) >>> 34).toNat = (2 ^ d * x.val + 1664) / 3329 := by
  have hle := shifted_le hd11 hx
  rw [BitVec.toNat_ushiftRight, toNat_dividend hd11 hx, Nat.shiftRight_eq_div_pow, reciprocal_divides (by omega)]

theorem val_narrow_mask (hd16 : d ≤ 16) (w : BitVec 64) :
    (⟨narrow 16 (w &&& lowMask 64 d)⟩ : Coeff).val = w.toNat % 2 ^ d := by
  have hpow : 2 ^ d ≤ 2 ^ 16 := Nat.pow_le_pow_right (by norm_num) hd16
  change (narrow 16 (w &&& lowMask 64 d)).toNat = _
  rw [narrow, BitVec.toNat_setWidth, BitVec.toNat_and, toNat_lowMask (by omega), Nat.and_two_pow_sub_one_eq_mod]
  exact Nat.mod_eq_of_lt ((Nat.mod_lt _ (Nat.two_pow_pos d)).trans_le hpow)

theorem val_compress_lt (hd16 : d ≤ 16) (x : Coeff) : (compress d x).val < 2 ^ d := by
  rw [compress, val_narrow_mask hd16]
  exact Nat.mod_lt _ (Nat.two_pow_pos d)

/-- **Compression rounds** 2^d x / q, modulo 2^d. -/
theorem val_compress (hd11 : d ≤ 11) (hx : x.Reduced) :
    (compress d x).val = (2 ^ d * x.val + 1664) / 3329 % 2 ^ d := by
  rw [compress, val_narrow_mask (by omega), toNat_quotient hd11 hx]

theorem compress_reduced (hd11 : d ≤ 11) (x : Coeff) : (compress d x).Reduced := by
  have hlt := val_compress_lt (d := d) (by omega) x
  have hpow : 2 ^ d ≤ 2 ^ 11 := Nat.pow_le_pow_right (by norm_num) hd11
  have hq : 2 ^ 11 ≤ z3329.q := by decide
  exact hlt.trans_le (hpow.trans hq)

theorem decompressed_lt (hd : 0 < d) (hd12 : d ≤ 12) {n : ℕ} (hn : n < 2 ^ d) :
    (3329 * n + 2 ^ (d - 1)) / 2 ^ d < 3329 := by
  have hhalf : 2 ^ (d - 1) ≤ 2 ^ 11 := Nat.pow_le_pow_right (by norm_num) (by omega)
  exact Nat.div_lt_of_lt_mul (by omega)

theorem toNat_product (y : Coeff) : (y.rep.setWidth 32 * BitVec.ofNat 32 3329).toNat = 3329 * y.val := by
  have hy : y.val < 2 ^ 16 := y.rep.isLt
  have hq : (BitVec.ofNat 32 3329).toNat = 3329 := by decide
  rw [BitVec.toNat_mul, toNat_setWidth_rep (by norm_num), hq, Nat.mul_comm]
  exact Nat.mod_eq_of_lt (by omega)

theorem toNat_half (hd12 : d ≤ 12) : (BitVec.ofNat 32 (1 <<< (d - 1))).toNat = 2 ^ (d - 1) := by
  have hhalf : 2 ^ (d - 1) ≤ 2 ^ 11 := Nat.pow_le_pow_right (by norm_num) (by omega)
  rw [BitVec.toNat_ofNat, Nat.shiftLeft_eq, Nat.one_mul]
  exact Nat.mod_eq_of_lt (by omega)

theorem toNat_raisedProduct (hd12 : d ≤ 12) (y : Coeff) :
    (y.rep.setWidth 32 * BitVec.ofNat 32 3329 + BitVec.ofNat 32 (1 <<< (d - 1))).toNat =
      3329 * y.val + 2 ^ (d - 1) := by
  have hy : y.val < 2 ^ 16 := y.rep.isLt
  have hhalf : 2 ^ (d - 1) ≤ 2 ^ 11 := Nat.pow_le_pow_right (by norm_num) (by omega)
  rw [BitVec.toNat_add, toNat_product, toNat_half hd12]
  exact Nat.mod_eq_of_lt (by omega)

/-- **Decompression rounds** q y / 2^d. -/
theorem val_decompress (hd : 0 < d) (hd12 : d ≤ 12) (hy : y.val < 2 ^ d) :
    (decompress d y).val = (3329 * y.val + 2 ^ (d - 1)) / 2 ^ d := by
  have hquotient : (3329 * y.val + 2 ^ (d - 1)) / 2 ^ d < 3329 := decompressed_lt hd hd12 hy
  change (narrow 16 ((y.rep.setWidth 32 * BitVec.ofNat 32 3329 + BitVec.ofNat 32 (1 <<< (d - 1))) >>> d)).toNat = _
  rw [narrow, BitVec.toNat_setWidth, BitVec.toNat_ushiftRight, toNat_raisedProduct hd12, Nat.shiftRight_eq_div_pow]
  exact Nat.mod_eq_of_lt (hquotient.trans (by norm_num))

theorem decompress_reduced (hd : 0 < d) (hd12 : d ≤ 12) (hy : y.val < 2 ^ d) : (decompress d y).Reduced := by
  unfold Elem.Reduced
  rw [val_decompress hd hd12 hy]
  exact decompressed_lt hd hd12 hy

/-! ## Rounding -/

/-- a quotient rounded to the nearest integer, with halves going up -/
theorem round_div (n : ℕ) {m : ℕ} (hm : 0 < m) : round ((n : ℚ) / m) = ((2 * n + m) / (2 * m) : ℕ) := by
  have hm' : (m : ℚ) ≠ 0 := Nat.cast_ne_zero.2 hm.ne'
  have hhalf : (n : ℚ) / m + 1 / 2 = ((2 * n + m : ℕ) : ℚ) / ((2 * m : ℕ) : ℚ) := by
    push_cast
    field_simp
  rw [round_eq, hhalf]
  exact Rat.floor_natCast_div_natCast _ _

theorem val_compress_eq_round (hd11 : d ≤ 11) (hx : x.Reduced) :
    ((compress d x).val : ℤ) = round ((2 ^ d * x.val : ℚ) / 3329) % 2 ^ d := by
  have hround : round ((2 ^ d * x.val : ℚ) / 3329) = ((2 ^ d * x.val + 1664) / 3329 : ℕ) := by
    have h := round_div (2 ^ d * x.val) (m := 3329) (by norm_num)
    rw [show (2 * (2 ^ d * x.val) + 3329) / (2 * 3329) = (2 ^ d * x.val + 1664) / 3329 by omega] at h
    exact_mod_cast h
  rw [hround, val_compress hd11 hx]
  exact_mod_cast rfl

theorem val_decompress_eq_round (hd : 0 < d) (hd12 : d ≤ 12) (hy : y.val < 2 ^ d) :
    ((decompress d y).val : ℤ) = round ((3329 * y.val : ℚ) / 2 ^ d) := by
  have hpow : 2 ^ d = 2 * 2 ^ (d - 1) := by
    rw [← pow_succ', Nat.sub_add_cancel hd]
  have hround := round_div (3329 * y.val) (Nat.two_pow_pos d)
  have hhalf : (2 * (3329 * y.val) + 2 ^ d) / (2 * 2 ^ d) = (3329 * y.val + 2 ^ (d - 1)) / 2 ^ d := by
    rw [← Nat.mul_div_mul_left (3329 * y.val + 2 ^ (d - 1)) _ Nat.two_pos, Nat.mul_add, ← hpow]
  rw [hhalf] at hround
  rw [val_decompress hd hd12 hy, ← hround]
  push_cast
  rfl

/-! ## One bit -/

/-- one bit is clear for the coefficients that lie nearer to zero than to q / 2 -/
theorem compress_one_eq_zero_iff (hx : x.Reduced) : compress 1 x = 0 ↔ x.val ≤ 832 ∨ 2497 ≤ x.val := by
  have hx' : x.val ≤ 3328 := Nat.le_of_lt_succ hx
  have hval := val_compress (d := 1) (by norm_num) hx
  constructor
  · intro h
    rw [h] at hval
    change 0 = _ at hval
    omega
  · intro h
    refine Elem.ext_val (hval.trans ?_)
    change _ = 0
    omega

theorem decompress_one_zero : decompress 1 0 = 0 := by
  decide

theorem decompress_one_one : decompress 1 1 = Elem.ofNat z3329 1665 := by
  decide

/-! ## Polynomials and vectors -/

section Vectors

variable {k : ℕ}

theorem compressPoly_get (d : ℕ) (f : Rq) (i : Fin 256) :
    (compressPoly d f).coeffs.get i = compress d (f.coeffs.get i) :=
  get_map _ _ i

theorem decompressPoly_get (d : ℕ) (f : Rq) (i : Fin 256) :
    (decompressPoly d f).coeffs.get i = decompress d (f.coeffs.get i) :=
  get_map _ _ i

theorem compressVec_get (d : ℕ) (v : RqVec k) (i : Fin k) :
    (compressVec d v).polys.get i = compressPoly d (v.polys.get i) :=
  get_map _ _ i

theorem decompressVec_get (d : ℕ) (v : RqVec k) (i : Fin k) :
    (decompressVec d v).polys.get i = decompressPoly d (v.polys.get i) :=
  get_map _ _ i

theorem compressPoly_fitsBits (hd16 : d ≤ 16) (f : Rq) : FitsBits d (compressPoly d f).coeffs := by
  intro i
  rw [compressPoly_get]
  exact val_compress_lt hd16 _

theorem compressPoly_reduced (hd11 : d ≤ 11) (f : Rq) : (compressPoly d f).Reduced := by
  intro i
  rw [compressPoly_get]
  exact compress_reduced hd11 _

theorem compressVec_reduced (hd11 : d ≤ 11) (v : RqVec k) : (compressVec d v).Reduced := by
  intro i
  rw [compressVec_get]
  exact compressPoly_reduced hd11 _

theorem decompressPoly_reduced (hd : 0 < d) (hd12 : d ≤ 12) {f : Rq} (hf : FitsBits d f.coeffs) :
    (decompressPoly d f).Reduced := by
  intro i
  rw [decompressPoly_get]
  exact decompress_reduced hd hd12 (hf i)

/-- what compression keeps of a polynomial, decompressed -/
def lossy (d : ℕ) (f : Rq) : Rq := decompressPoly d (compressPoly d f)

theorem lossy_reduced (hd : 0 < d) (hd12 : d ≤ 12) (f : Rq) : (lossy d f).Reduced :=
  decompressPoly_reduced hd hd12 (compressPoly_fitsBits (by omega) f)

end Vectors

end PostQuantum.MLKEM
