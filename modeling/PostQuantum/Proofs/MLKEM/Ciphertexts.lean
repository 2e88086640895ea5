/-
What a ciphertext keeps of its two parts.

A ciphertext holds a vector and a polynomial, compressed to du and dv bits for each coefficient. It is written from
two parts (`ciphertextOf`) and read back as two parts (`ciphertextParts`), which are not those that it was written from.
- `compress_decompress`: a value of d bits comes back from decompression as it was.
- `ciphertextOf_ciphertextParts`: so every string of the right length is the ciphertext of the parts it is read as.
- `distance_decompress_compress`: a coefficient comes back from compression with an error of at most
  (q + 2^d) / 2^(d + 1), rounded down.
- `ciphertext_compression`: both for whole ciphertexts.
-/
import Mathlib.Tactic
import Mathlib.Data.ZMod.ValMinAbs
import PostQuantum.Proofs.MLKEM.Encodings
import PostQuantum.Proofs.MLKEM.Encryption

namespace PostQuantum.MLKEM

open PrimeField

variable {d k : ℕ} {x y : Coeff} {f : Rq} {p : ParameterSet}

/-! ## Both roundings -/

theorem two_pow_eq_double (hd : 0 < d) : 2 ^ d = 2 * 2 ^ (d - 1) := by
  rw [← pow_succ', Nat.sub_add_cancel hd]

/-- decompression rounds: 2^d times its result is q y, up to half of 2^d -/
theorem decompress_near (hd : 0 < d) (hd12 : d ≤ 12) (hy : y.val < 2 ^ d) :
    2 ^ d * (decompress d y).val ≤ 3329 * y.val + 2 ^ (d - 1) ∧
      3329 * y.val < 2 ^ d * (decompress d y).val + 2 ^ (d - 1) := by
  have hdouble := two_pow_eq_double hd
  have hdiv := Nat.div_add_mod (3329 * y.val + 2 ^ (d - 1)) (2 ^ d)
  have hmod := Nat.mod_lt (3329 * y.val + 2 ^ (d - 1)) (Nat.two_pow_pos d)
  rw [val_decompress hd hd12 hy]
  omega

/-- compression rounds: q times its result, with what it cuts off above d bits, is 2^d x, up to half of q -/
theorem compress_near (hd11 : d ≤ 11) (hx : x.Reduced) :
    ∃ m, 3329 * ((compress d x).val + 2 ^ d * m) ≤ 2 ^ d * x.val + 1664 ∧
      2 ^ d * x.val ≤ 3329 * ((compress d x).val + 2 ^ d * m) + 1664 := by
  refine ⟨(2 ^ d * x.val + 1664) / 3329 / 2 ^ d, ?_⟩
  rw [val_compress hd11 hx, Nat.mod_add_div]
  omega

/-! ## From d bits and back -/

/-- **Compression undoes decompression.** Decompressing y rounds by half of 2^d at most, which is 1024 at most, and
compression rounds to the nearest multiple of q = 3329. -/
theorem compress_decompress (hd : 0 < d) (hd11 : d ≤ 11) (hy : y.val < 2 ^ d) : compress d (decompress d y) = y := by
  obtain ⟨hupper, hlower⟩ := decompress_near hd (by omega) hy
  have hhalf : 2 ^ (d - 1) ≤ 2 ^ 10 := Nat.pow_le_pow_right (by norm_num) (by omega)
  have hquotient : (2 ^ d * (decompress d y).val + 1664) / 3329 = y.val := by omega
  refine Elem.ext_val ?_
  rw [val_compress hd11 (decompress_reduced hd (by omega) hy), hquotient, Nat.mod_eq_of_lt hy]

theorem compressPoly_decompressPoly (hd : 0 < d) (hd11 : d ≤ 11) (hf : FitsBits d f.coeffs) :
    compressPoly d (decompressPoly d f) = f := by
  refine Poly.ext_get fun i => ?_
  rw [compressPoly_get, decompressPoly_get]
  exact compress_decompress hd hd11 (hf i)

theorem compressVec_decompressVec (hd : 0 < d) (hd11 : d ≤ 11) {v : RqVec k}
    (hv : ∀ i, FitsBits d (v.polys.get i).coeffs) : compressVec d (decompressVec d v) = v := by
  refine PolyVec.ext_get fun i => ?_
  rw [compressVec_get, decompressVec_get]
  exact compressPoly_decompressPoly hd hd11 (hv i)

theorem decodeVec_fitsBits (hd12 : d ≤ 12) (bytes : Bytes (k * (32 * d))) (i : Fin k) :
    FitsBits d ((decodeVec k d bytes).polys.get i).coeffs := by
  rw [decodeVec_get]
  exact byteDecode_fitsBits hd12 _

/-- **A ciphertext is written as it was read**, whatever its bytes are. -/
theorem ciphertextOf_ciphertextParts (c : Bytes p.ciphertextSize) : ciphertextOf p (ciphertextParts c) = c := by
  obtain ⟨hdu, hdu11⟩ := du_bounds p
  obtain ⟨hdv, hdv11⟩ := dv_bounds p
  have hvector : encodeVec p.du (decodeVec p.k p.du (Bytes.split c).1) = (Bytes.split c).1 :=
    (packs_encodeVec (by omega) p.k).roundTrips.encode_decode (by omega) _
  have hscalar : byteEncode p.dv (byteDecode p.dv (Bytes.split c).2) = (Bytes.split c).2 :=
    byteEncode_byteDecode (by omega) _
  have hkept : compressPoly p.dv (decompressPoly p.dv ⟨byteDecode p.dv (Bytes.split c).2⟩) = ⟨byteDecode p.dv _⟩ :=
    compressPoly_decompressPoly hdv hdv11 (byteDecode_fitsBits (by omega) _)
  unfold ciphertextOf ciphertextParts
  simp only
  rw [compressVec_decompressVec hdu hdu11 (decodeVec_fitsBits (by omega) _), hvector, hkept, hscalar]
  exact Bytes.append_split c

theorem ciphertextParts_injective (p : ParameterSet) : Function.Injective (@ciphertextParts p) :=
  Function.LeftInverse.injective ciphertextOf_ciphertextParts

/-! ## To d bits and back -/

/-- how far two coefficients are apart modulo q -/
def distance (x y : Coeff) : ℕ := (x.residue - y.residue).valMinAbs.natAbs

/-- the distance is the least among all differences that are equal modulo q -/
theorem distance_le (x y : Coeff) (m : ℤ) : distance x y ≤ (x.val - y.val + 3329 * m : ℤ).natAbs := by
  have hq : ((3329 : ℤ) : Zq) = 0 := ZMod.natCast_self 3329
  have hcast : ((x.val - y.val + 3329 * m : ℤ) : Zq) = x.residue - y.residue := by
    rw [Int.cast_add, Int.cast_mul, hq, zero_mul, add_zero, Int.cast_sub, Int.cast_natCast, Int.cast_natCast]
    rfl
  refine ZMod.natAbs_min_of_le_div_two 3329 _ _ ?_ (ZMod.natAbs_valMinAbs_le _)
  exact (ZMod.coe_valMinAbs _).trans hcast.symm

/-- **What compression loses of a coefficient.** Each way rounds by half a unit at most. -/
theorem distance_decompress_compress (hd : 0 < d) (hd11 : d ≤ 11) (hx : x.Reduced) :
    distance (decompress d (compress d x)) x ≤ (3329 + 2 ^ d) / 2 ^ (d + 1) := by
  obtain ⟨m, hc1, hc2⟩ := compress_near hd11 hx
  obtain ⟨hd1, hd2⟩ := decompress_near hd (by omega) (val_compress_lt (d := d) (by omega) x)
  have hdouble := two_pow_eq_double hd
  -- the multiple of 2^d that is cut off comes back as a multiple of q, which the distance does not see
  set e : ℤ := (decompress d (compress d x)).val - x.val + 3329 * m with he
  have hle : distance (decompress d (compress d x)) x ≤ e.natAbs := distance_le _ _ m
  have hscaled : |2 ^ d * e| ≤ 1664 + 2 ^ (d - 1) := by
    zify at hc1 hc2 hd1 hd2
    rw [he, abs_le]
    constructor <;> linarith
  have herror : 2 ^ d * e.natAbs ≤ 1664 + 2 ^ (d - 1) := by
    zify
    rwa [abs_mul, abs_of_pos (by positivity)] at hscaled
  refine hle.trans ?_
  rw [Nat.le_div_iff_mul_le (Nat.two_pow_pos _), pow_succ, Nat.mul_comm, Nat.mul_right_comm]
  omega

theorem distance_lossy (hd : 0 < d) (hd11 : d ≤ 11) (hf : f.Reduced) (i : Fin 256) :
    distance ((lossy d f).coeffs.get i) (f.coeffs.get i) ≤ (3329 + 2 ^ d) / 2 ^ (d + 1) := by
  unfold lossy
  rw [decompressPoly_get, compressPoly_get]
  exact distance_decompress_compress hd hd11 (hf i)

/-! ## Ciphertexts -/

/-- **Compression of ciphertexts.** Encryption writes the ciphertext of its two parts, and decryption reads a ciphertext
as two parts. Every string of the right length is read as reduced parts and written from them byte for byte, so no two
strings are read as the same parts. The other way, each coefficient of reduced parts comes back with an error of at most
(q + 2^d) / 2^(d + 1), rounded down, d being du in the vector and dv in the polynomial. -/
theorem ciphertext_compression (p : ParameterSet) :
    (∀ H (ek : EncryptionKey p) m r, ek.encrypt H m r = ciphertextOf p (ek.noisyParts H m r)) ∧
    (∀ c : Bytes p.ciphertextSize,
      (ciphertextParts c).1.Reduced ∧ (ciphertextParts c).2.Reduced ∧ ciphertextOf p (ciphertextParts c) = c) ∧
    Function.Injective (@ciphertextParts p) ∧
    ∀ (u : RqVec p.k) (v : Rq), u.Reduced → v.Reduced →
      let received := ciphertextParts (ciphertextOf p (u, v))
      (∀ i j, distance ((received.1.polys.get i).coeffs.get j) ((u.polys.get i).coeffs.get j) ≤
        (3329 + 2 ^ p.du) / 2 ^ (p.du + 1)) ∧
      ∀ j, distance (received.2.coeffs.get j) (v.coeffs.get j) ≤ (3329 + 2 ^ p.dv) / 2 ^ (p.dv + 1) := by
  refine ⟨fun H ek m r => encrypt_eq_ciphertextOf H p m r ek, fun c => ?_, ciphertextParts_injective p, ?_⟩
  · obtain ⟨hvector, hscalar⟩ := ciphertextParts_reduced p c
    exact ⟨hvector, hscalar, ciphertextOf_ciphertextParts c⟩
  · intro u v hu hv
    obtain ⟨hdu, hdu11⟩ := du_bounds p
    obtain ⟨hdv, hdv11⟩ := dv_bounds p
    rw [ciphertextParts_ciphertextOf]
    refine ⟨fun i j => ?_, fun j => distance_lossy hdv hdv11 hv j⟩
    rw [decompressVec_get, compressVec_get]
    exact distance_lossy hdu hdu11 (hu i) j

/-- the largest errors of ML-KEM-768, on parts that reach them -/
theorem ciphertext_compression_largest :
    let u : RqVec 3 := ⟨Vector.replicate 3 ⟨Vector.replicate 256 (Elem.ofNat z3329 5)⟩⟩
    let v : Rq := ⟨Vector.replicate 256 (Elem.ofNat z3329 104)⟩
    let received := ciphertextParts (ciphertextOf .mlKem768 (u, v))
    u.Reduced ∧ v.Reduced ∧
    (∀ i j, distance ((received.1.polys.get i).coeffs.get j) ((u.polys.get i).coeffs.get j) ≤ 2) ∧
    (∀ j, distance (received.2.coeffs.get j) (v.coeffs.get j) ≤ 104) ∧
    distance (decompress 10 (compress 10 (Elem.ofNat z3329 5))) (Elem.ofNat z3329 5) = 2 ∧
    distance (decompress 4 (compress 4 (Elem.ofNat z3329 104))) (Elem.ofNat z3329 104) = 104 := by
  intro u v received
  obtain ⟨-, -, -, hbound⟩ := ciphertext_compression .mlKem768
  have hu : u.Reduced := fun i j => by
    rw [get_replicate, get_replicate]
    decide
  have hv : v.Reduced := fun j => by
    rw [get_replicate]
    decide
  obtain ⟨hvector, hscalar⟩ := hbound u v hu hv
  refine ⟨hu, hv, hvector, hscalar, ?_, ?_⟩
  · decide
  · decide

end PostQuantum.MLKEM
