/-
K-PKE over the ring, and that the scheme computes it.

In the namespace `Schoolbook` vectors and matrices have entries in R_q = Z_q[X]/(X^256 + 1), every product is a
negacyclic schoolbook product, and compression rounds rationals. Nothing is transformed there, but for the entries of
the public matrix, which are drawn as residues. Vectors in T_q are read in R_q by `overRing`. Sampling and packing are
those of the scheme; what they come to on single bits is `encryption_on_bits`.
- `coeffs_compressPoly`, `value_decompressPoly`: compression rounds.
- `value_noiseVec`: the nonces that the scheme counts in bytes are those that are counted in numbers here.
- `vectorPart_eq`, `scalarPart_eq`, `value_noisyMessage_eq`: what is compressed, for keys of any origin.
- `schoolbook_encryption`: key generation, encryption and decryption are those over the ring, for all keys with reduced
  coefficients, all messages, all randomness and all ciphertexts.
-/
import Mathlib.Tactic
import Mathlib.Data.Matrix.Mul
import PostQuantum.Proofs.MLKEM.Decryption

namespace PostQuantum.MLKEM

open PrimeField Matrix

/-! ## The scheme over the ring -/

namespace Schoolbook

/-- Z_q[X]/(X^256 + 1) with the schoolbook product -/
abbrev R : Type := Negacyclic Zq 256

/-- 2^d x / q for each coefficient x, rounded to the nearest integer and taken modulo 2^d -/
def compress (d : ℕ) (a : R) : Vector Coeff 256 :=
  Vector.ofFn fun i => Elem.ofNat z3329 (round ((2 ^ d * (a i).val : ℚ) / 3329) % 2 ^ d).toNat

/-- q y / 2^d for each value y, rounded to the nearest integer -/
def decompress (d : ℕ) (v : Vector Coeff 256) : R :=
  fun i => (round ((3329 * (v.get i).val : ℚ) / 2 ^ d) : ℤ)

section Sampling

variable (H : Hashes)

/-- the noise polynomial of a seed for one nonce -/
def noise (eta : ℕ) (seed : Bytes 32) (nonce : ℕ) : R :=
  value (sampleNoise eta (H.prf eta seed (UInt8.ofNat nonce)))

/-- `k` noise polynomials, for the nonces from `first` on -/
def noiseVec (eta k : ℕ) (seed : Bytes 32) (first : ℕ) : Fin k → R :=
  fun i => noise H eta seed (first + i.val)

/-- the public matrix of a seed: entry (i, j) is the element whose residues the stream for j and i gives -/
def matrix (k : ℕ) (seed : Bytes 32) : Matrix (Fin k) (Fin k) R :=
  Matrix.of fun i j => value (nttInverse (sampleUniform (H.xof seed (UInt8.ofNat j.val) (UInt8.ofNat i.val))))

end Sampling

section Procedures

variable (H : Hashes) (p : ParameterSet)

/-- the secret vector s and the public vector A s + e of a seed, and the seed of A -/
def keyPair (d : Bytes 32) : (Fin p.k → R) × (Fin p.k → R) × Bytes 32 :=
  let (rho, sigma) := H.g (d.toList ++ [UInt8.ofNat p.k])
  let s := noiseVec H p.eta1 p.k sigma 0
  let e := noiseVec H p.eta1 p.k sigma p.k
  (s, matrix H p.k rho *ᵥ s + e, rho)

/-- the ciphertext of `m` for the public vector `t` and the matrix of `rho`, under the randomness `r` -/
def encrypt (t : Fin p.k → R) (rho m r : Bytes 32) : Bytes p.ciphertextSize :=
  let y := noiseVec H p.eta1 p.k r 0
  let e1 := noiseVec H p.eta2 p.k r p.k
  let e2 := noise H p.eta2 r (2 * p.k)
  let u := (matrix H p.k rho)ᵀ *ᵥ y + e1
  let v := t ⬝ᵥ y + e2 + decompress 1 (byteDecode 1 m)
  Bytes.append (Bytes.join (Vector.ofFn fun i => byteEncode p.du (compress p.du (u i))))
    (byteEncode p.dv (compress p.dv v))

/-- the message of a ciphertext under the secret vector `s` -/
def decrypt (s : Fin p.k → R) (c : Bytes p.ciphertextSize) : Bytes 32 :=
  let (c1, c2) := Bytes.split c
  let u : Fin p.k → R := fun i => decompress p.du (byteDecode p.du (Bytes.chunk c1 i))
  let v := decompress p.dv (byteDecode p.dv c2)
  byteEncode 1 (compress 1 (v - s ⬝ᵥ u))

end Procedures

end Schoolbook

/-! ## Compression -/

section Compression

variable {d : ℕ} {f : Rq}

/-- compression rounds, coefficient by coefficient -/
theorem coeffs_compressPoly (hd11 : d ≤ 11) (hf : f.Reduced) :
    (compressPoly d f).coeffs = Schoolbook.compress d (value f) := by
  refine ext_get fun i => Elem.ext_val ?_
  have hval : ((value f i).val : ℚ) = (f.coeffs.get i).val := congrArg Nat.cast (Elem.val_residue (hf i))
  have hround := val_compress_eq_round hd11 (hf i)
  have hlt : (compress d (f.coeffs.get i)).val < z3329.q := compress_reduced hd11 _
  rw [compressPoly_get, Schoolbook.compress, get_ofFn, hval, ← hround, Int.toNat_natCast, Elem.val_ofNat hlt]

theorem value_decompressPoly (hd : 0 < d) (hd12 : d ≤ 12) (hf : FitsBits d f.coeffs) :
    value (decompressPoly d f) = Schoolbook.decompress d f.coeffs := by
  funext i
  change ((decompressPoly d f).coeffs.get i).residue = _
  rw [decompressPoly_get, Schoolbook.decompress, ← val_decompress_eq_round hd hd12 (hf i), Int.cast_natCast]
  rfl

end Compression

/-! ## What is sampled -/

section Sampling

variable (H : Hashes) (p : ParameterSet) (d r : Bytes 32)

theorem noiseVec_get (eta k : ℕ) (seed : Bytes 32) (start : UInt8) (i : Fin k) :
    (H.noiseVec eta k seed start).polys.get i = sampleNoise eta (H.prf eta seed (start + UInt8.ofNat i.val)) :=
  get_ofFn _ i

/-- nonces counted in bytes are nonces counted in numbers -/
theorem value_noiseVec (eta k : ℕ) (seed : Bytes 32) (first : ℕ) (i : Fin k) :
    value ((H.noiseVec eta k seed (UInt8.ofNat first)).polys.get i) = Schoolbook.noiseVec H eta k seed first i := by
  -- bytes wrap around at 256, and so does the passage from numbers to bytes
  rw [noiseVec_get, ← UInt8.ofNat_add]
  rfl

theorem value_scalarError : value (scalarError H p r) = Schoolbook.noise H p.eta2 r (2 * p.k) := by
  unfold Schoolbook.noise
  rw [UInt8.ofNat_mul]
  rfl

theorem value_messagePoly (m : Bytes 32) : value (messagePoly m) = Schoolbook.decompress 1 (byteDecode 1 m) :=
  value_decompressPoly (by norm_num) (by norm_num) (byteDecode_fitsBits (d := 1) (by norm_num) m)

end Sampling

/-! ## The procedures -/

/-- the vector over the ring that a vector of residues is the transform of -/
def overRing {k : ℕ} (v : TqVec k) : Fin k → Schoolbook.R := fun i => value (nttInverse (v.polys.get i))

section Procedures

variable (H : Hashes) (p : ParameterSet) (d m r : Bytes 32)

theorem overRing_sHat : overRing (keyPair H p d).1.sHat = (Schoolbook.keyPair H p d).1 := by
  funext i
  rw [overRing, keyPair_sHat, nttVec_get, nttInverse_ntt (secret_reduced H p d i)]
  exact value_noiseVec H p.eta1 p.k _ 0 i

theorem overRing_tHat : overRing (keyPair H p d).2.tHat = (Schoolbook.keyPair H p d).2.1 := by
  funext i
  refine (value_tHat H p d i).trans (congrArg₂ (· + ·) (Finset.sum_congr rfl fun j _ => ?_) ?_)
  · exact congrArg (_ * ·) (value_noiseVec H p.eta1 p.k _ 0 j)
  · exact value_noiseVec H p.eta1 p.k _ p.k i

/-- the vector part of a ciphertext over the ring -/
theorem vectorPart_eq (ek : EncryptionKey p) :
    (fun i => value ((ek.noisyParts H m r).1.polys.get i)) =
      (Schoolbook.matrix H p.k ek.rho)ᵀ *ᵥ Schoolbook.noiseVec H p.eta1 p.k r 0 +
        Schoolbook.noiseVec H p.eta2 p.k r p.k := by
  funext i
  refine (value_vectorPart H p m r ek i).trans (congrArg₂ (· + ·) (Finset.sum_congr rfl fun j _ => ?_) ?_)
  · exact congrArg (_ * ·) (value_noiseVec H p.eta1 p.k r 0 j)
  · exact value_noiseVec H p.eta2 p.k r p.k i

/-- the scalar part of a ciphertext over the ring -/
theorem scalarPart_eq {ek : EncryptionKey p} (hek : ek.tHat.Reduced) :
    value (ek.noisyParts H m r).2 =
      overRing ek.tHat ⬝ᵥ Schoolbook.noiseVec H p.eta1 p.k r 0 + Schoolbook.noise H p.eta2 r (2 * p.k) +
        Schoolbook.decompress 1 (byteDecode 1 m) := by
  rw [value_scalarPart H p m r hek, value_scalarError, value_messagePoly]
  refine congrArg (· + _ + _) (Finset.sum_congr rfl fun j _ => ?_)
  exact congrArg (_ * ·) (value_noiseVec H p.eta1 p.k r 0 j)

theorem encrypt_eq {ek : EncryptionKey p} (hek : ek.tHat.Reduced) :
    ek.encrypt H m r = Schoolbook.encrypt H p (overRing ek.tHat) ek.rho m r := by
  obtain ⟨-, hdu⟩ := du_bounds p
  obtain ⟨-, hdv⟩ := dv_bounds p
  obtain ⟨hu, hv⟩ := noisyParts_reduced H p m r ek
  have hvector : encodeVec p.du (compressVec p.du (ek.noisyParts H m r).1) =
      Bytes.join (Vector.ofFn fun i =>
        byteEncode p.du (Schoolbook.compress p.du (value ((ek.noisyParts H m r).1.polys.get i)))) := by
    refine congrArg Bytes.join (ext_get fun i => ?_)
    rw [get_map, compressVec_get, get_ofFn, coeffs_compressPoly hdu (hu i)]
  have hpart := vectorPart_eq H p m r ek
  -- both sides are the two parts one after the other; the parts are reduced, so rounding is exact on them
  change Bytes.append (encodeVec p.du (compressVec p.du (ek.noisyParts H m r).1))
    (byteEncode p.dv (compressPoly p.dv (ek.noisyParts H m r).2).coeffs) = _
  rw [hvector, coeffs_compressPoly hdv hv, scalarPart_eq H p m r hek]
  simp only [funext_iff] at hpart
  simp only [hpart]
  rfl

variable {p}

/-- the message in noise over the ring -/
theorem value_noisyMessage_eq {dk : DecryptionKey p} (hdk : dk.sHat.Reduced) (c : Bytes p.ciphertextSize) :
    value (dk.noisyMessage c) =
      Schoolbook.decompress p.dv (byteDecode p.dv (Bytes.split c).2) -
        overRing dk.sHat ⬝ᵥ
          fun i => Schoolbook.decompress p.du (byteDecode p.du (Bytes.chunk (Bytes.split c).1 i)) := by
  obtain ⟨hdu, hdu11⟩ := du_bounds p
  obtain ⟨hdv, hdv11⟩ := dv_bounds p
  obtain ⟨hu, hv⟩ := ciphertextParts_reduced p c
  have hscalar : value (ciphertextParts c).2 = Schoolbook.decompress p.dv (byteDecode p.dv (Bytes.split c).2) :=
    value_decompressPoly hdv (by omega) (byteDecode_fitsBits (by omega) _)
  have hvector : ∀ i, value ((ciphertextParts c).1.polys.get i) =
      Schoolbook.decompress p.du (byteDecode p.du (Bytes.chunk (Bytes.split c).1 i)) := fun i => by
    change value ((decompressVec p.du (decodeVec p.k p.du (Bytes.split c).1)).polys.get i) = _
    rw [decompressVec_get, decodeVec_get]
    exact value_decompressPoly hdu (by omega) (byteDecode_fitsBits (by omega) _)
  change value ((ciphertextParts c).2 - nttInverse (dot dk.sHat (nttVec (ciphertextParts c).1))) = _
  rw [value_sub hv (nttInverse_reduced _), value_nttInverse_dot_nttVec hdk hu, hscalar]
  simp only [hvector]
  rfl

theorem decrypt_eq {dk : DecryptionKey p} (hdk : dk.sHat.Reduced) (c : Bytes p.ciphertextSize) :
    dk.decrypt c = Schoolbook.decrypt p (overRing dk.sHat) c := by
  change byteEncode 1 (compressPoly 1 (dk.noisyMessage c)).coeffs = _
  rw [coeffs_compressPoly (by norm_num) (noisyMessage_reduced dk c), value_noisyMessage_eq hdk]
  rfl

end Procedures

/-- **K-PKE over the ring.** The keys of a seed are s and A s + e, with the nonces 0 to k - 1 for s and k to 2k - 1 for
e. For every public vector with reduced coefficients, encryption is that over the ring: the transpose of A times y plus
e1, and t y plus e2 and the message, with the nonces 0 to k - 1, k to 2k - 1 and 2k. For every secret vector with
reduced coefficients and every ciphertext, decryption rounds the scalar part less s times the vector part. -/
theorem schoolbook_encryption (H : Hashes) (p : ParameterSet) (d m r : Bytes 32) {dk : DecryptionKey p}
    {ek : EncryptionKey p} (hdk : dk.sHat.Reduced) (hek : ek.tHat.Reduced) (c : Bytes p.ciphertextSize) :
    (overRing (keyPair H p d).1.sHat, overRing (keyPair H p d).2.tHat, (keyPair H p d).2.rho) =
      Schoolbook.keyPair H p d ∧
    ek.encrypt H m r = Schoolbook.encrypt H p (overRing ek.tHat) ek.rho m r ∧
    dk.decrypt c = Schoolbook.decrypt p (overRing dk.sHat) c := by
  refine ⟨?_, encrypt_eq H p m r hek, decrypt_eq hdk c⟩
  rw [overRing_sHat, overRing_tHat]
  rfl

/-- the keys of the seed of zeros, the message and the randomness of zeros, and a ciphertext of zeros -/
theorem schoolbook_encryption_zeros :
    let H := Hashes.standard
    let zeros := Bytes.zeros 32
    let dk := (keyPair H .mlKem512 zeros).1
    let ek := (keyPair H .mlKem512 zeros).2
    let c : Bytes (ParameterSet.ciphertextSize .mlKem512) := Bytes.zeros _
    dk.sHat.Reduced ∧ ek.tHat.Reduced ∧
      ek.encrypt H zeros zeros = Schoolbook.encrypt H .mlKem512 (overRing ek.tHat) ek.rho zeros zeros ∧
      dk.decrypt c = Schoolbook.decrypt .mlKem512 (overRing dk.sHat) c := by
  intro H zeros dk ek c
  have hdk : dk.sHat.Reduced := nttVec_reduced (secret_reduced H _ zeros)
  have hek : ek.tHat.Reduced := tHat_reduced H _ zeros
  obtain ⟨-, hencrypt, hdecrypt⟩ := schoolbook_encryption H .mlKem512 zeros zeros zeros hdk hek c
  exact ⟨hdk, hek, hencrypt, hdecrypt⟩

end PostQuantum.MLKEM
