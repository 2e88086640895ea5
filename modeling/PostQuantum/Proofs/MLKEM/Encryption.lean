/-
Decryption undoes encryption up to noise.

A ciphertext of m holds m in noise (`decryptionNoise`): the products of the sampled noise vectors, the errors, and what
compression lost. All are negacyclic products in Z_q[X]/(X^256 + 1).
- `value_tHat`, `value_vectorPart`, `value_scalarPart`: the public vector and the two parts of a ciphertext.
- `noise_identity`: what is left when the matrix and its transpose cancel.
- `value_noisyMessage`: the polynomial that decryption forms is the message polynomial plus this noise.
Nothing is assumed of the hash functions, and the keys and the randomness are any strings of 32 bytes.
-/
import Mathlib.Tactic
import PostQuantum.MLKEM.Encryption
import PostQuantum.Proofs.MLKEM.Compression
import PostQuantum.Proofs.MLKEM.Homomorphism
import PostQuantum.Proofs.MLKEM.Sampling

namespace PostQuantum.MLKEM

open PrimeField

/-! ## The noise -/

section Noise

variable (H : Hashes) (p : ParameterSet) (d m r : Bytes 32)

/-- the seed that the noise of a key pair is drawn from -/
def noiseSeed : Bytes 32 := (H.g (d.toList ++ [rankByte p])).2

/-- the seed of the matrix of a key pair -/
def matrixSeed : Bytes 32 := (H.g (d.toList ++ [rankByte p])).1

/-- the secret vector of a key pair -/
def secret : RqVec p.k := H.noiseVec p.eta1 p.k (noiseSeed H p d) 0

/-- the errors of a key pair -/
def keyErrors : RqVec p.k := H.noiseVec p.eta1 p.k (noiseSeed H p d) (rankByte p)

/-- the vector that encrypts -/
def ephemeral : RqVec p.k := H.noiseVec p.eta1 p.k r 0

/-- the errors of the vector part of a ciphertext -/
def vectorErrors : RqVec p.k := H.noiseVec p.eta2 p.k r (rankByte p)

/-- the error of the scalar part of a ciphertext -/
def scalarError : Rq := sampleNoise p.eta2 (H.prf p.eta2 r (2 * rankByte p))

/-- the polynomial of a message -/
def messagePoly (m : Bytes 32) : Rq := decompressPoly 1 ⟨byteDecode 1 m⟩

/-- what compression to `b` bits adds to a polynomial -/
def compressionError (b : ℕ) (f : Rq) : Negacyclic Zq 256 := value (lossy b f) - value f

/-- the noise around the message polynomial in a ciphertext: e r + e2 + c_v - s (e1 + c_u) -/
def decryptionNoise : Negacyclic Zq 256 :=
  let (u, v) := (keyPair H p d).2.noisyParts H m r
  (∑ i, value ((keyErrors H p d).polys.get i) * value ((ephemeral H p r).polys.get i)) + value (scalarError H p r) +
    compressionError p.dv v -
    ∑ i, value ((secret H p d).polys.get i) *
      (value ((vectorErrors H p r).polys.get i) + compressionError p.du (u.polys.get i))

end Noise

/-! ## Vectors and matrices -/

section Vectors

variable {k : ℕ}

theorem mulVec_get (a : TqMatrix k) (v : TqVec k) (i : Fin k) : (mulVec a v).polys.get i = dot (a.get i) v := by
  unfold mulVec
  exact get_map _ _ i

theorem mulVec_reduced {a : TqMatrix k} {v : TqVec k} (ha : ∀ i, (a.get i).Reduced) (hv : v.Reduced) :
    (mulVec a v).Reduced := by
  intro i
  rw [mulVec_get]
  exact Tq.reduced_dot (ha i) hv

theorem Tq.reduced_vec_add {u v : TqVec k} (hu : u.Reduced) (hv : v.Reduced) : (u + v).Reduced := by
  intro i
  change ((u.polys + v.polys).get i).Reduced
  rw [get_add]
  exact Tq.reduced_add (hu i) (hv i)

/-- a product with the image of a vector, in Z_q[X]/(X^256 + 1) -/
theorem value_nttInverse_dot_nttVec {row : TqVec k} {u : RqVec k} (hrow : row.Reduced) (hu : u.Reduced) :
    value (nttInverse (dot row (nttVec u))) =
      ∑ i, value (nttInverse (row.polys.get i)) * value (u.polys.get i) := by
  rw [value_nttInverse_dot hrow (nttVec_reduced hu)]
  refine Finset.sum_congr rfl fun i _ => ?_
  rw [nttVec_get, nttInverse_ntt (hu i)]

end Vectors

/-! ## The noise identity -/

/-- **The noise identity.** The matrix and its transpose cancel, and the products of noise with noise stay. -/
theorem noise_identity {R : Type} [CommRing R] {k : ℕ} (a : Fin k → Fin k → R) (s e r e1 cu : Fin k → R)
    (e2 mu cv : R) :
    (∑ i, (∑ j, a i j * s j + e i) * r i + e2 + mu + cv) - ∑ i, s i * (∑ j, a j i * r j + e1 i + cu i) =
      mu + (∑ i, e i * r i + e2 + cv - ∑ i, s i * (e1 i + cu i)) := by
  have hleft : ∑ i, (∑ j, a i j * s j + e i) * r i = ∑ i, ∑ j, a i j * s j * r i + ∑ i, e i * r i := by
    rw [← Finset.sum_add_distrib]
    refine Finset.sum_congr rfl fun i _ => ?_
    rw [add_mul, Finset.sum_mul]
  have hright : ∑ i, s i * (∑ j, a j i * r j + e1 i + cu i) =
      ∑ i, ∑ j, a j i * s i * r j + ∑ i, s i * (e1 i + cu i) := by
    rw [← Finset.sum_add_distrib]
    refine Finset.sum_congr rfl fun i _ => ?_
    rw [add_assoc, mul_add, Finset.mul_sum]
    refine congrArg₂ _ (Finset.sum_congr rfl fun j _ => ?_) rfl
    ring
  rw [hleft, hright, Finset.sum_comm (f := fun i j => a j i * s i * r j)]
  ring

section KeyPair

variable (H : Hashes) (p : ParameterSet) (d m r : Bytes 32)

theorem keyPair_sHat : (keyPair H p d).1.sHat = nttVec (secret H p d) := rfl

theorem keyPair_tHat :
    (keyPair H p d).2.tHat =
      mulVec (H.matrix p.k (matrixSeed H p d) false) (nttVec (secret H p d)) + nttVec (keyErrors H p d) := rfl

/-- entry (i, j) of the public matrix, in Z_q[X]/(X^256 + 1) -/
def matrixValue (i j : Fin p.k) : Negacyclic Zq 256 :=
  value (nttInverse (H.matrixEntry (matrixSeed H p d) i.val j.val))

theorem secret_reduced : (secret H p d).Reduced := H.noiseVec_reduced _ _ _ _

theorem keyErrors_reduced : (keyErrors H p d).Reduced := H.noiseVec_reduced _ _ _ _

theorem ephemeral_reduced : (ephemeral H p r).Reduced := H.noiseVec_reduced _ _ _ _

theorem vectorErrors_reduced : (vectorErrors H p r).Reduced := H.noiseVec_reduced _ _ _ _

theorem scalarError_reduced : (scalarError H p r).Reduced := sampleNoise_reduced _ _

theorem messagePoly_reduced : (messagePoly m).Reduced := by
  have hbits : FitsBits 1 (byteDecode 1 m) := byteDecode_fitsBits (d := 1) (by norm_num) m
  exact decompressPoly_reduced (by norm_num) (by norm_num) hbits

theorem tHat_reduced : (keyPair H p d).2.tHat.Reduced := by
  rw [keyPair_tHat]
  exact Tq.reduced_vec_add (mulVec_reduced (H.matrix_reduced p.k _ false) (nttVec_reduced (secret_reduced H p d)))
    (nttVec_reduced (keyErrors_reduced H p d))

/-- the public vector is A s + e -/
theorem value_tHat (i : Fin p.k) :
    value (nttInverse ((keyPair H p d).2.tHat.polys.get i)) =
      ∑ j, matrixValue H p d i j * value ((secret H p d).polys.get j) + value ((keyErrors H p d).polys.get i) := by
  have hs := secret_reduced H p d
  have he := keyErrors_reduced H p d
  have hrow := H.matrix_reduced p.k (matrixSeed H p d) false
  have hget : (keyPair H p d).2.tHat.polys.get i =
      dot ((H.matrix p.k (matrixSeed H p d) false).get i) (nttVec (secret H p d)) +
        ntt ((keyErrors H p d).polys.get i) := by
    rw [keyPair_tHat]
    exact (get_add _ _ i).trans (congrArg₂ _ (mulVec_get _ _ i) (nttVec_get _ i))
  rw [hget, value_nttInverse_add (Tq.reduced_dot (hrow i) (nttVec_reduced hs)) (ntt_reduced (he i)),
    value_nttInverse_dot_nttVec (hrow i) hs, nttInverse_ntt (he i)]
  refine congrArg₂ _ (Finset.sum_congr rfl fun j _ => ?_) rfl
  rw [H.matrix_get]
  rfl

end KeyPair

/-! ## Ciphertexts of any key -/

section Parts

variable (H : Hashes) (p : ParameterSet) (m r : Bytes 32) (ek : EncryptionKey p)

/-- the vector part of a ciphertext is the transpose of A times r, plus e1 -/
theorem value_vectorPart (i : Fin p.k) :
    value ((ek.noisyParts H m r).1.polys.get i) =
      ∑ j : Fin p.k, value (nttInverse (H.matrixEntry ek.rho j.val i.val)) * value ((ephemeral H p r).polys.get j) +
        value ((vectorErrors H p r).polys.get i) := by
  have hr := ephemeral_reduced H p r
  have he := vectorErrors_reduced H p r
  have hrow := H.matrix_reduced p.k ek.rho true
  have hget : (ek.noisyParts H m r).1.polys.get i =
      nttInverse (dot ((H.matrix p.k ek.rho true).get i) (nttVec (ephemeral H p r))) +
        (vectorErrors H p r).polys.get i := by
    refine (get_add _ _ i).trans (congrArg₂ _ ((get_map nttInverse _ i).trans ?_) rfl)
    exact congrArg nttInverse (mulVec_get _ _ i)
  rw [hget, value_add (nttInverse_reduced _) (he i), value_nttInverse_dot_nttVec (hrow i) hr]
  refine congrArg₂ _ (Finset.sum_congr rfl fun j _ => ?_) rfl
  rw [H.matrix_get]
  rfl

/-- the scalar part of a ciphertext is the public vector times r, plus e2 and the message -/
theorem value_scalarPart {ek : EncryptionKey p} (hek : ek.tHat.Reduced) :
    value (ek.noisyParts H m r).2 =
      ∑ i, value (nttInverse (ek.tHat.polys.get i)) * value ((ephemeral H p r).polys.get i) +
        value (scalarError H p r) + value (messagePoly m) := by
  have hr := ephemeral_reduced H p r
  have he := scalarError_reduced H p r
  have hm := messagePoly_reduced m
  have hdot := nttInverse_reduced (dot ek.tHat (nttVec (ephemeral H p r)))
  change value (nttInverse (dot ek.tHat (nttVec (ephemeral H p r))) + scalarError H p r + messagePoly m) = _
  rw [value_add (Rq.reduced_add hdot he) hm, value_add hdot he, value_nttInverse_dot_nttVec hek hr]

/-- both parts are reduced, whatever the key -/
theorem noisyParts_reduced : (ek.noisyParts H m r).1.Reduced ∧ (ek.noisyParts H m r).2.Reduced := by
  have he := vectorErrors_reduced H p r
  constructor
  · intro i
    have hget : (ek.noisyParts H m r).1.polys.get i =
        (nttInverseVec (mulVec (H.matrix p.k ek.rho true) (nttVec (ephemeral H p r)))).polys.get i +
          (vectorErrors H p r).polys.get i := get_add _ _ i
    rw [hget]
    exact Rq.reduced_add (nttInverseVec_reduced _ i) (he i)
  · exact Rq.reduced_add (Rq.reduced_add (nttInverse_reduced _) (scalarError_reduced H p r)) (messagePoly_reduced m)

end Parts

/-! ## Decryption -/

section Decryption

variable (H : Hashes) (p : ParameterSet) (d m r : Bytes 32)

theorem du_bounds (p : ParameterSet) : 0 < p.du ∧ p.du ≤ 11 := by
  cases p <;> decide

theorem dv_bounds (p : ParameterSet) : 0 < p.dv ∧ p.dv ≤ 11 := by
  cases p <;> decide

theorem ciphertextParts_reduced (c : Bytes p.ciphertextSize) :
    (ciphertextParts c).1.Reduced ∧ (ciphertextParts c).2.Reduced := by
  obtain ⟨hdu, hdu11⟩ := du_bounds p
  obtain ⟨hdv, hdv11⟩ := dv_bounds p
  constructor
  · intro i
    change ((decompressVec p.du (decodeVec p.k p.du (Bytes.split c).1)).polys.get i).Reduced
    rw [decompressVec_get, decodeVec_get]
    exact decompressPoly_reduced hdu (by omega) (byteDecode_fitsBits (by omega) _)
  · exact decompressPoly_reduced hdv (by omega) (byteDecode_fitsBits (by omega) _)

/-- the ciphertext that two parts are compressed to -/
def ciphertextOf (parts : RqVec p.k × Rq) : Bytes p.ciphertextSize :=
  Bytes.append (encodeVec p.du (compressVec p.du parts.1)) (byteEncode p.dv (compressPoly p.dv parts.2).coeffs)

theorem encrypt_eq_ciphertextOf (ek : EncryptionKey p) : ek.encrypt H m r = ciphertextOf p (ek.noisyParts H m r) := rfl

/-- a ciphertext decompresses to what compression kept of its two parts -/
theorem ciphertextParts_ciphertextOf (parts : RqVec p.k × Rq) :
    ciphertextParts (ciphertextOf p parts) =
      (decompressVec p.du (compressVec p.du parts.1), lossy p.dv parts.2) := by
  obtain ⟨-, hdu⟩ := du_bounds p
  obtain ⟨-, hdv⟩ := dv_bounds p
  have hvector : decodeVec p.k p.du (encodeVec p.du (compressVec p.du parts.1)) = compressVec p.du parts.1 := by
    refine decodeVec_encodeVec (by omega) (fun i => ?_) (compressVec_reduced hdu _)
    rw [compressVec_get]
    exact compressPoly_fitsBits (by omega) _
  have hscalar : byteDecode p.dv (byteEncode p.dv (compressPoly p.dv parts.2).coeffs) =
      (compressPoly p.dv parts.2).coeffs :=
    byteDecode_byteEncode (by omega) (compressPoly_fitsBits (by omega) _) (compressPoly_reduced hdv _)
  unfold ciphertextParts ciphertextOf
  rw [Bytes.split_append]
  simp only
  rw [hvector, hscalar]
  rfl

theorem noisyMessage_encrypt :
    (keyPair H p d).1.noisyMessage ((keyPair H p d).2.encrypt H m r) =
      lossy p.dv ((keyPair H p d).2.noisyParts H m r).2 -
        nttInverse (dot (nttVec (secret H p d))
          (nttVec (decompressVec p.du (compressVec p.du ((keyPair H p d).2.noisyParts H m r).1)))) := by
  unfold DecryptionKey.noisyMessage
  rw [encrypt_eq_ciphertextOf, ciphertextParts_ciphertextOf, keyPair_sHat]

theorem lossyVec_reduced (u : RqVec p.k) : (decompressVec p.du (compressVec p.du u)).Reduced := by
  obtain ⟨hdu, hdu11⟩ := du_bounds p
  intro i
  rw [decompressVec_get, compressVec_get]
  exact lossy_reduced hdu (by omega) _

/-- the vector part as it is received -/
theorem value_receivedVector (i : Fin p.k) :
    value ((decompressVec p.du (compressVec p.du ((keyPair H p d).2.noisyParts H m r).1)).polys.get i) =
      ∑ j, matrixValue H p d j i * value ((ephemeral H p r).polys.get j) +
        value ((vectorErrors H p r).polys.get i) +
          compressionError p.du (((keyPair H p d).2.noisyParts H m r).1.polys.get i) := by
  have hpart := value_vectorPart H p m r (keyPair H p d).2 i
  rw [decompressVec_get, compressVec_get]
  exact (add_sub_cancel _ _).symm.trans (congrArg₂ (· + ·) hpart rfl)

/-- the scalar part as it is received -/
theorem value_receivedScalar :
    value (lossy p.dv ((keyPair H p d).2.noisyParts H m r).2) =
      ∑ i, (∑ j, matrixValue H p d i j * value ((secret H p d).polys.get j) + value ((keyErrors H p d).polys.get i)) *
        value ((ephemeral H p r).polys.get i) + value (scalarError H p r) + value (messagePoly m) +
          compressionError p.dv ((keyPair H p d).2.noisyParts H m r).2 := by
  simp only [← value_tHat H p d]
  rw [← value_scalarPart H p m r (tHat_reduced H p d), compressionError]
  exact (add_sub_cancel _ _).symm

/-- **Decryption gives the message in noise.** -/
theorem value_noisyMessage :
    value ((keyPair H p d).1.noisyMessage ((keyPair H p d).2.encrypt H m r)) =
      value (messagePoly m) + decryptionNoise H p d m r := by
  obtain ⟨hdv, hdv11⟩ := dv_bounds p
  have hs := secret_reduced H p d
  rw [noisyMessage_encrypt, value_sub (lossy_reduced hdv (by omega) _) (nttInverse_reduced _),
    value_nttInverse_dot_nttVec (nttVec_reduced hs) (lossyVec_reduced p _), value_receivedScalar]
  simp only [value_receivedVector, nttVec_get, nttInverse_ntt (hs _)]
  rw [noise_identity]
  rfl

end Decryption

end PostQuantum.MLKEM
