/-
K-PKE over the ring, from single bits and candidates.

What goes into K-PKE over the ring and what comes out of it, without the words that the program goes through: noise is a
difference of two sums of bits, an entry of the public matrix has the first 256 candidates below q for residues, and
strings are cut into values and made of values bit by bit.
- `BitLevel.value_sampleNoise`, `BitLevel.sampleUniform_eq`: what is sampled.
- `BitLevel.byteDecode_eq_values`, `BitLevel.byteEncode_compress`: what is read and what is written.
- `encryption_on_bits`: key generation, encryption and decryption.
-/
import Mathlib.Tactic
import PostQuantum.Proofs.MLKEM.BitLevel
import PostQuantum.Proofs.MLKEM.Exact.Encryption
import PostQuantum.Proofs.MLKEM.Noise
import PostQuantum.Proofs.MLKEM.Schoolbook

namespace PostQuantum.MLKEM

open PrimeField Matrix

namespace BitLevel

variable {d eta : ℕ}

/-- the values that the bits of a string spell -/
def values (d : ℕ) (bytes : Bytes (32 * d)) : Vector Coeff 256 :=
  Vector.ofFn fun i => Elem.ofNat z3329 (byteDecode d bytes i)

/-- the first eta of the 2 eta bits of each coefficient less the others -/
def noise (eta : ℕ) (bytes : Bytes (64 * eta)) : Schoolbook.R := fun i =>
  ((∑ j ∈ Finset.range eta, (bytes.bit (2 * i.val * eta + j)).toNat : ℕ) : Zq) -
    ((∑ j ∈ Finset.range eta, (bytes.bit (2 * i.val * eta + eta + j)).toNat : ℕ) : Zq)

/-- the first 256 candidates of a stream that are below q; there are as many past its blocks alone -/
def firstBelow (s : ByteStream) : Tq :=
  ⟨Vector.ofFn fun i => Elem.ofNat z3329 ((acceptedAmong s.byte (112 * s.count + 256)).getD i.val 0)⟩

section Vectors

variable (H : Hashes)

/-- `k` noise polynomials, for the nonces from `first` on -/
def noiseVec (eta k : ℕ) (seed : Bytes 32) (first : ℕ) : Fin k → Schoolbook.R :=
  fun i => noise eta (H.prf eta seed (UInt8.ofNat (first + i.val)))

/-- the public matrix of a seed -/
def matrix (k : ℕ) (seed : Bytes 32) : Matrix (Fin k) (Fin k) Schoolbook.R :=
  Matrix.of fun i j => value (nttInverse (firstBelow (H.xof seed (UInt8.ofNat j.val) (UInt8.ofNat i.val))))

end Vectors

/-! ## What is read and written -/

theorem byteDecode_eq_values (hd12 : d ≤ 12) (bytes : Bytes (32 * d)) : MLKEM.byteDecode d bytes = values d bytes := by
  refine ext_get fun i => Elem.ext_val ?_
  have hlt : byteDecode d bytes i < z3329.q := by
    rw [← val_byteDecode_eq hd12]
    exact byteDecode_reduced hd12 bytes i
  rw [val_byteDecode_eq hd12, values, get_ofFn, Elem.val_ofNat hlt]

/-- compression leaves d bits of each coefficient, so they are written bit by bit -/
theorem byteEncode_compress (hd11 : d ≤ 11) (a : Schoolbook.R) :
    MLKEM.byteEncode d (Schoolbook.compress d a) = byteEncode d (Schoolbook.compress d a) := by
  refine byteEncode_eq (hd11.trans (by norm_num)) fun i => ?_
  have hlt : (round ((2 ^ d * (a i).val : ℚ) / 3329) % 2 ^ d).toNat < 2 ^ d := by
    rw [Int.toNat_lt (Int.emod_nonneg _ (by positivity))]
    push_cast
    exact Int.emod_lt_of_pos _ (by positivity)
  have hq : 2 ^ d < z3329.q := (Nat.pow_le_pow_right (by norm_num) hd11).trans_lt (by decide)
  rw [Schoolbook.compress, get_ofFn, Elem.val_ofNat (hlt.trans hq)]
  exact hlt

/-! ## What is sampled -/

theorem value_sampleNoise (heta6 : eta < 6) (bytes : Bytes (64 * eta)) :
    value (sampleNoise eta bytes) = noise eta bytes := by
  funext i
  -- the coefficient is the difference modulo q, and residues do not see the remainder
  have hval := congrArg (Int.cast : ℤ → Zq) (val_sampleNoise heta6 bytes i)
  rw [Int.cast_natCast] at hval
  refine hval.trans ((ZMod.intCast_mod _ 3329).trans ?_)
  rw [Int.cast_sub, Int.cast_natCast, Int.cast_natCast]
  rfl

/-- reduced coefficients are known by their values -/
theorem eq_firstBelow {s : ByteStream} {out : Tq} (hred : out.Reduced)
    (hout : out.coeffs.toList.map Elem.val = (acceptedAmong s.byte (112 * s.count + 256)).take 256) :
    out = firstBelow s := by
  obtain ⟨coeffs⟩ := out
  refine congrArg NttPoly.mk (ext_get fun i => Elem.ext_val ?_)
  have hentry : (acceptedAmong s.byte (112 * s.count + 256))[i.val]? = some (coeffs.get i).val := by
    rw [← List.getElem?_take_of_lt i.isLt, ← hout, List.getElem?_map, List.getElem?_eq_getElem (by simp)]
    rfl
  rw [get_ofFn, List.getD_eq_getElem?_getD, hentry, Option.getD_some, Elem.val_ofNat (hred i)]

/-- the candidate that completes the list stands among those that `firstBelow` looks at -/
theorem sampleUniform_eq (s : ByteStream) : sampleUniform s = firstBelow s := by
  obtain ⟨last, hlast⟩ := s.exists_completes
  have hmap := map_sampleUniform s hlast
  apply eq_firstBelow (reduced_of_map hmap)
  rw [hmap, hlast.take (s.completes_lt hlast)]

section Vectors

variable (H : Hashes)

theorem noiseVec_eq (heta6 : eta < 6) (k : ℕ) (seed : Bytes 32) (first : ℕ) :
    Schoolbook.noiseVec H eta k seed first = noiseVec H eta k seed first :=
  funext fun _ => value_sampleNoise heta6 _

theorem matrix_eq (k : ℕ) (seed : Bytes 32) : Schoolbook.matrix H k seed = matrix H k seed := by
  unfold Schoolbook.matrix
  simp only [sampleUniform_eq]
  rfl

end Vectors

end BitLevel

/-- **K-PKE on bits.** For every seed, every message and randomness, all keys with reduced coefficients and every
ciphertext: the secret vector is noise and the public one the matrix times it plus noise; encryption compresses the
transpose of the matrix times noise plus noise, and the public vector times noise plus noise and the message; and
decryption rounds the scalar part less the secret vector times the vector part. Noise is made of sums of bits, the matrix
of the candidates below q, and all strings are read and written bit by bit. -/
theorem encryption_on_bits (H : Hashes) (p : ParameterSet) (d m r : Bytes 32) {dk : DecryptionKey p}
    {ek : EncryptionKey p} (hdk : dk.sHat.Reduced) (hek : ek.tHat.Reduced) (c : Bytes p.ciphertextSize) :
    (let s := BitLevel.noiseVec H p.eta1 p.k (noiseSeed H p d) 0
     let e := BitLevel.noiseVec H p.eta1 p.k (noiseSeed H p d) p.k
     let A := BitLevel.matrix H p.k (matrixSeed H p d)
     overRing (keyPair H p d).1.sHat = s ∧ overRing (keyPair H p d).2.tHat = A *ᵥ s + e) ∧
    (let y := BitLevel.noiseVec H p.eta1 p.k r 0
     let e1 := BitLevel.noiseVec H p.eta2 p.k r p.k
     let e2 := BitLevel.noise p.eta2 (H.prf p.eta2 r (UInt8.ofNat (2 * p.k)))
     let u := (BitLevel.matrix H p.k ek.rho)ᵀ *ᵥ y + e1
     let v := overRing ek.tHat ⬝ᵥ y + e2 + Schoolbook.decompress 1 (BitLevel.values 1 m)
     ek.encrypt H m r =
       Bytes.append (Bytes.join (Vector.ofFn fun i => BitLevel.byteEncode p.du (Schoolbook.compress p.du (u i))))
         (BitLevel.byteEncode p.dv (Schoolbook.compress p.dv v))) ∧
    let (c1, c2) := Bytes.split c
    let u : Fin p.k → Schoolbook.R := fun i =>
      Schoolbook.decompress p.du (BitLevel.values p.du (Bytes.chunk c1 i))
    let v := Schoolbook.decompress p.dv (BitLevel.values p.dv c2)
    dk.decrypt c = BitLevel.byteEncode 1 (Schoolbook.compress 1 (v - overRing dk.sHat ⬝ᵥ u)) := by
  have heta1 : p.eta1 < 6 := (eta1_bounds p).2.trans_lt (by norm_num)
  have heta2 : p.eta2 < 6 := (eta2_bounds p).2.trans_lt (by norm_num)
  obtain ⟨-, hdu⟩ := du_bounds p
  obtain ⟨-, hdv⟩ := dv_bounds p
  -- each procedure over the ring, with its parts read from right to left as those on bits
  refine ⟨⟨?_, ?_⟩, ?_, ?_⟩
  · rw [overRing_sHat, ← BitLevel.noiseVec_eq H heta1]
    rfl
  · rw [overRing_tHat, ← BitLevel.noiseVec_eq H heta1, ← BitLevel.noiseVec_eq H heta1, ← BitLevel.matrix_eq]
    rfl
  · simp only [encrypt_eq H p m r hek, ← BitLevel.byteEncode_compress hdu, ← BitLevel.byteEncode_compress hdv,
      ← BitLevel.noiseVec_eq H heta1, ← BitLevel.noiseVec_eq H heta2, ← BitLevel.matrix_eq,
      ← BitLevel.value_sampleNoise heta2, ← BitLevel.byteDecode_eq_values (d := 1) (by norm_num)]
    rfl
  · simp only [decrypt_eq hdk, ← BitLevel.byteEncode_compress (d := 1) (by norm_num),
      ← BitLevel.byteDecode_eq_values (hdu.trans (by norm_num)),
      ← BitLevel.byteDecode_eq_values (hdv.trans (by norm_num))]
    rfl

end PostQuantum.MLKEM
