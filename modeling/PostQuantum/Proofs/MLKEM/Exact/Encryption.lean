/-
K-PKE with steps that refuse to go wrong.

Key generation, encryption, decryption, and writing and reading keys, put together from the steps of sampling, of the
transforms, of packing and of compression. They have no value if any of these refuses: if an operation on coefficients
takes or gives one that is not reduced, if arithmetic or a narrowing of words, bytes or indices loses a bit, if an index
or a cut is out of range, or if a value that is packed has more bits than it may.
- `keyPair?_eq`: key generation refuses nothing, whatever the seed.
- `EncryptionKey.encrypt?_eq`, `DecryptionKey.decrypt?_eq`: nor do encryption and decryption under reduced keys.
- `encryption_exact`: so it is for every key that is generated or read, every message and every ciphertext.
Nothing is assumed of the hash functions.
-/
import Mathlib.Tactic
import PostQuantum.Proofs.MLKEM.Encryption
import PostQuantum.Proofs.MLKEM.Exact.Sampling

namespace PostQuantum.MLKEM

open InRange

variable {p : ParameterSet}

/-! ## Key generation, encryption and decryption -/

/-- the key pair of a seed -/
def keyPair? (H : Hashes) (p : ParameterSet) (d : Bytes 32) : Option (DecryptionKey p × EncryptionKey p) := do
  let rank ← byteOfIndex? p.k
  let (rho, sigma) := H.g (d.toList ++ [rank])
  let a ← H.matrix? p.k rho false
  let s ← H.noiseVec? p.eta1 p.k sigma 0
  let e ← H.noiseVec? p.eta1 p.k sigma rank
  let sHat ← nttVec? s
  let product ← mulVec? a sHat
  let eHat ← nttVec? e
  let tHat ← TqVec.add? product eHat
  some (⟨sHat⟩, ⟨tHat, rho⟩)

namespace EncryptionKey

/-- the two parts of a ciphertext before they are compressed -/
def noisyParts? (H : Hashes) (ek : EncryptionKey p) (m r : Bytes 32) : Option (RqVec p.k × Rq) := do
  let rank ← byteOfIndex? p.k
  let y ← H.noiseVec? p.eta1 p.k r 0
  let e1 ← H.noiseVec? p.eta2 p.k r rank
  let last ← mulByte? 2 rank
  let bytes ← H.prf? p.eta2 r last
  let e2 ← sampleNoise? p.eta2 bytes
  let a ← H.matrix? p.k ek.rho true
  let yHat ← nttVec? y
  let product ← mulVec? a yHat
  let ay ← nttInverseVec? product
  let u ← RqVec.add? ay e1
  let bits ← decodePoly? 1 m.toList
  let mu ← decompressPoly? 1 bits
  let product ← dot? ek.tHat yHat
  let ty ← nttInverse? product
  let sum ← Rq.add? ty e2
  let v ← Rq.add? sum mu
  some (u, v)

/-- the ciphertext of `m` under the randomness `r` -/
def encrypt? (H : Hashes) (ek : EncryptionKey p) (m r : Bytes 32) : Option (Bytes p.ciphertextSize) := do
  let (u, v) ← ek.noisyParts? H m r
  let u ← compressVec? p.du u
  let c1 ← encodeVec? p.du u
  let v ← compressPoly? p.dv v
  let c2 ← byteEncode? p.dv v.coeffs
  concat? c1 c2

def toBytes? (ek : EncryptionKey p) : Option (Bytes p.encapsulationKeySize) := do
  let t ← encodeNttVec? 12 ek.tHat
  concat? t ek.rho

def ofBytes? (p : ParameterSet) (bytes : List UInt8) : Option (EncryptionKey p) := do
  let (t, rest) ← splitAt? p.vectorSize bytes
  let tHat ← decodeNttVec? p.k 12 t
  let rho ← Bytes.ofList? 32 rest
  some ⟨tHat, rho⟩

end EncryptionKey

/-- the two parts that a ciphertext decompresses to -/
def ciphertextParts? (p : ParameterSet) (c : List UInt8) : Option (RqVec p.k × Rq) := do
  let (c1, c2) ← splitAt? p.uSize c
  let u ← decodeVec? p.k p.du c1
  let u ← decompressVec? p.du u
  let v ← decodePoly? p.dv c2
  let v ← decompressPoly? p.dv v
  some (u, v)

namespace DecryptionKey

/-- the message in noise that a ciphertext holds -/
def noisyMessage? (dk : DecryptionKey p) (c : List UInt8) : Option Rq := do
  let (u, v) ← ciphertextParts? p c
  let uHat ← nttVec? u
  let product ← dot? dk.sHat uHat
  let su ← nttInverse? product
  Rq.sub? v su

/-- the message of a ciphertext -/
def decrypt? (dk : DecryptionKey p) (c : List UInt8) : Option (Bytes 32) := do
  let w ← dk.noisyMessage? c
  let w ← compressPoly? 1 w
  byteEncode? 1 w.coeffs

def toBytes? (dk : DecryptionKey p) : Option (Bytes p.decryptionKeySize) := do
  let size ← index? p.decryptionKeySize
  let s ← encodeNttVec? 12 dk.sHat
  let bytes ← fill? (List.replicate size 0) s
  Bytes.ofList? p.decryptionKeySize bytes

def ofBytes? (p : ParameterSet) (bytes : List UInt8) : Option (DecryptionKey p) := do
  let sHat ← decodeNttVec? p.k 12 bytes
  some ⟨sHat⟩

end DecryptionKey

/-! ## Sizes -/

theorem k_le (p : ParameterSet) : p.k ≤ 4 := by
  cases p <;> decide

theorem eta1_bounds (p : ParameterSet) : 0 < p.eta1 ∧ p.eta1 ≤ 3 := by
  cases p <;> decide

theorem eta2_bounds (p : ParameterSet) : 0 < p.eta2 ∧ p.eta2 ≤ 3 := by
  cases p <;> decide

theorem encapsulationKeySize_lt (p : ParameterSet) : p.encapsulationKeySize < 2 ^ 16 := by
  cases p <;> decide

theorem decryptionKeySize_lt (p : ParameterSet) : p.decryptionKeySize < 2 ^ 16 :=
  (Nat.le_add_right _ _).trans_lt (encapsulationKeySize_lt p)

theorem ciphertextSize_lt (p : ParameterSet) : p.ciphertextSize < 2 ^ 16 := by
  cases p <;> decide

theorem toNat_rankByte (p : ParameterSet) : (rankByte p).toNat = p.k := by
  cases p <;> decide

theorem rankByte?_eq (p : ParameterSet) : byteOfIndex? p.k = some (rankByte p) :=
  byteOfIndex?_eq ((k_le p).trans_lt (by norm_num))

section Steps

variable (H : Hashes) (p : ParameterSet) (d m r : Bytes 32)

/-- **Key generation** refuses no step, whatever the seed. -/
theorem keyPair?_eq : keyPair? H p d = some (keyPair H p d) := by
  have hk := k_le p
  have hrank := toNat_rankByte p
  obtain ⟨heta, heta3⟩ := eta1_bounds p
  have hs := secret_reduced H p d
  have he := keyErrors_reduced H p d
  have ha := H.matrix_reduced p.k (matrixSeed H p d) false
  refine andThen (rankByte?_eq p) ?_
  refine andThen (H.matrix?_eq (by omega) (matrixSeed H p d) false) ?_
  refine andThen (H.noiseVec?_eq heta heta3 (noiseSeed H p d) (by rw [UInt8.toNat_zero]; omega)) ?_
  refine andThen (H.noiseVec?_eq heta heta3 (noiseSeed H p d) (by omega)) ?_
  refine andThen (nttVec?_eq hs) ?_
  refine andThen (mulVec?_eq ha (nttVec_reduced hs)) ?_
  refine andThen (nttVec?_eq he) ?_
  refine andThen (TqVec.add?_eq (mulVec_reduced ha (nttVec_reduced hs)) (nttVec_reduced he)) ?_
  rfl

variable {p}

theorem EncryptionKey.noisyParts?_eq {ek : EncryptionKey p} (hek : ek.tHat.Reduced) :
    ek.noisyParts? H m r = some (ek.noisyParts H m r) := by
  have hk := k_le p
  have hrank := toNat_rankByte p
  obtain ⟨heta1, heta13⟩ := eta1_bounds p
  obtain ⟨heta2, heta23⟩ := eta2_bounds p
  have hy := ephemeral_reduced H p r
  have he1 := vectorErrors_reduced H p r
  have he2 := scalarError_reduced H p r
  have ha := H.matrix_reduced p.k ek.rho true
  have hmu := messagePoly_reduced m
  have hty := nttInverse_reduced (dot ek.tHat (nttVec (ephemeral H p r)))
  have hbits : FitsBits 1 (byteDecode 1 m) := byteDecode_fitsBits (d := 1) (by norm_num) m
  refine andThen (rankByte?_eq p) ?_
  refine andThen (H.noiseVec?_eq heta1 heta13 r (by rw [UInt8.toNat_zero]; omega)) ?_
  refine andThen (H.noiseVec?_eq heta2 heta23 r (by omega)) ?_
  refine andThen (mulByte?_eq (by rw [hrank]; change 2 * p.k < 256; omega)) ?_
  refine andThen (H.prf?_eq heta23 r _) ?_
  refine andThen (sampleNoise?_eq heta2 (by omega) _) ?_
  refine andThen (H.matrix?_eq (by omega) ek.rho true) ?_
  refine andThen (nttVec?_eq hy) ?_
  refine andThen (mulVec?_eq ha (nttVec_reduced hy)) ?_
  refine andThen (nttInverseVec?_eq (mulVec_reduced ha (nttVec_reduced hy))) ?_
  refine andThen (RqVec.add?_eq (nttInverseVec_reduced _) he1) ?_
  refine andThen (decodePoly?_eq (d := 1) (by norm_num) (by norm_num) m) ?_
  refine andThen (decompressPoly?_eq (by norm_num) (by norm_num) hbits) ?_
  refine andThen (dot?_eq hek (nttVec_reduced hy)) ?_
  refine andThen (nttInverse?_eq (Tq.reduced_dot hek (nttVec_reduced hy))) ?_
  refine andThen (Rq.add?_eq hty he2) ?_
  refine andThen (Rq.add?_eq (Rq.reduced_add hty he2) hmu) ?_
  rfl

/-- **Encryption** under a reduced key refuses no step, whatever the message and the randomness. -/
theorem EncryptionKey.encrypt?_eq {ek : EncryptionKey p} (hek : ek.tHat.Reduced) :
    ek.encrypt? H m r = some (ek.encrypt H m r) := by
  obtain ⟨hdu, hdu11⟩ := du_bounds p
  obtain ⟨hdv, hdv11⟩ := dv_bounds p
  obtain ⟨hu, hv⟩ := noisyParts_reduced H p m r ek
  have hfits : ∀ i, FitsBits p.du ((compressVec p.du (ek.noisyParts H m r).1).polys.get i).coeffs := fun i => by
    rw [compressVec_get]
    exact compressPoly_fitsBits (by omega) _
  refine andThen (noisyParts?_eq H m r hek) ?_
  refine andThen (compressVec?_eq hdu11 hu) ?_
  refine andThen (encodeVec?_eq hdu (by omega) hfits) ?_
  refine andThen (compressPoly?_eq hdv11 hv) ?_
  refine andThen (byteEncode?_eq hdv (by omega) (compressPoly_fitsBits (by omega) _)) ?_
  exact concat?_eq _ _ (ciphertextSize_lt p)

theorem ciphertextParts?_eq (c : Bytes p.ciphertextSize) : ciphertextParts? p c.toList = some (ciphertextParts c) := by
  obtain ⟨hdu, hdu11⟩ := du_bounds p
  obtain ⟨hdv, hdv11⟩ := dv_bounds p
  obtain ⟨c1, c2, rfl⟩ := Bytes.exists_append c
  have hfits : ∀ i, FitsBits p.du ((decodeVec p.k p.du c1).polys.get i).coeffs := fun i => by
    rw [decodeVec_get]
    exact byteDecode_fitsBits (by omega) _
  rw [ciphertextParts, Bytes.split_append]
  refine andThen (splitAt?_append c1 c2) ?_
  refine andThen (decodeVec?_eq hdu (by omega) c1) ?_
  refine andThen (decompressVec?_eq hdu hdu11 hfits) ?_
  refine andThen (decodePoly?_eq hdv (by omega) c2) ?_
  refine andThen (decompressPoly?_eq hdv hdv11 (byteDecode_fitsBits (by omega) c2)) ?_
  rfl

/-- **Decryption** with a reduced key refuses no step, whatever the ciphertext. -/
theorem DecryptionKey.decrypt?_eq {dk : DecryptionKey p} (hdk : dk.sHat.Reduced) (c : Bytes p.ciphertextSize) :
    dk.decrypt? c.toList = some (dk.decrypt c) := by
  obtain ⟨hu, hv⟩ := ciphertextParts_reduced p c
  have hsu := nttInverse_reduced (dot dk.sHat (nttVec (ciphertextParts c).1))
  have hmessage : dk.noisyMessage? c.toList = some (dk.noisyMessage c) := by
    refine andThen (ciphertextParts?_eq c) ?_
    refine andThen (nttVec?_eq hu) ?_
    refine andThen (dot?_eq hdk (nttVec_reduced hu)) ?_
    refine andThen (nttInverse?_eq (Tq.reduced_dot hdk (nttVec_reduced hu))) ?_
    exact Rq.sub?_eq hv hsu
  refine andThen hmessage ?_
  refine andThen (compressPoly?_eq (by norm_num) (Rq.reduced_sub hv hsu)) ?_
  exact byteEncode?_eq (by norm_num) (by norm_num) (compressPoly_fitsBits (by norm_num) _)

/-! ## Writing and reading keys -/

theorem EncryptionKey.toBytes?_eq {ek : EncryptionKey p} (hek : ek.tHat.Reduced) :
    ek.toBytes? = some ek.toBytes := by
  refine andThen (encodeNttVec?_eq (by norm_num) (by norm_num) fun i => fitsBits_of_reduced (hek i)) ?_
  exact concat?_eq _ _ (encapsulationKeySize_lt p)

theorem DecryptionKey.toBytes?_eq {dk : DecryptionKey p} (hdk : dk.sHat.Reduced) :
    dk.toBytes? = some dk.toBytes := by
  refine andThen (index?_eq (decryptionKeySize_lt p)) ?_
  refine andThen (encodeNttVec?_eq (by norm_num) (by norm_num) fun i => fitsBits_of_reduced (hdk i)) ?_
  refine andThen (fill?_eq List.length_replicate) ?_
  exact Bytes.ofList?_toList _

/-- reading a public key refuses no step, whatever the bytes, and reduces what it reads -/
theorem EncryptionKey.ofBytes?_eq (bytes : Bytes p.encapsulationKeySize) :
    ofBytes? p bytes.toList = some (ofBytes bytes) ∧ (ofBytes bytes).tHat.Reduced := by
  obtain ⟨t, rho, rfl⟩ := Bytes.exists_append bytes
  rw [ofBytes, Bytes.split_append]
  refine ⟨?_, decodeNttVec_reduced (by norm_num) t⟩
  refine andThen (splitAt?_append t rho) ?_
  refine andThen (decodeNttVec?_eq (by norm_num) (by norm_num) t) ?_
  refine andThen (Bytes.ofList?_toList rho) ?_
  rfl

/-- and so does reading a private key -/
theorem DecryptionKey.ofBytes?_eq (bytes : Bytes p.decryptionKeySize) :
    ofBytes? p bytes.toList = some (ofBytes bytes) ∧ (ofBytes bytes).sHat.Reduced :=
  ⟨andThen (decodeNttVec?_eq (by norm_num) (by norm_num) bytes) rfl, decodeNttVec_reduced (by norm_num) bytes⟩

end Steps

/-- **No step of K-PKE goes wrong.** Key generation refuses no step on any seed and reading none on any string of the
right length, and both give reduced keys. Under every reduced public key encryption refuses no step on any message and
randomness, with every reduced private key decryption refuses none on any string as long as a ciphertext, and both
keys are written. What they give is what the functions on words give. -/
theorem encryption_exact (H : Hashes) (p : ParameterSet) :
    (∀ d, keyPair? H p d = some (keyPair H p d) ∧
      (keyPair H p d).1.sHat.Reduced ∧ (keyPair H p d).2.tHat.Reduced) ∧
    (∀ bytes : Bytes p.encapsulationKeySize, EncryptionKey.ofBytes? p bytes.toList = some (.ofBytes bytes) ∧
      (EncryptionKey.ofBytes bytes).tHat.Reduced) ∧
    (∀ bytes : Bytes p.decryptionKeySize, DecryptionKey.ofBytes? p bytes.toList = some (.ofBytes bytes) ∧
      (DecryptionKey.ofBytes bytes).sHat.Reduced) ∧
    (∀ ek : EncryptionKey p, ek.tHat.Reduced →
      ek.toBytes? = some ek.toBytes ∧ ∀ m r, ek.encrypt? H m r = some (ek.encrypt H m r)) ∧
    ∀ dk : DecryptionKey p, dk.sHat.Reduced →
      dk.toBytes? = some dk.toBytes ∧ ∀ c : Bytes p.ciphertextSize, dk.decrypt? c.toList = some (dk.decrypt c) := by
  refine ⟨fun d => ⟨keyPair?_eq H p d, ?_, tHat_reduced H p d⟩, EncryptionKey.ofBytes?_eq, DecryptionKey.ofBytes?_eq,
    fun ek hek => ⟨EncryptionKey.toBytes?_eq hek, fun m r => EncryptionKey.encrypt?_eq H m r hek⟩,
    fun dk hdk => ⟨DecryptionKey.toBytes?_eq hdk, DecryptionKey.decrypt?_eq hdk⟩⟩
  exact nttVec_reduced (secret_reduced H p d)

/-- keys of strings all of whose bits are set, which no key is written as -/
theorem encryption_exact_all_ones :
    let ek : EncryptionKey .mlKem512 := .ofBytes (Vector.replicate 800 0xff)
    let dk : DecryptionKey .mlKem512 := .ofBytes (Vector.replicate 768 0xff)
    ek.tHat.Reduced ∧ dk.sHat.Reduced ∧ ek.toBytes? = some ek.toBytes ∧ dk.toBytes? = some dk.toBytes ∧
      (∀ m r, ek.encrypt? Hashes.standard m r = some (ek.encrypt Hashes.standard m r)) ∧
      ∀ c : Bytes 768, dk.decrypt? c.toList = some (dk.decrypt c) := by
  intro ek dk
  obtain ⟨-, hpublic, hprivate, hencrypt, hdecrypt⟩ := encryption_exact Hashes.standard .mlKem512
  have hek : ek.tHat.Reduced := (hpublic (Vector.replicate 800 0xff)).2
  have hdk : dk.sHat.Reduced := (hprivate (Vector.replicate 768 0xff)).2
  exact ⟨hek, hdk, (hencrypt ek hek).1, (hdecrypt dk hdk).1, (hencrypt ek hek).2, (hdecrypt dk hdk).2⟩

end PostQuantum.MLKEM
