/-
K-PKE, the public-key encryption scheme inside ML-KEM.

Keys and ciphertexts are noisy linear equations over R_q, and the work is done on their images in T_q. The matrix is
expanded from a public seed and used transposed in encryption. Every noise polynomial has a nonce of its own: in key
generation 0 to k - 1 for the secret and k to 2k - 1 for the errors, in encryption 0 to k - 1 for the vector, k to
2k - 1 for its errors and 2k for the last error.
Reading a key reduces its coefficients, so a key that was not written by `toBytes` may be written differently.
-/
import PostQuantum.MLKEM.Compression
import PostQuantum.MLKEM.Hashes
import PostQuantum.MLKEM.Parameters

namespace PostQuantum.MLKEM

variable {p : ParameterSet}

/-- the secret vector -/
structure DecryptionKey (p : ParameterSet) where
  sHat : TqVec p.k
  deriving DecidableEq

/-- the public vector and the seed of the matrix -/
structure EncryptionKey (p : ParameterSet) where
  tHat : TqVec p.k
  rho : Bytes 32
  deriving DecidableEq

/-- the rank as a byte -/
def rankByte (p : ParameterSet) : UInt8 := UInt8.ofNat p.k

/-- the key pair of a seed -/
def keyPair (H : Hashes) (p : ParameterSet) (d : Bytes 32) : DecryptionKey p × EncryptionKey p :=
  let (rho, sigma) := H.g (d.toList ++ [rankByte p])
  let s := H.noiseVec p.eta1 p.k sigma 0
  let e := H.noiseVec p.eta1 p.k sigma (rankByte p)
  let sHat := nttVec s
  let tHat := mulVec (H.matrix p.k rho false) sHat + nttVec e
  (⟨sHat⟩, ⟨tHat, rho⟩)

namespace EncryptionKey

/-- the two parts of a ciphertext before they are compressed -/
def noisyParts (H : Hashes) (ek : EncryptionKey p) (m r : Bytes 32) : RqVec p.k × Rq :=
  let y := nttVec (H.noiseVec p.eta1 p.k r 0)
  let e1 := H.noiseVec p.eta2 p.k r (rankByte p)
  let e2 := sampleNoise p.eta2 (H.prf p.eta2 r (2 * rankByte p))
  let u := nttInverseVec (mulVec (H.matrix p.k ek.rho true) y) + e1
  let mu := decompressPoly 1 ⟨byteDecode 1 m⟩
  let v := nttInverse (dot ek.tHat y) + e2 + mu
  (u, v)

/-- the ciphertext of `m` under the randomness `r` -/
def encrypt (H : Hashes) (ek : EncryptionKey p) (m r : Bytes 32) : Bytes p.ciphertextSize :=
  let (u, v) := ek.noisyParts H m r
  Bytes.append (encodeVec p.du (compressVec p.du u)) (byteEncode p.dv (compressPoly p.dv v).coeffs)

def toBytes (ek : EncryptionKey p) : Bytes p.encapsulationKeySize :=
  Bytes.append (encodeNttVec 12 ek.tHat) ek.rho

def ofBytes (bytes : Bytes p.encapsulationKeySize) : EncryptionKey p :=
  let (t, rho) := Bytes.split bytes
  ⟨decodeNttVec p.k 12 t, rho⟩

end EncryptionKey

/-- the two parts that a ciphertext decompresses to -/
def ciphertextParts (c : Bytes p.ciphertextSize) : RqVec p.k × Rq :=
  let (c1, c2) := Bytes.split c
  (decompressVec p.du (decodeVec p.k p.du c1), decompressPoly p.dv ⟨byteDecode p.dv c2⟩)

namespace DecryptionKey

/-- the message in noise that a ciphertext holds -/
def noisyMessage (dk : DecryptionKey p) (c : Bytes p.ciphertextSize) : Rq :=
  let (u, v) := ciphertextParts c
  v - nttInverse (dot dk.sHat (nttVec u))

/-- the message of a ciphertext -/
def decrypt (dk : DecryptionKey p) (c : Bytes p.ciphertextSize) : Bytes 32 :=
  byteEncode 1 (compressPoly 1 (dk.noisyMessage c)).coeffs

def toBytes (dk : DecryptionKey p) : Bytes p.decryptionKeySize :=
  encodeNttVec 12 dk.sHat

def ofBytes (bytes : Bytes p.decryptionKeySize) : DecryptionKey p :=
  ⟨decodeNttVec p.k 12 bytes⟩

end DecryptionKey

end PostQuantum.MLKEM
