/-
Key encapsulation mechanisms with fixed parameters, seen from outside.

A `Scheme` has a name, the lengths of everything it reads and writes, and deterministic operations; the operations
that use random bytes draw one seed of the declared length and pass it on (`generateKey`, `encapsulate`). The bytes
are drawn before anything else is looked at, so a failing source is reported whatever the key is, and a key of another
scheme still costs a seed.
-/
import PostQuantum.Entropy
import PostQuantum.Kem.Error

namespace PostQuantum.Kem

variable {PK SK σ : Type}

/-- a mechanism with public keys in `PK` and private keys in `SK` -/
structure Scheme (PK SK : Type) where
  name : String
  publicKeySize : Nat
  privateKeySize : Nat
  ciphertextSize : Nat
  sharedKeySize : Nat
  seedSize : Nat
  encapsulationSeedSize : Nat
  /-- the key pair of a seed -/
  deriveKey : List UInt8 → Except Error (PK × SK)
  /-- the ciphertext and the shared key for a public key, from a seed -/
  encapsulateWith : PK → List UInt8 → Except Error (List UInt8 × List UInt8)
  /-- the shared key of a ciphertext -/
  decapsulate : SK → List UInt8 → Except Error (List UInt8)
  readPublicKey : List UInt8 → Except Error PK
  readPrivateKey : List UInt8 → Except Error SK

namespace Scheme

/-- the key pair of a seed drawn from `source` -/
def generateKey (scheme : Scheme PK SK) (source : Entropy σ) (s : σ) : Except Error (PK × SK) × σ :=
  source.drawThen scheme.seedSize .entropyUnavailable (fun seed => scheme.deriveKey seed.toList) s

/-- the ciphertext and the shared key for a public key, from a seed drawn from `source` -/
def encapsulate (scheme : Scheme PK SK) (pk : PK) (source : Entropy σ) (s : σ) :
    Except Error (List UInt8 × List UInt8) × σ :=
  source.drawThen scheme.encapsulationSeedSize .entropyUnavailable
    (fun seed => scheme.encapsulateWith pk seed.toList) s

def text (scheme : Scheme PK SK) : String := "Scheme(" ++ Text.quoted scheme.name ++ ")"

end Scheme

end PostQuantum.Kem
