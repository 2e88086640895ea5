/-
ML-KEM, the key encapsulation mechanism over K-PKE.

An encapsulation key carries the hash of its encoding. A decapsulation key carries the matching encapsulation key, a
secret z for rejection and, if it was derived from one, its seed. Encapsulation derives the randomness of encryption
from the message and the hash; decapsulation decrypts, encrypts again and compares, and where the ciphertexts differ
it returns a key that depends on z and the ciphertext alone.
Reading a key accepts only what writing produces: coefficients have to be reduced, and the hash inside a
decapsulation key has to be that of the key beside it.
-/
import PostQuantum.Entropy
import PostQuantum.Kem.Error
import PostQuantum.MLKEM.Encryption

namespace PostQuantum.MLKEM

open Bytes (sized)
open Kem (Error)

variable {p : ParameterSet} {σ : Type}

def sharedKeySize : Nat := 32

def seedSize : Nat := 64

def encapsulationSeedSize : Nat := 32

/-- a public key and the hash of its encoding -/
structure EncapsulationKey (p : ParameterSet) where
  key : EncryptionKey p
  hash : Bytes 32
  deriving DecidableEq

namespace EncapsulationKey

/-- the key with its hash -/
def ofKey (H : Hashes) (key : EncryptionKey p) : EncapsulationKey p :=
  ⟨key, H.h key.toBytes.toList⟩

def toBytes (ek : EncapsulationKey p) : Bytes p.encapsulationKeySize := ek.key.toBytes

/-- read an encoding, if it is the one that the key in it has -/
def ofBytes (H : Hashes) (p : ParameterSet) (bytes : List UInt8) : Except Error (EncapsulationKey p) := do
  let encoding ← sized p.encapsulationKeySize .badKeyLength bytes
  let key := EncryptionKey.ofBytes encoding
  if key.toBytes = encoding then .ok (ofKey H key) else .error .invalidPublicKey

/-- the ciphertext and the shared key of a message -/
def encapsulateWith (H : Hashes) (ek : EncapsulationKey p) (m : Bytes 32) : Bytes p.ciphertextSize × Bytes 32 :=
  let (shared, r) := H.g (m.toList ++ ek.hash.toList)
  (ek.key.encrypt H m r, shared)

/-- encapsulate a message drawn from `source` -/
def encapsulate (H : Hashes) (ek : EncapsulationKey p) (source : Entropy σ) (s : σ) :
    Except Error (Bytes p.ciphertextSize × Bytes 32) × σ :=
  source.drawThen 32 .entropyUnavailable (fun m => .ok (ek.encapsulateWith H m)) s

def text (_ : EncapsulationKey p) : String :=
  "EncapsulationKey \x7b scheme: " ++ Text.quoted p.name ++ s!", len: {p.encapsulationKeySize} \x7d"

end EncapsulationKey

/-- a private key -/
structure DecapsulationKey (p : ParameterSet) where
  key : DecryptionKey p
  ek : EncapsulationKey p
  /-- what rejected ciphertexts are hashed with -/
  z : Bytes 32
  seed : Option (Bytes 64)
  deriving DecidableEq

namespace DecapsulationKey

/-- the key of the seed d followed by z -/
def ofSeed (H : Hashes) (p : ParameterSet) (seed : Bytes 64) : DecapsulationKey p :=
  let (d, z) := Bytes.halves seed
  let (dk, ek) := keyPair H p d
  { key := dk, ek := EncapsulationKey.ofKey H ek, z := z, seed := some seed }

def fromSeed (H : Hashes) (p : ParameterSet) (seed : List UInt8) : Except Error (DecapsulationKey p) := do
  let seed ← sized 64 .badSeedLength seed
  .ok (ofSeed H p seed)

/-- the key of a seed drawn from `source` -/
def generate (H : Hashes) (p : ParameterSet) (source : Entropy σ) (s : σ) : Except Error (DecapsulationKey p) × σ :=
  source.drawThen 64 .entropyUnavailable (fun seed => fromSeed H p seed.toList) s

/-- the secret vector, the encapsulation key, its hash, and z -/
def toBytes (dk : DecapsulationKey p) : Bytes p.decapsulationKeySize :=
  Bytes.append dk.key.toBytes (Bytes.append dk.ek.toBytes (Bytes.append dk.ek.hash dk.z))

/-- read an encoding, if all four parts of it fit together -/
def ofBytes (H : Hashes) (p : ParameterSet) (bytes : List UInt8) : Except Error (DecapsulationKey p) := do
  let encoding ← sized p.decapsulationKeySize .badKeyLength bytes
  let (keyPart, rest) := Bytes.split encoding
  let (ekPart, rest) := Bytes.split rest
  let (hash, z) := Bytes.split rest
  let key := DecryptionKey.ofBytes keyPart
  match EncapsulationKey.ofBytes H p ekPart.toList with
  | .error _ => .error .invalidPrivateKey
  | .ok ek =>
    if key.toBytes = keyPart ∧ ek.hash = hash then .ok { key := key, ek := ek, z := z, seed := none }
    else .error .invalidPrivateKey

/-- the shared key of a ciphertext, or the one that stands for its rejection -/
def decapsulateExact (H : Hashes) (dk : DecapsulationKey p) (c : Bytes p.ciphertextSize) : Bytes 32 :=
  let m := dk.key.decrypt c
  let (shared, r) := H.g (m.toList ++ dk.ek.hash.toList)
  let rejected := H.j (dk.z.toList ++ c.toList)
  if dk.ek.key.encrypt H m r = c then shared else rejected

def decapsulate (H : Hashes) (dk : DecapsulationKey p) (c : List UInt8) : Except Error (Bytes 32) := do
  let c ← sized p.ciphertextSize .badCiphertextLength c
  .ok (dk.decapsulateExact H c)

def text (_ : DecapsulationKey p) : String :=
  "DecapsulationKey \x7b scheme: " ++ Text.quoted p.name ++ ", .. \x7d"

end DecapsulationKey

end PostQuantum.MLKEM
