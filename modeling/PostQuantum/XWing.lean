/-
X-Wing, the hybrid of ML-KEM-768 and X25519.

A key is a pair of keys, a ciphertext a pair of ciphertexts, and the shared key is a hash of both shared keys with the
X25519 half of the ciphertext and of the public key. A private key is its 32-byte seed, from which both halves are
expanded. The functions it is built on are a parameter, `Primitives`.
-/
import PostQuantum.MLKEM.Keys
import PostQuantum.X25519

namespace PostQuantum.XWing

open Bytes (sized)
open Kem (Error)
open MLKEM (ParameterSet)

variable {σ : Type}

/-- the hash functions of both halves, and the agreement on a point -/
structure Primitives extends MLKEM.Hashes where
  /-- the seeds of both halves from one -/
  expand : Bytes 32 → Bytes 96
  /-- the shared key from everything that goes into it -/
  combine : List UInt8 → Bytes 32
  agree : Bytes 32 → Bytes 32 → Bytes 32

/-- the functions of the standards -/
def Primitives.standard : Primitives where
  toHashes := MLKEM.Hashes.standard
  expand seed := Keccak.shake256 96 seed.toList
  combine := Keccak.sha3_256
  agree := X25519.x25519

def name : String := "X-Wing"

/-- what keeps the combined hash apart from other uses -/
def label : List UInt8 := [0x5c, 0x2e, 0x2f, 0x2f, 0x5e, 0x5c]

abbrev encapsulationKeySize : Nat := ParameterSet.mlKem768.encapsulationKeySize + 32

abbrev decapsulationKeySize : Nat := 32

abbrev ciphertextSize : Nat := ParameterSet.mlKem768.ciphertextSize + 32

def sharedKeySize : Nat := 32

def encapsulationSeedSize : Nat := 64

/-- the shared key -/
def combine (P : Primitives) (sharedM sharedX ciphertextX publicX : Bytes 32) : Bytes 32 :=
  P.combine (sharedM.toList ++ sharedX.toList ++ ciphertextX.toList ++ publicX.toList ++ label)

/-- a public key: that of ML-KEM-768, and a point -/
structure EncapsulationKey where
  mlKem : MLKEM.EncapsulationKey .mlKem768
  point : Bytes 32
  deriving DecidableEq

namespace EncapsulationKey

def toBytes (ek : EncapsulationKey) : Bytes encapsulationKeySize :=
  Bytes.append ek.mlKem.toBytes ek.point

/-- read an encoding; any 32 bytes are a point -/
def ofBytes (P : Primitives) (bytes : List UInt8) : Except Error EncapsulationKey := do
  let encoding ← sized encapsulationKeySize .badKeyLength bytes
  let (m, x) := Bytes.split encoding
  let mlKem ← MLKEM.EncapsulationKey.ofBytes P.toHashes .mlKem768 m.toList
  .ok ⟨mlKem, x⟩

/-- the two keys agree; points agree when they have one coordinate, however they are written -/
def sameKey (a b : EncapsulationKey) : Bool :=
  a.mlKem = b.mlKem ∧ X25519.coordinate a.point = X25519.coordinate b.point

/-- the ciphertext and the shared key of 32 bytes for ML-KEM and a secret for X25519 -/
def encapsulateWith (P : Primitives) (ek : EncapsulationKey) (randomness : Bytes 64) :
    Bytes ciphertextSize × Bytes 32 :=
  let (m, secret) := Bytes.halves randomness
  let (ciphertextM, sharedM) := ek.mlKem.encapsulateWith P.toHashes m
  let ciphertextX := P.agree secret X25519.basePoint
  let sharedX := P.agree secret ek.point
  (Bytes.append ciphertextM ciphertextX, combine P sharedM sharedX ciphertextX ek.point)

/-- encapsulate with randomness drawn from `source` -/
def encapsulate (P : Primitives) (ek : EncapsulationKey) (source : Entropy σ) (s : σ) :
    Except Error (Bytes ciphertextSize × Bytes 32) × σ :=
  source.drawThen 64 .entropyUnavailable (fun r => .ok (ek.encapsulateWith P r)) s

def text (_ : EncapsulationKey) : String :=
  "EncapsulationKey \x7b scheme: " ++ Text.quoted name ++ s!", len: {encapsulationKeySize} \x7d"

end EncapsulationKey

/-- a private key: its seed, and what the seed expands to -/
structure DecapsulationKey where
  seed : Bytes 32
  mlKem : MLKEM.DecapsulationKey .mlKem768
  secret : Bytes 32
  ek : EncapsulationKey
  deriving DecidableEq

namespace DecapsulationKey

def ofSeed (P : Primitives) (seed : Bytes 32) : DecapsulationKey :=
  let (seedM, secret) := Bytes.split (show Bytes (64 + 32) from P.expand seed)
  let mlKem := MLKEM.DecapsulationKey.ofSeed P.toHashes .mlKem768 seedM
  { seed := seed
    mlKem := mlKem
    secret := secret
    ek := ⟨mlKem.ek, P.agree secret X25519.basePoint⟩ }

def fromSeed (P : Primitives) (seed : List UInt8) : Except Error DecapsulationKey := do
  let seed ← sized decapsulationKeySize .badSeedLength seed
  .ok (ofSeed P seed)

/-- the key of a seed drawn from `source` -/
def generate (P : Primitives) (source : Entropy σ) (s : σ) : Except Error DecapsulationKey × σ :=
  source.drawThen 32 .entropyUnavailable (fun seed => fromSeed P seed.toList) s

/-- the encoding is the seed -/
def toBytes (dk : DecapsulationKey) : Bytes decapsulationKeySize := dk.seed

def ofBytes (P : Primitives) (bytes : List UInt8) : Except Error DecapsulationKey := do
  let seed ← sized decapsulationKeySize .badKeyLength bytes
  .ok (ofSeed P seed)

/-- the shared key of a ciphertext; the ML-KEM half of it may be rejected, which shows in the key alone -/
def decapsulateExact (P : Primitives) (dk : DecapsulationKey) (c : Bytes ciphertextSize) : Bytes 32 :=
  let (ciphertextM, ciphertextX) := Bytes.split c
  let sharedM := dk.mlKem.decapsulateExact P.toHashes ciphertextM
  let sharedX := P.agree dk.secret ciphertextX
  combine P sharedM sharedX ciphertextX dk.ek.point

def decapsulate (P : Primitives) (dk : DecapsulationKey) (c : List UInt8) : Except Error (Bytes 32) := do
  let c ← sized ciphertextSize .badCiphertextLength c
  .ok (dk.decapsulateExact P c)

def text (_ : DecapsulationKey) : String :=
  "DecapsulationKey \x7b scheme: " ++ Text.quoted name ++ ", .. \x7d"

end DecapsulationKey

end PostQuantum.XWing
