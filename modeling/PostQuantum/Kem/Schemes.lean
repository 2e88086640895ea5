/-
The mechanisms of the library: ML-KEM with its three parameter sets, X-Wing, and toy schemes.

Every operation checks lengths first, then that the key is one of its own. A toy scheme hides a seed by adding the
key to it; it keeps nothing secret and serves to exercise what is common to all schemes. `shipped` lists the four
real schemes in the order of the registry, which `byName` looks them up in.
-/
import PostQuantum.Kem.Key
import PostQuantum.Kem.Scheme
import PostQuantum.Registry

namespace PostQuantum.Kem

open Bytes (sized)
open MLKEM (ParameterSet)

/-- the schemes of the library -/
abbrev AnyScheme := Scheme PublicKey PrivateKey

/-- ML-KEM with parameters `p` -/
def mlKem (H : MLKEM.Hashes) (p : ParameterSet) : AnyScheme where
  name := p.name
  publicKeySize := p.encapsulationKeySize
  privateKeySize := p.decapsulationKeySize
  ciphertextSize := p.ciphertextSize
  sharedKeySize := MLKEM.sharedKeySize
  seedSize := MLKEM.seedSize
  encapsulationSeedSize := MLKEM.encapsulationSeedSize
  deriveKey seed := do
    let dk ← MLKEM.DecapsulationKey.fromSeed H p seed
    .ok (.mlKem p dk.ek, .mlKem p dk)
  encapsulateWith pk seed := do
    let m ← sized 32 .badSeedLength seed
    let ek ← pk.asMlKem p
    let (ciphertext, shared) := ek.encapsulateWith H m
    .ok (ciphertext.toList, shared.toList)
  decapsulate sk ciphertext := do
    let c ← sized p.ciphertextSize .badCiphertextLength ciphertext
    let dk ← sk.asMlKem p
    .ok (dk.decapsulateExact H c).toList
  readPublicKey bytes := do
    let ek ← MLKEM.EncapsulationKey.ofBytes H p bytes
    .ok (.mlKem p ek)
  readPrivateKey bytes := do
    let dk ← MLKEM.DecapsulationKey.ofBytes H p bytes
    .ok (.mlKem p dk)

/-- X-Wing -/
def xWing (P : XWing.Primitives) : AnyScheme where
  name := XWing.name
  publicKeySize := XWing.encapsulationKeySize
  privateKeySize := XWing.decapsulationKeySize
  ciphertextSize := XWing.ciphertextSize
  sharedKeySize := XWing.sharedKeySize
  seedSize := XWing.decapsulationKeySize
  encapsulationSeedSize := XWing.encapsulationSeedSize
  deriveKey seed := do
    let dk ← XWing.DecapsulationKey.fromSeed P seed
    .ok (.xWing dk.ek, .xWing dk)
  encapsulateWith pk seed := do
    let randomness ← sized 64 .badSeedLength seed
    let ek ← pk.asXWing
    let (ciphertext, shared) := ek.encapsulateWith P randomness
    .ok (ciphertext.toList, shared.toList)
  decapsulate sk ciphertext := do
    let c ← sized XWing.ciphertextSize .badCiphertextLength ciphertext
    let dk ← sk.asXWing
    .ok (dk.decapsulateExact P c).toList
  readPublicKey bytes := do
    let ek ← XWing.EncapsulationKey.ofBytes P bytes
    .ok (.xWing ek)
  readPrivateKey bytes := do
    let dk ← XWing.DecapsulationKey.ofBytes P bytes
    .ok (.xWing dk)

/-- byte by byte, the sum without carries -/
def addBytes {n : Nat} (a b : Bytes n) : Bytes n := Vector.zipWith (· ^^^ ·) a b

/-- the toy scheme called `name`: both keys are the seed, and a ciphertext is the shared key plus the key -/
def toy (name : String) : AnyScheme where
  name := name
  publicKeySize := toySize
  privateKeySize := toySize
  ciphertextSize := toySize
  sharedKeySize := toySize
  seedSize := toySize
  encapsulationSeedSize := toySize
  deriveKey seed := do
    let key ← sized toySize .badSeedLength seed
    .ok (.toy name key, .toy name key)
  encapsulateWith pk seed := do
    let shared ← sized toySize .badSeedLength seed
    let key ← pk.asToy name
    .ok ((addBytes shared key).toList, shared.toList)
  decapsulate sk ciphertext := do
    let c ← sized toySize .badCiphertextLength ciphertext
    let key ← sk.asToy name
    .ok (addBytes c key).toList
  readPublicKey bytes := do
    let key ← sized toySize .badKeyLength bytes
    if key = Bytes.zeros toySize then .error .invalidPublicKey else .ok (.toy name key)
  readPrivateKey bytes := do
    let key ← sized toySize .badKeyLength bytes
    .ok (.toy name key)

/-- the real schemes, in the order they are registered -/
def shipped (P : XWing.Primitives) : List AnyScheme :=
  ParameterSet.all.map (mlKem P.toHashes) ++ [xWing P]

/-- fill a registry with schemes -/
def register (schemes : List AnyScheme) : Except Error (Registry.Builder AnyScheme) :=
  Registry.Builder.empty.registerAll Scheme.name .duplicateScheme schemes

/-- the registry of the real schemes; their names differ, so it is never refused -/
def registry (P : XWing.Primitives) : Registry AnyScheme :=
  match register (shipped P) with
  | .ok builder => builder.build
  | .error _ => Registry.Builder.empty.build

/-- the real scheme called `name` -/
def byName (P : XWing.Primitives) (name : String) : Option AnyScheme :=
  (registry P).lookup name

end PostQuantum.Kem
