/-
X-Wing with every check and every step that may leave its range.

Each operation checks the length of its string, cuts it in two and calls that of ML-KEM-768 on the first part, which
checks a length again and could answer an error of its own.
- `EncapsulationKey.ofBytes?_eq`, `DecapsulationKey.fromSeed?_eq`, `DecapsulationKey.ofBytes?_eq`: keys are derived and
  read with no step out of range, whatever the string is.
- `EncapsulationKey.encapsulateWith?_eq`, `DecapsulationKey.decapsulate?_eq`: nor is there one in encapsulation or in
  decapsulation, for keys with reduced coefficients.
The checks inside are for lengths that the cuts have made right, so of their errors only that of a malformed public key
is ever answered.
-/
import Mathlib.Tactic
import PostQuantum.Proofs.MLKEM.Exact.Keys
import PostQuantum.XWing

namespace PostQuantum.XWing

open InRange Guarded
open Bytes (sized_eq_ok_iff)
open Kem (Error)

/-! ## Public keys -/

namespace EncapsulationKey

/-- read an encoding: its length, the ML-KEM key in the first 1184 bytes, and the point in the other 32 -/
def ofBytes? (P : Primitives) (bytes : List UInt8) : Guarded Error EncapsulationKey := do
  checkLength 1216 .badKeyLength bytes.length
  let (m, x) ← splitAt? 1184 bytes
  let mlKem ← MLKEM.EncapsulationKey.ofBytes? P.toHashes .mlKem768 m
  let point ← Bytes.ofList? 32 x
  return ⟨mlKem, point⟩

/-- the ciphertext and the shared key of 32 bytes for ML-KEM and 32 for X25519 -/
def encapsulateWith? (P : Primitives) (ek : EncapsulationKey) (randomness : Bytes 64) :
    Option (Bytes ciphertextSize × Bytes 32) := do
  let (m, secret) ← splitAt? 32 randomness.toList
  let m ← Bytes.ofList? 32 m
  let (ciphertextM, sharedM) ← ek.mlKem.encapsulateWith? P.toHashes m
  let secret ← Bytes.ofList? 32 secret
  let ciphertextX := P.agree secret X25519.basePoint
  let sharedX := P.agree secret ek.point
  some (Bytes.append ciphertextM ciphertextX, combine P sharedM sharedX ciphertextX ek.point)

theorem ofBytes?_eq (P : Primitives) (bytes : List UInt8) : ofBytes? P bytes = answer (ofBytes P bytes) := by
  refine checkLength_bind fun (encoding : Bytes encapsulationKeySize) h => ?_
  subst h
  obtain ⟨m, x, rfl⟩ := Bytes.exists_append encoding
  rw [Bytes.split_append]
  refine step_bind (splitAt?_append m x) ?_
  refine call_bind (MLKEM.EncapsulationKey.ofBytes?_eq P.toHashes .mlKem768 m.toList) fun mlKem _ => ?_
  exact step_bind (Bytes.ofList?_toList x) rfl

theorem encapsulateWith?_eq (P : Primitives) {ek : EncapsulationKey} (hek : ek.mlKem.key.tHat.Reduced)
    (randomness : Bytes 64) : ek.encapsulateWith? P randomness = some (ek.encapsulateWith P randomness) := by
  obtain ⟨m, secret, rfl, hhalves⟩ := Bytes.exists_halves randomness
  rw [encapsulateWith, hhalves]
  refine andThen (splitAt?_append m secret) ?_
  refine andThen (Bytes.ofList?_toList m) ?_
  refine andThen (MLKEM.EncapsulationKey.encapsulateWith?_eq P.toHashes hek m) ?_
  exact andThen (Bytes.ofList?_toList secret) rfl

end EncapsulationKey

/-! ## Private keys -/

namespace DecapsulationKey

/-- the key of a seed: the ML-KEM key of the first 64 bytes that it expands to, and a secret in the other 32 -/
def fromSeed? (P : Primitives) (seed : List UInt8) : Guarded Error DecapsulationKey := do
  checkLength 32 .badSeedLength seed.length
  let exact ← Bytes.ofList? 32 seed
  let (seedM, secret) ← splitAt? 64 (P.expand exact).toList
  let mlKem ← MLKEM.DecapsulationKey.fromSeed? P.toHashes .mlKem768 seedM
  let secret ← Bytes.ofList? 32 secret
  return { seed := exact, mlKem := mlKem, secret := secret, ek := ⟨mlKem.ek, P.agree secret X25519.basePoint⟩ }

/-- read an encoding: its length as that of a key, and then all of a seed -/
def ofBytes? (P : Primitives) (bytes : List UInt8) : Guarded Error DecapsulationKey := do
  checkLength 32 .badKeyLength bytes.length
  fromSeed? P bytes

/-- the shared key of a ciphertext: that of ML-KEM for its first 1088 bytes, and the agreement on the other 32 -/
def decapsulate? (P : Primitives) (dk : DecapsulationKey) (c : List UInt8) : Guarded Error (Bytes 32) := do
  checkLength 1120 .badCiphertextLength c.length
  let (ciphertextM, ciphertextX) ← splitAt? 1088 c
  let sharedM ← dk.mlKem.decapsulate? P.toHashes ciphertextM
  let ciphertextX ← Bytes.ofList? 32 ciphertextX
  let sharedX := P.agree dk.secret ciphertextX
  return combine P sharedM sharedX ciphertextX dk.ek.point

/-- **Deriving a key** takes no step out of range: the first 64 bytes that a seed expands to are a seed of ML-KEM, so its
check answers no error. -/
theorem fromSeed?_eq (P : Primitives) (seed : List UInt8) : fromSeed? P seed = answer (fromSeed P seed) := by
  refine checkLength_bind fun exact h => ?_
  subst h
  refine step_bind (Bytes.ofList?_toList exact) ?_
  obtain ⟨seedM, secret, hexpand⟩ : ∃ (seedM : Bytes 64) (secret : Bytes 32),
      P.expand exact = Bytes.append seedM secret :=
    Bytes.exists_append (m := 64) (n := 32) (P.expand exact)
  have hsplit : Bytes.split (show Bytes (64 + 32) from Bytes.append seedM secret) = (seedM, secret) :=
    Bytes.split_append seedM secret
  rw [ofSeed, hexpand, hsplit]
  refine step_bind (splitAt?_append seedM secret) ?_
  refine ok_bind (MLKEM.DecapsulationKey.fromSeed?_toList P.toHashes .mlKem768 seedM) ?_
  exact step_bind (Bytes.ofList?_toList secret) rfl

/-- the second check of the length answers no error -/
theorem ofBytes?_eq (P : Primitives) (bytes : List UInt8) : ofBytes? P bytes = answer (ofBytes P bytes) := by
  refine checkLength_bind fun exact h => ?_
  subst h
  rw [fromSeed?_eq, fromSeed, sized_eq_ok_iff.2 rfl]
  rfl

/-- **Decapsulation** with a key of reduced coefficients takes no step out of range: the first 1088 bytes are a ciphertext
of ML-KEM, so its check answers no error. -/
theorem decapsulate?_eq (P : Primitives) {dk : DecapsulationKey} (hdk : dk.mlKem.key.sHat.Reduced)
    (hek : dk.mlKem.ek.key.tHat.Reduced) (c : List UInt8) : dk.decapsulate? P c = answer (dk.decapsulate P c) := by
  refine checkLength_bind fun (exact : Bytes ciphertextSize) h => ?_
  subst h
  obtain ⟨ciphertextM, ciphertextX, rfl⟩ := Bytes.exists_append exact
  rw [decapsulateExact, Bytes.split_append]
  refine step_bind (splitAt?_append ciphertextM ciphertextX) ?_
  refine ok_bind (MLKEM.DecapsulationKey.decapsulate?_toList P.toHashes hdk hek ciphertextM) ?_
  exact step_bind (Bytes.ofList?_toList ciphertextX) rfl

/-- with as many bytes as a ciphertext has the check answers no error -/
theorem decapsulate?_toList (P : Primitives) {dk : DecapsulationKey} (hdk : dk.mlKem.key.sHat.Reduced)
    (hek : dk.mlKem.ek.key.tHat.Reduced) (c : Bytes ciphertextSize) :
    dk.decapsulate? P c.toList = answer (.ok (dk.decapsulateExact P c)) := by
  rw [decapsulate?_eq P hdk hek, decapsulate, sized_eq_ok_iff.2 rfl]
  rfl

end DecapsulationKey

end PostQuantum.XWing
