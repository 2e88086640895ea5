/-
ML-KEM with every check and every step that may leave its range.

The operations on keys as sequences of steps: the check of the length first, then cuts, copies and the steps of K-PKE,
and the comparison and the choice of secrets byte by byte.
- `EncapsulationKey.ofBytes?_eq`, `DecapsulationKey.fromSeed?_eq`, `DecapsulationKey.ofBytes?_eq`: keys are derived and
  read with no step out of range, whatever the string is.
- `DecapsulationKey.ofList?_assign_same`: the loops over bytes that compare ciphertexts and choose the shared key.
- `EncapsulationKey.encapsulateWith?_eq`, `DecapsulationKey.decapsulate?_eq`: nor is there a step out of range in
  encapsulation or in decapsulation, for keys with reduced coefficients.
What they answer is what the operations on strings of the right length answer.
-/
import Mathlib.Tactic
import PostQuantum.Proofs.ConstantTime
import PostQuantum.Proofs.Guarded
import PostQuantum.Proofs.MLKEM.Exact.Encryption
import PostQuantum.Proofs.MLKEM.Keys

namespace PostQuantum.MLKEM

open InRange Guarded
open Bytes (sized_eq_ok_iff)
open Kem (Error)

variable {p : ParameterSet}

/-! ## Public keys -/

namespace EncapsulationKey

/-- read an encoding: its length, then whether the key in it is written as it was -/
def ofBytes? (H : Hashes) (p : ParameterSet) (bytes : List UInt8) : Guarded Error (EncapsulationKey p) := do
  checkLength p.encapsulationKeySize .badKeyLength bytes.length
  let key ← EncryptionKey.ofBytes? p bytes
  let canonical ← key.toBytes?
  if canonical.toList ≠ bytes then throw .invalidPublicKey
  else return ⟨key, H.h canonical.toList⟩

/-- the ciphertext and the shared key of a message -/
def encapsulateWith? (H : Hashes) (ek : EncapsulationKey p) (m : Bytes 32) :
    Option (Bytes p.ciphertextSize × Bytes 32) := do
  let (shared, r) := H.g (m.toList ++ ek.hash.toList)
  let ciphertext ← ek.key.encrypt? H m r
  some (ciphertext, shared)

theorem ofBytes?_eq (H : Hashes) (p : ParameterSet) (bytes : List UInt8) :
    ofBytes? H p bytes = answer (ofBytes H p bytes) := by
  refine checkLength_bind fun encoding h => ?_
  subst h
  obtain ⟨hread, hreduced⟩ := EncryptionKey.ofBytes?_eq encoding
  refine step_bind hread ?_
  refine step_bind (EncryptionKey.toBytes?_eq hreduced) ?_
  refine throw_unless ?_ rfl
  rw [ne_eq, Vector.toList_inj]

theorem encapsulateWith?_eq (H : Hashes) {ek : EncapsulationKey p} (hek : ek.key.tHat.Reduced) (m : Bytes 32) :
    ek.encapsulateWith? H m = some (ek.encapsulateWith H m) :=
  andThen (EncryptionKey.encrypt?_eq H m _ hek) rfl

end EncapsulationKey

/-! ## Private keys -/

namespace DecapsulationKey

/-- the key of a seed: d in its first 32 bytes, z in the others -/
def fromSeed? (H : Hashes) (p : ParameterSet) (seed : List UInt8) : Guarded Error (DecapsulationKey p) := do
  checkLength 64 .badSeedLength seed.length
  let (d, z) ← splitAt? 32 seed
  let d ← Bytes.ofList? 32 d
  let z ← Bytes.ofList? 32 z
  let (dk, ek) ← keyPair? H p d
  let encoding ← ek.toBytes?
  let seed ← Bytes.ofList? 64 seed
  return { key := dk, ek := ⟨ek, H.h encoding.toList⟩, z := z, seed := some seed }

/-- read an encoding in its four parts; no error of the public key in it is told -/
def ofBytes? (H : Hashes) (p : ParameterSet) (bytes : List UInt8) : Guarded Error (DecapsulationKey p) := do
  checkLength p.decapsulationKeySize .badKeyLength bytes.length
  let (keyPart, rest) ← splitAt? p.decryptionKeySize bytes
  let (ekPart, rest) ← splitAt? p.encapsulationKeySize rest
  let (hash, zPart) ← splitAt? 32 rest
  let key ← DecryptionKey.ofBytes? p keyPart
  let canonical ← key.toBytes?
  let ek ← (EncapsulationKey.ofBytes? H p ekPart).adapt fun _ => Error.invalidPrivateKey
  if !ConstantTime.same canonical.toList keyPart || ek.hash.toList ≠ hash then throw .invalidPrivateKey
  else
    let z ← Bytes.ofList? 32 zPart
    return { key := key, ek := ek, z := z, seed := none }

/-- the shared key of a ciphertext: decrypt, encrypt again, and assign the other key where the ciphertexts differ -/
def decapsulate? (H : Hashes) (dk : DecapsulationKey p) (c : List UInt8) : Guarded Error (Bytes 32) := do
  checkLength p.ciphertextSize .badCiphertextLength c.length
  let m ← dk.key.decrypt? c
  let (shared, r) := H.g (m.toList ++ dk.ek.hash.toList)
  let rejected := H.j (dk.z.toList ++ c)
  let again ← dk.ek.key.encrypt? H m r
  let reject := !ConstantTime.same c again.toList
  let shared ← Bytes.ofList? 32 (ConstantTime.assign reject shared.toList rejected.toList)
  return shared

theorem fromSeed?_eq (H : Hashes) (p : ParameterSet) (seed : List UInt8) :
    fromSeed? H p seed = answer (fromSeed H p seed) := by
  refine checkLength_bind fun exact h => ?_
  subst h
  obtain ⟨d, z, rfl, hhalves⟩ := Bytes.exists_halves exact
  refine step_bind (splitAt?_append d z) ?_
  refine step_bind (Bytes.ofList?_toList d) ?_
  refine step_bind (Bytes.ofList?_toList z) ?_
  refine step_bind (keyPair?_eq H p d) ?_
  refine step_bind (EncryptionKey.toBytes?_eq (tHat_reduced H p d)) ?_
  refine step_bind (Bytes.ofList?_toList (n := 64) (Bytes.append d z)) ?_
  rw [ofSeed, hhalves]
  rfl

/-- with 64 bytes the check answers no error -/
theorem fromSeed?_toList (H : Hashes) (p : ParameterSet) (seed : Bytes 64) :
    fromSeed? H p seed.toList = answer (.ok (ofSeed H p seed)) := by
  rw [fromSeed?_eq, fromSeed, sized_eq_ok_iff.2 rfl]
  rfl

theorem ofBytes?_eq (H : Hashes) (p : ParameterSet) (bytes : List UInt8) :
    ofBytes? H p bytes = answer (ofBytes H p bytes) := by
  refine checkLength_bind fun encoding h => ?_
  subst h
  obtain ⟨keyPart, ekPart, hash, z, rfl⟩ := exists_parts encoding
  obtain ⟨hread, hreduced⟩ := DecryptionKey.ofBytes?_eq keyPart
  simp only [Bytes.split_append]
  refine step_bind (splitAt?_append keyPart _) ?_
  refine step_bind (splitAt?_append ekPart _) ?_
  refine step_bind (splitAt?_append hash z) ?_
  refine step_bind hread ?_
  refine step_bind (DecryptionKey.toBytes?_eq hreduced) ?_
  rw [EncapsulationKey.ofBytes?_eq]
  cases EncapsulationKey.ofBytes H p ekPart.toList with
  | error e => rfl
  | ok ek =>
    -- the four parts fit together under one condition or the other
    have hfit : (!ConstantTime.same (DecryptionKey.ofBytes keyPart).toBytes.toList keyPart.toList ||
        decide (ek.hash.toList ≠ hash.toList)) = true ↔
        ¬((DecryptionKey.ofBytes keyPart).toBytes = keyPart ∧ ek.hash = hash) := by
      rw [ConstantTime.same_eq]
      simp only [Bool.or_eq_true, Bool.not_eq_true', decide_eq_false_iff_not, decide_eq_true_eq, Vector.toList_inj,
        not_and_or, ne_eq]
    exact throw_unless hfit (step_bind (Bytes.ofList?_toList z) rfl)

/-- **The choice of the shared key** byte by byte, whatever the key and the ciphertext are -/
theorem ofList?_assign_same (H : Hashes) (dk : DecapsulationKey p) (c : Bytes p.ciphertextSize) :
    let m := dk.key.decrypt c
    let (shared, r) := H.g (m.toList ++ dk.ek.hash.toList)
    let rejected := H.j (dk.z.toList ++ c.toList)
    let again := dk.ek.key.encrypt H m r
    Bytes.ofList? 32
        (ConstantTime.assign (!ConstantTime.same c.toList again.toList) shared.toList rejected.toList) =
      some (dk.decapsulateExact H c) := by
  simp only [decapsulateExact]
  rcases H.g ((dk.key.decrypt c).toList ++ dk.ek.hash.toList) with ⟨shared, r⟩
  simp only [ConstantTime.ofList?_assign, ConstantTime.same_eq, Vector.toList_inj, Bool.not_eq_true',
    decide_eq_false_iff_not, ite_not, eq_comm (a := c)]

/-- **Decapsulation** with a key of reduced coefficients takes no step out of range. -/
theorem decapsulate?_eq (H : Hashes) {dk : DecapsulationKey p} (hdk : dk.key.sHat.Reduced)
    (hek : dk.ek.key.tHat.Reduced) (c : List UInt8) : dk.decapsulate? H c = answer (dk.decapsulate H c) := by
  refine checkLength_bind fun exact h => ?_
  subst h
  refine step_bind (DecryptionKey.decrypt?_eq hdk exact) ?_
  have hchoice := ofList?_assign_same H dk exact
  rcases hg : H.g ((dk.key.decrypt exact).toList ++ dk.ek.hash.toList) with ⟨shared, r⟩
  simp only [hg] at hchoice
  refine step_bind (EncryptionKey.encrypt?_eq H _ r hek) ?_
  exact step_eq hchoice rfl

/-- with as many bytes as a ciphertext has the check answers no error -/
theorem decapsulate?_toList (H : Hashes) {dk : DecapsulationKey p} (hdk : dk.key.sHat.Reduced)
    (hek : dk.ek.key.tHat.Reduced) (c : Bytes p.ciphertextSize) :
    dk.decapsulate? H c.toList = answer (.ok (dk.decapsulateExact H c)) := by
  rw [decapsulate?_eq H hdk hek, decapsulate, sized_eq_ok_iff.2 rfl]
  rfl

end DecapsulationKey

end PostQuantum.MLKEM
