/-
Decapsulation accepts what encapsulation produced and nothing else.

- `decapsulateExact_eq`: decapsulation encapsulates the decrypted message again, and compares whole ciphertexts.
- `decapsulateExact_of_encapsulated`, `decapsulateExact_of_not_encapsulated`: so a ciphertext of the decrypted message
  gives the key that encapsulation gave, and a ciphertext of no message gives the hash of z and the ciphertext.
- `decapsulate_contract`: this is so for every key that can be had, with the public key read back from its encoding,
  and for the scheme as well.
Nothing is assumed of the hash functions.
-/
import Mathlib.Tactic
import PostQuantum.Kem.Schemes
import PostQuantum.Proofs.MLKEM.Decryption
import PostQuantum.Proofs.MLKEM.Keys

namespace PostQuantum.MLKEM.DecapsulationKey

open Bytes (sized sized_eq_ok_iff)

variable {H : Hashes} {p : ParameterSet} {dk : DecapsulationKey p}

/-! ## Ciphertexts of the right length -/

section Exact

variable {c : Bytes p.ciphertextSize}

/-- decapsulation is an encapsulation of the decrypted message, or a rejection -/
theorem decapsulateExact_eq (H : Hashes) (dk : DecapsulationKey p) (c : Bytes p.ciphertextSize) :
    dk.decapsulateExact H c =
      if (dk.ek.encapsulateWith H (dk.key.decrypt c)).1 = c then (dk.ek.encapsulateWith H (dk.key.decrypt c)).2
      else H.j (dk.z.toList ++ c.toList) := rfl

theorem decapsulateExact_of_encapsulated {m shared : Bytes 32} (henc : dk.ek.encapsulateWith H m = (c, shared))
    (hdec : dk.key.decrypt c = m) : dk.decapsulateExact H c = shared := by
  rw [decapsulateExact_eq, hdec, henc, if_pos rfl]

theorem decapsulateExact_of_not_encapsulated (h : ∀ m, (dk.ek.encapsulateWith H m).1 ≠ c) :
    dk.decapsulateExact H c = H.j (dk.z.toList ++ c.toList) := by
  rw [decapsulateExact_eq, if_neg (h _)]

end Exact

/-! ## Ciphertexts as they come -/

variable {ct : List UInt8}

theorem decapsulate_eq_ok_iff {k : Bytes 32} :
    dk.decapsulate H ct = .ok k ↔ ∃ c : Bytes p.ciphertextSize, c.toList = ct ∧ dk.decapsulateExact H c = k :=
  sized_bind_eq_ok_iff

/-- the scheme decapsulates as its keys do -/
theorem scheme_decapsulate {k : Bytes 32} (h : dk.decapsulate H ct = .ok k) :
    (Kem.mlKem H p).decapsulate (.mlKem p dk) ct = .ok k.toList := by
  obtain ⟨c, hc, rfl⟩ := decapsulate_eq_ok_iff.1 h
  change (do
    let c ← sized p.ciphertextSize Kem.Error.badCiphertextLength ct
    let dk ← Kem.PrivateKey.asMlKem p (.mlKem p dk)
    .ok (dk.decapsulateExact H c).toList) = _
  rw [sized_eq_ok_iff.2 hc, Kem.PrivateKey.asMlKem_mlKem]
  rfl

/-- **The contract of decapsulation.** For every key that can be had and every string as long as a ciphertext, it gives
a key of 32 bytes, by itself and through the scheme. If the encapsulation of the decrypted message gives the ciphertext,
the key is the one that goes with it; if no encapsulation gives it, the key is the hash of z and the ciphertext. The
public key that encapsulates is the one that its encoding is read as. -/
theorem decapsulate_contract (hdk : Obtained H dk) (hct : ct.length = p.ciphertextSize) :
    EncapsulationKey.ofBytes H p dk.ek.toBytes.toList = .ok dk.ek ∧
    ∃ k : Bytes 32, dk.decapsulate H ct = .ok k ∧ (Kem.mlKem H p).decapsulate (.mlKem p dk) ct = .ok k.toList ∧
      (∀ (m shared : Bytes 32) (c : Bytes p.ciphertextSize), c.toList = ct → dk.ek.encapsulateWith H m = (c, shared) →
        dk.key.decrypt c = m → k = shared) ∧
      ((∀ m, (dk.ek.encapsulateWith H m).1.toList ≠ ct) → k = H.j (dk.z.toList ++ ct)) := by
  obtain ⟨c, rfl⟩ : ∃ c : Bytes p.ciphertextSize, c.toList = ct := ⟨⟨ct.toArray, hct⟩, rfl⟩
  have hok : dk.decapsulate H c.toList = .ok (dk.decapsulateExact H c) := decapsulate_eq_ok_iff.2 ⟨c, rfl, rfl⟩
  refine ⟨hdk.ofBytes_ek, dk.decapsulateExact H c, hok, scheme_decapsulate hok, ?_, ?_⟩
  · intro m shared c' hc' henc hdec
    obtain rfl : c' = c := Vector.toList_inj.1 hc'
    exact decapsulateExact_of_encapsulated henc hdec
  · intro h
    exact decapsulateExact_of_not_encapsulated fun m hm => h m (congrArg Vector.toList hm)

/-- without noise a ciphertext of ML-KEM-768 begins with a clear bit, so a string of ones is the ciphertext of no
message -/
theorem encapsulateWith_ne_ones (hH : H.Noiseless) (ek : EncapsulationKey .mlKem768) (m : Bytes 32) :
    (ek.encapsulateWith H m).1.toList ≠ List.replicate 1088 0xff := by
  intro h
  have hones : (ek.encapsulateWith H m).1 = Vector.replicate 1088 0xff :=
    Vector.toList_inj.1 (h.trans Vector.toList_replicate.symm)
  have hclear : (Bytes.chunk (Bytes.split (ek.encapsulateWith H m).1).1 (0 : Fin 3)).bit 0 = false :=
    bit_encrypt_of_noiseless hH m _ ek.key (0 : Fin 3) (by decide)
  rw [hones] at hclear
  exact absurd hclear (by decide +kernel)

/-- the key of the seed of zeros without noise: a ciphertext of a message, and a string of ones, which is that of none -/
theorem decapsulate_contract_noiseless :
    let H := Hashes.noiseless
    let dk := ofSeed H .mlKem768 (Bytes.zeros 64)
    let m : Bytes 32 := Vector.replicate 32 0x5a
    let c := (dk.ek.encapsulateWith H m).1
    let shared := (dk.ek.encapsulateWith H m).2
    let ones : List UInt8 := List.replicate 1088 0xff
    Obtained H dk ∧ EncapsulationKey.ofBytes H .mlKem768 dk.ek.toBytes.toList = .ok dk.ek ∧
    c.toList.length = 1088 ∧ dk.ek.encapsulateWith H m = (c, shared) ∧ dk.key.decrypt c = m ∧
    dk.decapsulate H c.toList = .ok shared ∧
    (Kem.mlKem H .mlKem768).decapsulate (.mlKem _ dk) c.toList = .ok shared.toList ∧
    ones.length = 1088 ∧ (∀ m, (dk.ek.encapsulateWith H m).1.toList ≠ ones) ∧
    dk.decapsulate H ones = .ok (H.j (dk.z.toList ++ ones)) ∧
    (Kem.mlKem H .mlKem768).decapsulate (.mlKem _ dk) ones = .ok (H.j (dk.z.toList ++ ones)).toList := by
  intro H dk m c shared ones
  have hH : H.Noiseless := Hashes.noiseless_noiseless
  have hdk : Obtained H dk := .derived (Bytes.zeros 64).toList (fromSeed_eq_ok_iff.2 ⟨_, rfl, rfl⟩)
  have hc : c.toList.length = 1088 := Vector.length_toList ..
  have hones : ones.length = 1088 := List.length_replicate
  have hdecrypt : dk.key.decrypt c = m := decrypt_encrypt_of_noiseless hH _ _ _
  have hnone : ∀ m, (dk.ek.encapsulateWith H m).1.toList ≠ ones := encapsulateWith_ne_ones hH dk.ek
  obtain ⟨hread, k, hk, hscheme, haccepted, -⟩ := decapsulate_contract hdk hc
  obtain rfl : k = shared := haccepted m shared c rfl rfl hdecrypt
  obtain ⟨-, k, hk', hscheme', -, hrejected⟩ := decapsulate_contract hdk hones
  obtain rfl := hrejected hnone
  exact ⟨hdk, hread, hc, rfl, hdecrypt, hk, hscheme, hones, hnone, hk', hscheme'⟩

end PostQuantum.MLKEM.DecapsulationKey
