/-
What reading an X-Wing key accepts.

- `EncapsulationKey.ofBytes_eq_ok_iff`, `EncapsulationKey.accepts`: a public key is one of ML-KEM-768 and any 32 bytes.
- `DecapsulationKey.fromSeed_eq_ok_iff`, `DecapsulationKey.ofBytes_eq_ok_iff`: a private key is any 32 bytes.
- `ofBytes_ek_ofSeed`: the public key of a seed is what its encoding is read as.
-/
import Mathlib.Tactic
import PostQuantum.Proofs.MLKEM.Grammar
import PostQuantum.XWing

namespace PostQuantum.XWing

open Bytes (sized_eq_ok_iff)
open MLKEM (ParameterSet)

variable {P : Primitives} {bytes : List UInt8}

namespace EncapsulationKey

variable {ek : EncapsulationKey}

/-- **Reading a public key.** -/
theorem ofBytes_eq_ok_iff :
    ofBytes P bytes = .ok ek ↔
      ek.toBytes.toList = bytes ∧
        MLKEM.EncapsulationKey.ofBytes P.toHashes .mlKem768 ek.mlKem.toBytes.toList = .ok ek.mlKem := by
  unfold ofBytes
  rw [bind_eq_ok_iff]
  constructor
  · rintro ⟨encoding, hsized, h⟩
    obtain ⟨m, x, rfl⟩ := Bytes.exists_append encoding
    rw [Bytes.split_append, bind_eq_ok_iff] at h
    obtain ⟨mlKem, hread, h⟩ := h
    cases h
    obtain ⟨hm, -⟩ := MLKEM.EncapsulationKey.of_ofBytes hread
    obtain rfl : mlKem.toBytes = m := Vector.toList_inj.1 hm
    exact ⟨sized_eq_ok_iff.1 hsized, hread⟩
  · rintro ⟨hbytes, hread⟩
    refine ⟨ek.toBytes, sized_eq_ok_iff.2 hbytes, ?_⟩
    rw [toBytes, Bytes.split_append, bind_eq_ok_iff]
    exact ⟨ek.mlKem, hread, rfl⟩

/-- **The public keys that are accepted.** -/
theorem accepts (P : Primitives) :
    Accepts (ofBytes P) encapsulationKeySize
      (fun bytes => ∃ ek, MLKEM.EncapsulationKey.ofBytes P.toHashes .mlKem768
        (bytes.take ParameterSet.mlKem768.encapsulationKeySize) = .ok ek)
      .badKeyLength .invalidPublicKey := by
  refine Accepts.of_sized (fun _ => rfl) nofun ?_ ?_
  · intro encoding hfits
    obtain ⟨m, x, rfl⟩ := Bytes.exists_append encoding
    obtain ⟨mlKem, hread⟩ := hfits
    rw [Bytes.take_append] at hread
    simp only [Bytes.split_append, hread]
    exact ⟨_, rfl⟩
  · intro encoding hfits
    obtain ⟨m, x, rfl⟩ := Bytes.exists_append encoding
    rw [Bytes.take_append] at hfits
    have hmalformed :=
      (MLKEM.EncapsulationKey.accepts P.toHashes .mlKem768).eq_malformed (Vector.length_toList ..) hfits
    simp only [Bytes.split_append, hmalformed]
    rfl

end EncapsulationKey

namespace DecapsulationKey

variable {dk : DecapsulationKey}

theorem fromSeed_eq_ok_iff : fromSeed P bytes = .ok dk ↔ ∃ seed : Bytes 32, seed.toList = bytes ∧ ofSeed P seed = dk :=
  sized_bind_eq_ok_iff

theorem ofBytes_eq_ok_iff : ofBytes P bytes = .ok dk ↔ ∃ seed : Bytes 32, seed.toList = bytes ∧ ofSeed P seed = dk :=
  sized_bind_eq_ok_iff

/-- the public key of a seed is what its encoding is read as -/
theorem ofBytes_ek_ofSeed (P : Primitives) (seed : Bytes 32) :
    EncapsulationKey.ofBytes P (ofSeed P seed).ek.toBytes.toList = .ok (ofSeed P seed).ek :=
  EncapsulationKey.ofBytes_eq_ok_iff.2 ⟨rfl, MLKEM.DecapsulationKey.ofBytes_ek_ofSeed P.toHashes .mlKem768 _⟩

end DecapsulationKey

end PostQuantum.XWing
