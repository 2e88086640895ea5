/-
What reading a key accepts, and the keys that can be had.

- `EncapsulationKey.ofBytes_eq_ok_iff`, `DecapsulationKey.ofBytes_eq_ok_iff`: reading gives a key exactly if the bytes
  are its encoding, its coefficients survive being written and read, and its hashes are those of its public part.
- `DecapsulationKey.Obtained`: the private keys that come from a seed or an encoding.
- `DecapsulationKey.Obtained.ofBytes_ek`: the public key inside each of them is what its own encoding is read as.
-/
import Mathlib.Tactic
import PostQuantum.MLKEM.Keys
import PostQuantum.Proofs.MLKEM.Encryption
import PostQuantum.Proofs.Reading

namespace PostQuantum.MLKEM

open Bytes (sized_eq_ok_iff)

variable {H : Hashes} {p : ParameterSet} {bytes seed : List UInt8}

/-! ## Public keys -/

/-- a reduced public key is written and read without a change -/
theorem EncryptionKey.ofBytes_toBytes {key : EncryptionKey p} (h : key.tHat.Reduced) :
    EncryptionKey.ofBytes key.toBytes = key := by
  have hsplit : Bytes.split key.toBytes = (encodeNttVec 12 key.tHat, key.rho) := Bytes.split_append _ _
  unfold EncryptionKey.ofBytes
  rw [hsplit]
  simp only
  rw [decodeNttVec_encodeNttVec (by norm_num) (fun i => fitsBits_of_reduced (h i)) h]

namespace EncapsulationKey

variable {ek : EncapsulationKey p}

/-- **Reading a public key.** -/
theorem ofBytes_eq_ok_iff :
    ofBytes H p bytes = .ok ek ↔
      ek.toBytes.toList = bytes ∧ EncryptionKey.ofBytes ek.toBytes = ek.key ∧ ek.hash = H.h ek.toBytes.toList := by
  unfold ofBytes
  rw [bind_eq_ok_iff]
  constructor
  · rintro ⟨encoding, hsized, h⟩
    simp only at h
    split at h
    case isFalse => cases h
    case isTrue hcanonical =>
      cases h
      refine ⟨?_, congrArg EncryptionKey.ofBytes hcanonical, rfl⟩
      rw [← sized_eq_ok_iff.1 hsized]
      exact congrArg Vector.toList hcanonical
  · rintro ⟨hbytes, hkey, hhash⟩
    refine ⟨ek.toBytes, sized_eq_ok_iff.2 hbytes, ?_⟩
    have hcanonical : (EncryptionKey.ofBytes ek.toBytes).toBytes = ek.toBytes := congrArg EncryptionKey.toBytes hkey
    simp only
    rw [if_pos hcanonical, hkey]
    cases ek
    exact congrArg (fun h => Except.ok (EncapsulationKey.mk _ h)) hhash.symm

end EncapsulationKey

/-! ## Private keys -/

namespace DecapsulationKey

variable {dk : DecapsulationKey p}

theorem fromSeed_eq_ok_iff : fromSeed H p seed = .ok dk ↔ ∃ s : Bytes 64, s.toList = seed ∧ ofSeed H p s = dk :=
  sized_bind_eq_ok_iff

/-- an encoding has four parts -/
theorem exists_parts (encoding : Bytes p.decapsulationKeySize) :
    ∃ (keyPart : Bytes p.decryptionKeySize) (ekPart : Bytes p.encapsulationKeySize) (hash z : Bytes 32),
      encoding = Bytes.append keyPart (Bytes.append ekPart (Bytes.append hash z)) :=
  ⟨_, _, _, _, by rw [Bytes.append_split, Bytes.append_split, Bytes.append_split]⟩

/-- **Reading a private key.** -/
theorem ofBytes_eq_ok_iff :
    ofBytes H p bytes = .ok dk ↔
      dk.toBytes.toList = bytes ∧ DecryptionKey.ofBytes dk.key.toBytes = dk.key ∧
        EncapsulationKey.ofBytes H p dk.ek.toBytes.toList = .ok dk.ek ∧ dk.seed = none := by
  unfold ofBytes
  rw [bind_eq_ok_iff]
  constructor
  · rintro ⟨encoding, hsized, h⟩
    obtain ⟨keyPart, ekPart, hash, z, rfl⟩ := exists_parts encoding
    simp only [Bytes.split_append] at h
    split at h
    case h_1 => cases h
    case h_2 ek hek =>
      split at h
      case isFalse => cases h
      case isTrue hfit =>
        cases h
        obtain ⟨hkey, hhash⟩ := hfit
        obtain ⟨hekPart, -, -⟩ := EncapsulationKey.ofBytes_eq_ok_iff.1 hek
        have hek' : ek.toBytes = ekPart := Vector.toList_inj.1 hekPart
        refine ⟨?_, congrArg DecryptionKey.ofBytes hkey, hekPart.symm ▸ hek, rfl⟩
        rw [← sized_eq_ok_iff.1 hsized, toBytes, hkey, hek', hhash]
  · rintro ⟨hbytes, hkey, hek, hseed⟩
    refine ⟨dk.toBytes, sized_eq_ok_iff.2 hbytes, ?_⟩
    simp only [toBytes, Bytes.split_append, hek, hkey, and_self, if_true]
    cases dk
    exact congrArg (fun s => Except.ok (DecapsulationKey.mk _ _ _ s)) hseed.symm

/-- a private key that a seed or an encoding gives -/
inductive Obtained (H : Hashes) (dk : DecapsulationKey p) : Prop
  | derived (seed : List UInt8) (h : fromSeed H p seed = .ok dk)
  | read (bytes : List UInt8) (h : ofBytes H p bytes = .ok dk)

/-- the public key of a seed is what its encoding is read as -/
theorem ofBytes_ek_ofSeed (H : Hashes) (p : ParameterSet) (s : Bytes 64) :
    EncapsulationKey.ofBytes H p (ofSeed H p s).ek.toBytes.toList = .ok (ofSeed H p s).ek :=
  EncapsulationKey.ofBytes_eq_ok_iff.2 ⟨rfl, EncryptionKey.ofBytes_toBytes (tHat_reduced H p _), rfl⟩

/-- the public key inside a private key is what its encoding is read as -/
theorem Obtained.ofBytes_ek (h : Obtained H dk) : EncapsulationKey.ofBytes H p dk.ek.toBytes.toList = .ok dk.ek := by
  cases h with
  | derived seed h =>
    obtain ⟨s, -, rfl⟩ := fromSeed_eq_ok_iff.1 h
    exact ofBytes_ek_ofSeed H p s
  | read bytes h => exact (ofBytes_eq_ok_iff.1 h).2.2.1

end DecapsulationKey

end PostQuantum.MLKEM
