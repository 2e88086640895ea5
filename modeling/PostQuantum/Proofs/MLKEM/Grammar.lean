/-
The encodings of ML-KEM keys.

An encoding has the right length, its groups of twelve bits are reduced, and a private one holds the hash of the public
key in it.
- `EncryptionKey.toBytes_ofBytes_iff`, `DecryptionKey.toBytes_ofBytes_iff`: a vector is written as it was read exactly if
  its groups are reduced.
- `EncapsulationKey.accepts`, `DecapsulationKey.accepts`: readers take these strings, and answer every other in one way.
- `private_key_grammar`: the private keys, with the round trips of keys and of strings.
Nothing is assumed of the hash functions.
-/
import Mathlib.Tactic
import PostQuantum.Proofs.Reading
import PostQuantum.Proofs.MLKEM.Encodings
import PostQuantum.Proofs.MLKEM.Keys

namespace PostQuantum.MLKEM

variable {H : Hashes} {p : ParameterSet} {bytes : List UInt8}

/-! ## Public keys -/

theorem vectorSize_eq (p : ParameterSet) : p.vectorSize = 384 * p.k := Nat.mul_comm p.k 384

/-- a public key is written as it was read exactly if its groups of twelve bits are reduced -/
theorem EncryptionKey.toBytes_ofBytes_iff (encoding : Bytes p.encapsulationKeySize) :
    (EncryptionKey.ofBytes encoding).toBytes = encoding ↔ Canonical p.k (encoding.toList.take (384 * p.k)) := by
  obtain ⟨t, rho, rfl⟩ := Bytes.exists_append encoding
  have hwritten : (EncryptionKey.ofBytes (Bytes.append t rho)).toBytes =
      Bytes.append (encodeNttVec 12 (decodeNttVec p.k 12 t)) rho := by
    unfold EncryptionKey.ofBytes
    rw [Bytes.split_append]
    rfl
  rw [hwritten, Bytes.append_inj, encodeNttVec_decodeNttVec_iff, ← vectorSize_eq, Bytes.take_append]
  exact and_iff_left rfl

/-- what is read is the string and its hash -/
theorem EncapsulationKey.of_ofBytes {ek : EncapsulationKey p} (h : EncapsulationKey.ofBytes H p bytes = .ok ek) :
    ek.toBytes.toList = bytes ∧ ek.hash = H.h bytes := by
  obtain ⟨rfl, -, hhash⟩ := EncapsulationKey.ofBytes_eq_ok_iff.1 h
  exact ⟨rfl, hhash⟩

/-- **The public keys that are accepted.** -/
theorem EncapsulationKey.accepts (H : Hashes) (p : ParameterSet) :
    Accepts (EncapsulationKey.ofBytes H p) p.encapsulationKeySize (fun bytes => Canonical p.k (bytes.take (384 * p.k)))
      .badKeyLength .invalidPublicKey := by
  refine Accepts.of_sized (fun _ => rfl) nofun ?_ ?_
  · intro encoding hfits
    exact ⟨_, if_pos ((EncryptionKey.toBytes_ofBytes_iff encoding).2 hfits)⟩
  · intro encoding hfits
    exact if_neg fun h => hfits ((EncryptionKey.toBytes_ofBytes_iff encoding).1 h)

/-! ## Private keys -/

/-- a secret vector is written as it was read exactly if its groups of twelve bits are reduced -/
theorem DecryptionKey.toBytes_ofBytes_iff (encoding : Bytes p.decryptionKeySize) :
    (DecryptionKey.ofBytes encoding).toBytes = encoding ↔ Canonical p.k encoding.toList :=
  encodeNttVec_decodeNttVec_iff encoding

namespace DecapsulationKey

variable {dk : DecapsulationKey p}

/-- the secret vector and the public one are reduced, and the hash is that of the public key -/
def Fits (H : Hashes) (p : ParameterSet) (bytes : List UInt8) : Prop :=
  let keyPart := bytes.take p.decryptionKeySize
  let ekPart := (bytes.drop p.decryptionKeySize).take p.encapsulationKeySize
  let hash := (bytes.drop (p.decryptionKeySize + p.encapsulationKeySize)).take 32
  Canonical p.k keyPart ∧ Canonical p.k (ekPart.take (384 * p.k)) ∧ hash = (H.h ekPart).toList

/-- what is asked of the four parts of an encoding -/
theorem fits_append {keyPart : Bytes p.decryptionKeySize} {ekPart : Bytes p.encapsulationKeySize} {hash z : Bytes 32} :
    Fits H p (Bytes.append keyPart (Bytes.append ekPart (Bytes.append hash z))).toList ↔
      Canonical p.k keyPart.toList ∧ Canonical p.k (ekPart.toList.take (384 * p.k)) ∧ hash = H.h ekPart.toList := by
  unfold Fits
  rw [← List.drop_drop]
  simp only [Bytes.take_append, Bytes.drop_append, Vector.toList_inj]

/-- **The private keys that are accepted.** -/
theorem accepts (H : Hashes) (p : ParameterSet) :
    Accepts (ofBytes H p) p.decapsulationKeySize (Fits H p) .badKeyLength .invalidPrivateKey := by
  refine Accepts.of_sized (fun _ => rfl) nofun ?_ ?_
  · intro encoding hfits
    obtain ⟨keyPart, ekPart, hash, z, rfl⟩ := exists_parts encoding
    obtain ⟨hkey, hcanonical, rfl⟩ := fits_append.1 hfits
    obtain ⟨ek, hek⟩ := ((EncapsulationKey.accepts H p).ok_iff _).2 ⟨Vector.length_toList .., hcanonical⟩
    simp only [Bytes.split_append, hek]
    exact ⟨_, if_pos ⟨(DecryptionKey.toBytes_ofBytes_iff keyPart).2 hkey, (EncapsulationKey.of_ofBytes hek).2⟩⟩
  · intro encoding hfits
    obtain ⟨keyPart, ekPart, hash, z, rfl⟩ := exists_parts encoding
    simp only [Bytes.split_append]
    cases hek : EncapsulationKey.ofBytes H p ekPart.toList with
    | error e => rfl
    | ok ek =>
      obtain ⟨-, hcanonical⟩ := ((EncapsulationKey.accepts H p).ok_iff _).1 ⟨ek, hek⟩
      -- were it accepted, all three conditions would hold
      refine if_neg fun ⟨hkey, hhash⟩ => hfits (fits_append.2 ⟨?_, hcanonical, ?_⟩)
      · exact (DecryptionKey.toBytes_ofBytes_iff keyPart).1 hkey
      · rw [← hhash]
        exact (EncapsulationKey.of_ofBytes hek).2

/-- what is read is the string, and no seed -/
theorem of_ofBytes (h : ofBytes H p bytes = .ok dk) : dk.toBytes.toList = bytes ∧ dk.seed = none := by
  obtain ⟨hbytes, -, -, hseed⟩ := ofBytes_eq_ok_iff.1 h
  exact ⟨hbytes, hseed⟩

/-- the secret vector of a private key is what its encoding is read as -/
theorem Obtained.ofBytes_key (h : Obtained H dk) : DecryptionKey.ofBytes dk.key.toBytes = dk.key := by
  cases h with
  | derived seed h =>
    obtain ⟨s, -, rfl⟩ := fromSeed_eq_ok_iff.1 h
    have hreduced : (nttVec (secret H p (Bytes.halves s).1)).Reduced := nttVec_reduced (secret_reduced H p _)
    exact congrArg DecryptionKey.mk
      (decodeNttVec_encodeNttVec (by norm_num) (fun i => fitsBits_of_reduced (hreduced i)) hreduced)
  | read bytes h => exact (ofBytes_eq_ok_iff.1 h).2.1

/-- a private key is read back from its encoding, but for its seed -/
theorem Obtained.ofBytes_toBytes (h : Obtained H dk) :
    ofBytes H p dk.toBytes.toList = .ok { dk with seed := none } :=
  ofBytes_eq_ok_iff.2 ⟨rfl, h.ofBytes_key, h.ofBytes_ek, rfl⟩

/-- **The encodings of private keys.** Of the strings of the right length those are read that consist of a reduced
secret vector, a public key with a reduced vector, its hash and any 32 bytes; any other is a malformed private key,
whatever is wrong with it. The key that is read has this encoding and no seed, and the encoding of every key that can be
had is read as a key with the same encoding. -/
theorem private_key_grammar (H : Hashes) (p : ParameterSet) :
    Accepts (ofBytes H p) p.decapsulationKeySize (Fits H p) .badKeyLength .invalidPrivateKey ∧
    (∀ bytes (dk : DecapsulationKey p), ofBytes H p bytes = .ok dk → dk.toBytes.toList = bytes ∧ dk.seed = none) ∧
    ∀ dk : DecapsulationKey p, Obtained H dk →
      ∃ dk', ofBytes H p dk.toBytes.toList = .ok dk' ∧ dk'.toBytes = dk.toBytes := by
  refine ⟨accepts H p, ?_, ?_⟩
  · intro bytes dk h
    exact of_ofBytes h
  · intro dk hdk
    exact ⟨_, hdk.ofBytes_toBytes, rfl⟩

/-- the key of the seed of zeros is read back without its seed; a string of ones is malformed, and so is none -/
theorem private_key_grammar_zeros :
    let dk := ofSeed Hashes.standard .mlKem768 (Bytes.zeros 64)
    (∃ dk', ofBytes Hashes.standard .mlKem768 dk.toBytes.toList = .ok dk' ∧ dk'.toBytes = dk.toBytes ∧
      dk'.seed = none) ∧
    ofBytes Hashes.standard .mlKem768 [] = .error (.badKeyLength 2400 0) ∧
    ofBytes Hashes.standard .mlKem768 (List.replicate 2400 0xff) = .error .invalidPrivateKey := by
  intro dk
  have hdk : Obtained Hashes.standard dk := .derived (Bytes.zeros 64).toList (fromSeed_eq_ok_iff.2 ⟨_, rfl, rfl⟩)
  obtain ⟨haccepts, hread, hwritten⟩ := private_key_grammar Hashes.standard .mlKem768
  obtain ⟨dk', hdk', hbytes⟩ := hwritten dk hdk
  refine ⟨⟨dk', hdk', hbytes, (hread _ dk' hdk').2⟩, (haccepts.badLength_iff []).2 (by decide), ?_⟩
  refine (haccepts.malformed_iff _).2 ⟨List.length_replicate, fun hfits => ?_⟩
  have hgroup : ¬Bytes.group 12 ((List.replicate 2400 0xff).take 1152) 0 < 3329 := by decide +kernel
  exact hgroup (hfits.1 0 (by decide))

end DecapsulationKey

end PostQuantum.MLKEM
