/-
X-Wing gives both sides one shared key.

The sender multiplies the point of the public key by a fresh secret and the receiver multiplies the fresh point by the
secret of the private key. If the agreement makes these the same (`Primitives.Agrees`), both sides hash the same five
strings, as long as the ML-KEM halves agree.
- `DecapsulationKey.decapsulateExact_encapsulateWith`: one key that goes with its point, and one ciphertext.
- `round_trip`: a key of any seed and any randomness, by the keys themselves and through the scheme, also with keys that
  are read back from their encodings.
Nothing else is assumed of the hash functions and of the agreement.
-/
import Mathlib.Tactic
import PostQuantum.Kem.Schemes
import PostQuantum.Proofs.MLKEM.Decapsulation
import PostQuantum.Proofs.MLKEM.Decryption
import PostQuantum.Proofs.XWing.Keys

namespace PostQuantum.XWing

open Bytes (sized sized_eq_ok_iff)
open Kem (Error PublicKey PrivateKey)
open MLKEM (ParameterSet)

variable {P : Primitives}

/-- two secrets agree on a point by way of each other's -/
def Primitives.Agrees (P : Primitives) : Prop :=
  ∀ a b, P.agree a (P.agree b X25519.basePoint) = P.agree b (P.agree a X25519.basePoint)

/-! ## Halves -/

namespace EncapsulationKey

variable (P) (ek : EncapsulationKey) (randomness : Bytes 64)

/-- what the first half of the randomness gives for the ML-KEM half of a key -/
def encapsulateHalf : Bytes ParameterSet.mlKem768.ciphertextSize × Bytes 32 :=
  ek.mlKem.encapsulateWith P.toHashes (Bytes.halves randomness).1

theorem fst_encapsulateWith :
    (ek.encapsulateWith P randomness).1 =
      Bytes.append (ek.encapsulateHalf P randomness).1 (P.agree (Bytes.halves randomness).2 X25519.basePoint) := rfl

theorem snd_encapsulateWith :
    (ek.encapsulateWith P randomness).2 =
      combine P (ek.encapsulateHalf P randomness).2 (P.agree (Bytes.halves randomness).2 ek.point)
        (P.agree (Bytes.halves randomness).2 X25519.basePoint) ek.point := rfl

/-- a ciphertext starts with that of ML-KEM -/
theorem take_encapsulateWith :
    (ek.encapsulateWith P randomness).1.toList.take 1088 = (ek.encapsulateHalf P randomness).1.toList := by
  rw [fst_encapsulateWith]
  exact Bytes.take_append _ _

end EncapsulationKey

namespace DecapsulationKey

variable {dk : DecapsulationKey} {c : List UInt8}

theorem decapsulateExact_append (P : Primitives) (dk : DecapsulationKey)
    (ciphertextM : Bytes ParameterSet.mlKem768.ciphertextSize) (ciphertextX : Bytes 32) :
    dk.decapsulateExact P (Bytes.append ciphertextM ciphertextX) =
      combine P (dk.mlKem.decapsulateExact P.toHashes ciphertextM) (P.agree dk.secret ciphertextX) ciphertextX
        dk.ek.point := by
  unfold decapsulateExact
  rw [Bytes.split_append]

theorem decapsulate_eq_ok_iff {k : Bytes 32} :
    dk.decapsulate P c = .ok k ↔ ∃ exact : Bytes ciphertextSize, exact.toList = c ∧ dk.decapsulateExact P exact = k :=
  sized_bind_eq_ok_iff

/-- the scheme decapsulates as its keys do -/
theorem scheme_decapsulate {k : Bytes 32} (h : dk.decapsulate P c = .ok k) :
    (Kem.xWing P).decapsulate (.xWing dk) c = .ok k.toList := by
  obtain ⟨exact, hexact, rfl⟩ := decapsulate_eq_ok_iff.1 h
  exact bind_eq_ok_iff.2 ⟨exact, sized_eq_ok_iff.2 hexact, rfl⟩

/-- **One ciphertext.** The receiver hashes what the sender hashed. -/
theorem decapsulateExact_encapsulateWith (hP : P.Agrees) (hpoint : dk.ek.point = P.agree dk.secret X25519.basePoint)
    (randomness : Bytes 64)
    (hM : dk.mlKem.decapsulateExact P.toHashes (dk.ek.encapsulateHalf P randomness).1 =
      (dk.ek.encapsulateHalf P randomness).2) :
    dk.decapsulateExact P (dk.ek.encapsulateWith P randomness).1 = (dk.ek.encapsulateWith P randomness).2 := by
  -- the fresh secret meets the point of the key, and the secret of the key meets the fresh point
  have hX : P.agree dk.secret (P.agree (Bytes.halves randomness).2 X25519.basePoint) =
      P.agree (Bytes.halves randomness).2 dk.ek.point := by
    rw [hpoint]
    exact hP _ _
  rw [EncapsulationKey.fst_encapsulateWith, decapsulateExact_append, hM, hX]
  exact (EncapsulationKey.snd_encapsulateWith P dk.ek randomness).symm

/-- **Opening.** A private key opens a ciphertext if its ML-KEM half opens the first part of it. -/
theorem decapsulate_encapsulateWith (hP : P.Agrees) (hpoint : dk.ek.point = P.agree dk.secret X25519.basePoint)
    (randomness : Bytes 64)
    (hM : dk.mlKem.decapsulate P.toHashes ((dk.ek.encapsulateWith P randomness).1.toList.take 1088) =
      .ok (dk.ek.encapsulateHalf P randomness).2) :
    dk.decapsulate P (dk.ek.encapsulateWith P randomness).1.toList = .ok (dk.ek.encapsulateWith P randomness).2 := by
  rw [EncapsulationKey.take_encapsulateWith] at hM
  obtain ⟨c, hc, hM⟩ := MLKEM.DecapsulationKey.decapsulate_eq_ok_iff.1 hM
  obtain rfl := Vector.toList_inj.1 hc
  exact decapsulate_eq_ok_iff.2 ⟨_, rfl, decapsulateExact_encapsulateWith hP hpoint randomness hM⟩

theorem point_ofSeed (P : Primitives) (seed : Bytes 32) :
    (ofSeed P seed).ek.point = P.agree (ofSeed P seed).secret X25519.basePoint := rfl

end DecapsulationKey

/-! ## An exchange of two secrets -/

/-- `a` and `b` are multiplied as on the curve, and every other secret gives zeros; noise is drawn from zeros, and a
seed is the seed of both halves -/
def Primitives.exchange (a b : Bytes 32) : Primitives where
  toHashes := { MLKEM.Hashes.standard with prf := fun eta _ _ => Bytes.zeros (64 * eta) }
  expand seed := show Bytes (64 + 32) from Bytes.append (Bytes.append seed seed) seed
  combine := Keccak.sha3_256
  agree secret point := if secret = a ∨ secret = b then X25519.x25519 secret point else Bytes.zeros 32

theorem Primitives.exchange_agrees {a b : Bytes 32}
    (hab : X25519.x25519 a (X25519.x25519 b X25519.basePoint) = X25519.x25519 b (X25519.x25519 a X25519.basePoint))
    (ha : X25519.x25519 a (Bytes.zeros 32) = Bytes.zeros 32) (hb : X25519.x25519 b (Bytes.zeros 32) = Bytes.zeros 32) :
    (exchange a b).Agrees := by
  have hzeros : ∀ s, s = a ∨ s = b → X25519.x25519 s (Bytes.zeros 32) = Bytes.zeros 32 := by
    rintro s (rfl | rfl)
    · exact ha
    · exact hb
  have hboth : ∀ s t, s = a ∨ s = b → t = a ∨ t = b →
      X25519.x25519 s (X25519.x25519 t X25519.basePoint) = X25519.x25519 t (X25519.x25519 s X25519.basePoint) := by
    rintro s t (rfl | rfl) (rfl | rfl)
    · rfl
    · exact hab
    · exact hab.symm
    · rfl
  intro s t
  simp only [exchange]
  by_cases hs : s = a ∨ s = b
  · by_cases ht : t = a ∨ t = b
    · simp only [if_pos hs, if_pos ht, hboth s t hs ht]
    · simp only [if_pos hs, if_neg ht, hzeros s hs]
  · by_cases ht : t = a ∨ t = b
    · simp only [if_neg hs, if_pos ht, hzeros t ht]
    · simp only [if_neg hs, if_neg ht]

/-- without noise ML-KEM opens every ciphertext -/
theorem decapsulate_of_noiseless {H : MLKEM.Hashes} (hH : H.Noiseless) {p : ParameterSet} (seed : Bytes 64)
    (m : Bytes 32) :
    let dk := MLKEM.DecapsulationKey.ofSeed H p seed
    dk.decapsulate H (dk.ek.encapsulateWith H m).1.toList = .ok (dk.ek.encapsulateWith H m).2 :=
  MLKEM.DecapsulationKey.decapsulate_eq_ok_iff.2
    ⟨_, rfl, MLKEM.DecapsulationKey.decapsulateExact_of_encapsulated rfl
      (MLKEM.decrypt_encrypt_of_noiseless hH _ _ _)⟩

/-! ## The round trip -/

/-- **The round trip.** Let the agreement be one on which two secrets agree. Every seed of 32 bytes has a private key,
which its own encoding is read back as, and so is its public key. For every 64 bytes of randomness the public key gives
a ciphertext of 1120 bytes that starts with the ciphertext of ML-KEM; if the ML-KEM half of the private key opens that
to the shared key that went with it, the private key opens the whole to the shared key. The scheme does the same on
encodings. -/
theorem round_trip (P : Primitives) (hP : P.Agrees) (seed : Bytes 32) (randomness : Bytes 64) :
    ∃ (sk : DecapsulationKey) (ct : Bytes ciphertextSize) (ss : Bytes 32),
      DecapsulationKey.fromSeed P seed.toList = .ok sk ∧
      DecapsulationKey.ofBytes P sk.toBytes.toList = .ok sk ∧
      EncapsulationKey.ofBytes P sk.ek.toBytes.toList = .ok sk.ek ∧
      (Kem.xWing P).deriveKey seed.toList = .ok (.xWing sk.ek, .xWing sk) ∧
      (Kem.xWing P).readPrivateKey (PrivateKey.xWing sk).encode = .ok (.xWing sk) ∧
      (Kem.xWing P).readPublicKey (PublicKey.xWing sk.ek).encode = .ok (.xWing sk.ek) ∧
      sk.ek.encapsulateWith P randomness = (ct, ss) ∧
      (Kem.xWing P).encapsulateWith (.xWing sk.ek) randomness.toList = .ok (ct.toList, ss.toList) ∧
      ct.toList.length = 1120 ∧
      ct.toList.take 1088 = (sk.ek.encapsulateHalf P randomness).1.toList ∧
      (sk.mlKem.decapsulate P.toHashes (ct.toList.take 1088) = .ok (sk.ek.encapsulateHalf P randomness).2 →
        sk.decapsulate P ct.toList = .ok ss ∧
        (Kem.xWing P).decapsulate (.xWing sk) ct.toList = .ok ss.toList) := by
  have hderived : DecapsulationKey.fromSeed P seed.toList = .ok (.ofSeed P seed) :=
    DecapsulationKey.fromSeed_eq_ok_iff.2 ⟨seed, rfl, rfl⟩
  have hprivate : DecapsulationKey.ofBytes P seed.toList = .ok (.ofSeed P seed) :=
    DecapsulationKey.ofBytes_eq_ok_iff.2 ⟨seed, rfl, rfl⟩
  have hpublic := DecapsulationKey.ofBytes_ek_ofSeed P seed
  set sk := DecapsulationKey.ofSeed P seed
  refine ⟨sk, (sk.ek.encapsulateWith P randomness).1, (sk.ek.encapsulateWith P randomness).2, hderived, hprivate,
    hpublic, ?_, ?_, ?_, rfl, ?_, Vector.length_toList .., sk.ek.take_encapsulateWith P randomness, ?_⟩
  · exact bind_eq_ok_iff.2 ⟨sk, hderived, rfl⟩
  · exact bind_eq_ok_iff.2 ⟨sk, hprivate, rfl⟩
  · exact bind_eq_ok_iff.2 ⟨sk.ek, hpublic, rfl⟩
  · exact bind_eq_ok_iff.2 ⟨randomness, sized_eq_ok_iff.2 rfl, rfl⟩
  · intro hM
    have hopened := DecapsulationKey.decapsulate_encapsulateWith hP (DecapsulationKey.point_ofSeed P seed) randomness hM
    exact ⟨hopened, DecapsulationKey.scheme_decapsulate hopened⟩

/-- the key of the seed of sevens opens what it encapsulates with randomness of nines -/
theorem round_trip_sevens_nines :
    let sevens : Bytes 32 := Vector.replicate 32 7
    let nines : Bytes 32 := Vector.replicate 32 9
    let P := Primitives.exchange sevens nines
    P.Agrees ∧ ∃ (sk : DecapsulationKey) (ct : Bytes ciphertextSize) (ss : Bytes 32),
      DecapsulationKey.fromSeed P sevens.toList = .ok sk ∧
      sk.ek.encapsulateWith P (Bytes.append nines nines) = (ct, ss) ∧ ct.toList.length = 1120 ∧
      sk.decapsulate P ct.toList = .ok ss ∧
      (Kem.xWing P).decapsulate (.xWing sk) ct.toList = .ok ss.toList := by
  intro sevens nines P
  have hP : P.Agrees := Primitives.exchange_agrees (by decide +kernel) (by decide +kernel) (by decide +kernel)
  refine ⟨hP, ?_⟩
  obtain ⟨sk, ct, ss, hderived, -, -, -, -, -, hencapsulated, -, hlength, htake, hopen⟩ :=
    round_trip P hP sevens (Bytes.append nines nines)
  obtain ⟨seed, -, rfl⟩ := DecapsulationKey.fromSeed_eq_ok_iff.1 hderived
  rw [htake] at hopen
  have hnoiseless : P.toHashes.Noiseless := fun _ _ _ => rfl
  obtain ⟨hopened, hscheme⟩ := hopen (decapsulate_of_noiseless hnoiseless _ _)
  exact ⟨_, ct, ss, hderived, hencapsulated, hlength, hopened, hscheme⟩

end PostQuantum.XWing
