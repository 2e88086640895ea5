/-
Where keys come from.

A key comes out of an operation: of a scheme, of ML-KEM with given parameters or of X-Wing, from a seed, from a source
of random bytes or from an encoding; and a private key gives its public key. Sources of random bytes are arbitrary.
- `PrivateKey.Reachable`, `PublicKey.Reachable`: the keys that some sequence of operations on the real schemes gives.
- `PrivateKey.Reachable.genuine`: such a private key is that of a seed or of an encoding of its own scheme.
- `PublicKey.Reachable.genuine`: such a public key is what its own encoding is read as.
- `public_key_grammar`: the encodings of public keys, with the round trips of keys and of strings.
Copying a key gives the same key, so it is no operation here. Nothing is assumed of the primitives.
-/
import Mathlib.Tactic
import PostQuantum.Kem.Schemes
import PostQuantum.Proofs.XWing.Keys

namespace PostQuantum.Kem

open MLKEM (ParameterSet Canonical)

variable {P : XWing.Primitives} {scheme : AnyScheme} {seed bytes : List UInt8} {pk : PublicKey} {sk : PrivateKey}
  {σ : Type} {source : Entropy σ} {s s' : σ}

/-! ## Operations -/

/-- a private key that some sequence of operations gives -/
inductive PrivateKey.Reachable (P : XWing.Primitives) : PrivateKey → Prop
  | derived {scheme : AnyScheme} {seed : List UInt8} {pk : PublicKey} {sk : PrivateKey} (hscheme : scheme ∈ shipped P)
      (h : scheme.deriveKey seed = .ok (pk, sk)) : Reachable P sk
  | generated {scheme : AnyScheme} {σ : Type} {source : Entropy σ} {s s' : σ} {pk : PublicKey} {sk : PrivateKey}
      (hscheme : scheme ∈ shipped P) (h : scheme.generateKey source s = (.ok (pk, sk), s')) : Reachable P sk
  | read {scheme : AnyScheme} {bytes : List UInt8} {sk : PrivateKey} (hscheme : scheme ∈ shipped P)
      (h : scheme.readPrivateKey bytes = .ok sk) : Reachable P sk
  | mlKemDerived {p : ParameterSet} {seed : List UInt8} {dk : MLKEM.DecapsulationKey p}
      (h : MLKEM.DecapsulationKey.fromSeed P.toHashes p seed = .ok dk) : Reachable P (.mlKem p dk)
  | mlKemGenerated {p : ParameterSet} {σ : Type} {source : Entropy σ} {s s' : σ} {dk : MLKEM.DecapsulationKey p}
      (h : MLKEM.DecapsulationKey.generate P.toHashes p source s = (.ok dk, s')) : Reachable P (.mlKem p dk)
  | mlKemRead {p : ParameterSet} {bytes : List UInt8} {dk : MLKEM.DecapsulationKey p}
      (h : MLKEM.DecapsulationKey.ofBytes P.toHashes p bytes = .ok dk) : Reachable P (.mlKem p dk)
  | xWingDerived {seed : List UInt8} {dk : XWing.DecapsulationKey}
      (h : XWing.DecapsulationKey.fromSeed P seed = .ok dk) : Reachable P (.xWing dk)
  | xWingGenerated {σ : Type} {source : Entropy σ} {s s' : σ} {dk : XWing.DecapsulationKey}
      (h : XWing.DecapsulationKey.generate P source s = (.ok dk, s')) : Reachable P (.xWing dk)

/-- a public key that some sequence of operations gives -/
inductive PublicKey.Reachable (P : XWing.Primitives) : PublicKey → Prop
  | derived {scheme : AnyScheme} {seed : List UInt8} {pk : PublicKey} {sk : PrivateKey} (hscheme : scheme ∈ shipped P)
      (h : scheme.deriveKey seed = .ok (pk, sk)) : Reachable P pk
  | generated {scheme : AnyScheme} {σ : Type} {source : Entropy σ} {s s' : σ} {pk : PublicKey} {sk : PrivateKey}
      (hscheme : scheme ∈ shipped P) (h : scheme.generateKey source s = (.ok (pk, sk), s')) : Reachable P pk
  | read {scheme : AnyScheme} {bytes : List UInt8} {pk : PublicKey} (hscheme : scheme ∈ shipped P)
      (h : scheme.readPublicKey bytes = .ok pk) : Reachable P pk
  | ofPrivate {sk : PrivateKey} (h : sk.Reachable P) : Reachable P sk.publicKey
  | mlKemRead {p : ParameterSet} {bytes : List UInt8} {ek : MLKEM.EncapsulationKey p}
      (h : MLKEM.EncapsulationKey.ofBytes P.toHashes p bytes = .ok ek) : Reachable P (.mlKem p ek)
  | xWingRead {bytes : List UInt8} {ek : XWing.EncapsulationKey}
      (h : XWing.EncapsulationKey.ofBytes P bytes = .ok ek) : Reachable P (.xWing ek)

/-! ## What one operation gives -/

/-- a private key of ML-KEM from a seed or an encoding, or one of X-Wing from a seed -/
def PrivateKey.Genuine (P : XWing.Primitives) : PrivateKey → Prop
  | mlKem _ dk => dk.Obtained P.toHashes
  | xWing dk => ∃ seed, XWing.DecapsulationKey.ofSeed P seed = dk
  | toy .. => False

/-- a public key of ML-KEM or X-Wing that is what its encoding is read as -/
def PublicKey.Genuine (P : XWing.Primitives) : PublicKey → Prop
  | mlKem p ek => MLKEM.EncapsulationKey.ofBytes P.toHashes p ek.toBytes.toList = .ok ek
  | xWing ek => XWing.EncapsulationKey.ofBytes P ek.toBytes.toList = .ok ek
  | toy .. => False

theorem PrivateKey.Genuine.publicKey (h : sk.Genuine P) : sk.publicKey.Genuine P := by
  cases sk with
  | mlKem p dk => exact MLKEM.DecapsulationKey.Obtained.ofBytes_ek h
  | xWing dk =>
    obtain ⟨seed, rfl⟩ := h
    exact XWing.DecapsulationKey.ofBytes_ek_ofSeed P seed
  | toy scheme key => exact h.elim

/-- what comes of random bytes comes of some bytes -/
theorem exists_of_drawThen {ε α : Type} {n : ℕ} {failure : ε} {use : Bytes n → Except ε α} {a : α}
    (h : source.drawThen n failure use s = (.ok a, s')) : ∃ drawn, use drawn = .ok a := by
  unfold Entropy.drawThen at h
  split at h
  case h_1 drawn _ _ => exact ⟨drawn, congrArg Prod.fst h⟩
  case h_2 => cases h

theorem mem_shipped : scheme ∈ shipped P ↔ (∃ p, mlKem P.toHashes p = scheme) ∨ scheme = xWing P := by
  simp only [shipped, List.mem_append, List.mem_map, List.mem_singleton, ParameterSet.mem_all, true_and]

theorem genuine_of_fromSeed {p : ParameterSet} {dk : MLKEM.DecapsulationKey p}
    (h : MLKEM.DecapsulationKey.fromSeed P.toHashes p seed = .ok dk) : (PrivateKey.mlKem p dk).Genuine P :=
  .derived seed h

theorem genuine_of_xWing_fromSeed {dk : XWing.DecapsulationKey} (h : XWing.DecapsulationKey.fromSeed P seed = .ok dk) :
    (PrivateKey.xWing dk).Genuine P := by
  obtain ⟨seed, -, hseed⟩ := XWing.DecapsulationKey.fromSeed_eq_ok_iff.1 h
  exact ⟨seed, hseed⟩

/-- a scheme derives a private key of its own and the public key of that -/
theorem genuine_of_deriveKey (hscheme : scheme ∈ shipped P) (h : scheme.deriveKey seed = .ok (pk, sk)) :
    sk.Genuine P ∧ sk.publicKey = pk := by
  -- either scheme wraps the key that its own operation derives
  obtain ⟨p, rfl⟩ | rfl := mem_shipped.1 hscheme
  · obtain ⟨dk, hdk, h⟩ := bind_eq_ok_iff.1 h
    cases h
    exact ⟨genuine_of_fromSeed hdk, rfl⟩
  · obtain ⟨dk, hdk, h⟩ := bind_eq_ok_iff.1 h
    cases h
    exact ⟨genuine_of_xWing_fromSeed hdk, rfl⟩

theorem genuine_of_generateKey (hscheme : scheme ∈ shipped P) (h : scheme.generateKey source s = (.ok (pk, sk), s')) :
    sk.Genuine P ∧ sk.publicKey = pk := by
  obtain ⟨drawn, hdrawn⟩ := exists_of_drawThen h
  exact genuine_of_deriveKey hscheme hdrawn

theorem genuine_of_readPrivateKey (hscheme : scheme ∈ shipped P) (h : scheme.readPrivateKey bytes = .ok sk) :
    sk.Genuine P := by
  obtain ⟨p, rfl⟩ | rfl := mem_shipped.1 hscheme
  · obtain ⟨dk, hdk, h⟩ := bind_eq_ok_iff.1 h
    cases h
    exact .read bytes hdk
  · obtain ⟨dk, hdk, h⟩ := bind_eq_ok_iff.1 h
    cases h
    obtain ⟨seed, -, hseed⟩ := XWing.DecapsulationKey.ofBytes_eq_ok_iff.1 hdk
    exact ⟨seed, hseed⟩

theorem genuine_of_mlKem_read {p : ParameterSet} {ek : MLKEM.EncapsulationKey p}
    (h : MLKEM.EncapsulationKey.ofBytes P.toHashes p bytes = .ok ek) : (PublicKey.mlKem p ek).Genuine P := by
  obtain ⟨hbytes, -⟩ := MLKEM.EncapsulationKey.of_ofBytes h
  rw [← hbytes] at h
  exact h

theorem genuine_of_xWing_read {ek : XWing.EncapsulationKey} (h : XWing.EncapsulationKey.ofBytes P bytes = .ok ek) :
    (PublicKey.xWing ek).Genuine P := by
  obtain ⟨hbytes, -⟩ := XWing.EncapsulationKey.ofBytes_eq_ok_iff.1 h
  rw [← hbytes] at h
  exact h

theorem genuine_of_readPublicKey (hscheme : scheme ∈ shipped P) (h : scheme.readPublicKey bytes = .ok pk) :
    pk.Genuine P := by
  obtain ⟨p, rfl⟩ | rfl := mem_shipped.1 hscheme
  · obtain ⟨ek, hek, h⟩ := bind_eq_ok_iff.1 h
    cases h
    exact genuine_of_mlKem_read hek
  · obtain ⟨ek, hek, h⟩ := bind_eq_ok_iff.1 h
    cases h
    exact genuine_of_xWing_read hek

/-! ## What any sequence of operations gives -/

/-- **Private keys come from a seed or an encoding.** -/
theorem PrivateKey.Reachable.genuine (h : sk.Reachable P) : sk.Genuine P := by
  cases h with
  | derived hscheme h => exact (genuine_of_deriveKey hscheme h).1
  | generated hscheme h => exact (genuine_of_generateKey hscheme h).1
  | read hscheme h => exact genuine_of_readPrivateKey hscheme h
  | mlKemDerived h => exact genuine_of_fromSeed h
  | mlKemGenerated h =>
    obtain ⟨drawn, hdrawn⟩ := exists_of_drawThen h
    exact genuine_of_fromSeed hdrawn
  | @mlKemRead p bytes dk h => exact .read bytes h
  | xWingDerived h => exact genuine_of_xWing_fromSeed h
  | xWingGenerated h =>
    obtain ⟨drawn, hdrawn⟩ := exists_of_drawThen h
    exact genuine_of_xWing_fromSeed hdrawn

/-- **Public keys are what their encodings are read as.** -/
theorem PublicKey.Reachable.genuine (h : pk.Reachable P) : pk.Genuine P := by
  cases h with
  | derived hscheme h =>
    obtain ⟨hsk, rfl⟩ := genuine_of_deriveKey hscheme h
    exact hsk.publicKey
  | generated hscheme h =>
    obtain ⟨hsk, rfl⟩ := genuine_of_generateKey hscheme h
    exact hsk.publicKey
  | read hscheme h => exact genuine_of_readPublicKey hscheme h
  | ofPrivate h => exact h.genuine.publicKey
  | mlKemRead h => exact genuine_of_mlKem_read h
  | xWingRead h => exact genuine_of_xWing_read h

/-! ## Public keys and their encodings -/

/-- **The encodings of public keys.** For ML-KEM those strings of the right length are read of which each group of
twelve bits in the vector is below q, for X-Wing those that ML-KEM-768 reads the first 1184 bytes of; any other string
of that length is a malformed public key. The key that is read has this encoding, and for ML-KEM the hash of it; and a
key that some sequence of operations gives is what its encoding is read as. -/
theorem public_key_grammar (P : XWing.Primitives) :
    (∀ p : ParameterSet,
      Accepts (MLKEM.EncapsulationKey.ofBytes P.toHashes p) p.encapsulationKeySize
        (fun bytes => Canonical p.k (bytes.take (384 * p.k))) .badKeyLength .invalidPublicKey ∧
      (∀ bytes ek, MLKEM.EncapsulationKey.ofBytes P.toHashes p bytes = .ok ek →
        ek.toBytes.toList = bytes ∧ ek.hash = P.h bytes) ∧
      ∀ ek, PublicKey.Reachable P (.mlKem p ek) →
        MLKEM.EncapsulationKey.ofBytes P.toHashes p ek.toBytes.toList = .ok ek) ∧
    Accepts (XWing.EncapsulationKey.ofBytes P) 1216
      (fun bytes => ∃ ek, MLKEM.EncapsulationKey.ofBytes P.toHashes .mlKem768 (bytes.take 1184) = .ok ek)
      .badKeyLength .invalidPublicKey ∧
    (∀ bytes ek, XWing.EncapsulationKey.ofBytes P bytes = .ok ek → ek.toBytes.toList = bytes) ∧
    ∀ ek, PublicKey.Reachable P (.xWing ek) → XWing.EncapsulationKey.ofBytes P ek.toBytes.toList = .ok ek := by
  refine ⟨fun p => ⟨MLKEM.EncapsulationKey.accepts P.toHashes p, ?_, ?_⟩, XWing.EncapsulationKey.accepts P, ?_, ?_⟩
  · intro bytes ek h
    exact MLKEM.EncapsulationKey.of_ofBytes h
  · intro ek hek
    exact hek.genuine
  · intro bytes ek h
    exact (XWing.EncapsulationKey.ofBytes_eq_ok_iff.1 h).1
  · intro ek hek
    exact hek.genuine

/-- the public keys of the seed of zeros are read back; a string of ones is malformed, and none is too short -/
theorem public_key_grammar_zeros :
    let H := XWing.Primitives.standard.toHashes
    let ek := (MLKEM.DecapsulationKey.ofSeed H .mlKem768 (Bytes.zeros 64)).ek
    let xWing := (XWing.DecapsulationKey.ofSeed XWing.Primitives.standard (Bytes.zeros 32)).ek
    let ones (n : ℕ) : List UInt8 := List.replicate n 0xff
    MLKEM.EncapsulationKey.ofBytes H .mlKem768 ek.toBytes.toList = .ok ek ∧
      Canonical 3 (ek.toBytes.toList.take 1152) ∧ ek.hash = H.h ek.toBytes.toList ∧
    MLKEM.EncapsulationKey.ofBytes H .mlKem768 (ones 1184) = .error .invalidPublicKey ∧
    MLKEM.EncapsulationKey.ofBytes H .mlKem768 [] = .error (.badKeyLength 1184 0) ∧
    XWing.EncapsulationKey.ofBytes XWing.Primitives.standard xWing.toBytes.toList = .ok xWing ∧
    XWing.EncapsulationKey.ofBytes XWing.Primitives.standard [] = .error (.badKeyLength 1216 0) := by
  intro H ek xWing ones
  have hek : PublicKey.Reachable XWing.Primitives.standard (.mlKem .mlKem768 ek) :=
    .ofPrivate (.mlKemDerived (MLKEM.DecapsulationKey.fromSeed_eq_ok_iff.2 ⟨Bytes.zeros 64, rfl, rfl⟩))
  have hxWing : PublicKey.Reachable XWing.Primitives.standard (.xWing xWing) :=
    .ofPrivate (.xWingDerived (XWing.DecapsulationKey.fromSeed_eq_ok_iff.2 ⟨Bytes.zeros 32, rfl, rfl⟩))
  obtain ⟨hmlKem, haccepts, -, hread⟩ := public_key_grammar XWing.Primitives.standard
  obtain ⟨haccepts768, hwritten, hread768⟩ := hmlKem .mlKem768
  have hok := hread768 ek hek
  have hgroup : ¬Bytes.group 12 ((ones 1184).take 1152) 0 < 3329 := by decide +kernel
  refine ⟨hok, ((haccepts768.ok_iff _).1 ⟨ek, hok⟩).2, (hwritten _ ek hok).2, ?_, ?_, hread xWing hxWing, ?_⟩
  · exact (haccepts768.malformed_iff _).2 ⟨List.length_replicate, fun hfits => hgroup (hfits 0 (by decide))⟩
  · exact (haccepts768.badLength_iff []).2 (by decide)
  · exact (haccepts.badLength_iff []).2 (by decide)

end PostQuantum.Kem
