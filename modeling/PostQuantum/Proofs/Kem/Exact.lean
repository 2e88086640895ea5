/-
The schemes with every check and every step that may leave its range.

A scheme checks the length of a string, then whether the key is one of its own, and then calls the operation of that
key, which checks the length again. With all of these checks (`CheckedScheme`) it answers what it answers with one.
- `PublicKey.Reduced`, `PrivateKey.Reduced`: the keys that steps on words need; `Sound.isReduced`: sound keys are such.
- `mlKemChecked_agrees`, `xWingChecked_agrees`: the schemes, each with the operations of its own keys.
- `checked_schemes_agree`: the four real schemes, and the keys that they are used with.
-/
import Mathlib.Tactic
import PostQuantum.Proofs.Kem.Soundness
import PostQuantum.Proofs.XWing.Exact

namespace PostQuantum.Kem

open InRange Guarded
open Bytes (sized)
open MLKEM (ParameterSet)

variable {p : ParameterSet} {pk : PublicKey} {sk : PrivateKey}

/-! ## Keys -/

/-- the coefficients in the key are reduced; a toy key has none -/
def PublicKey.Reduced : PublicKey → Prop
  | mlKem _ ek => ek.key.tHat.Reduced
  | xWing ek => ek.mlKem.key.tHat.Reduced
  | toy .. => True

/-- the coefficients in the key and in its public key are reduced; a toy key has none -/
def PrivateKey.Reduced : PrivateKey → Prop
  | mlKem _ dk => dk.key.sHat.Reduced ∧ dk.ek.key.tHat.Reduced
  | xWing dk => dk.mlKem.key.sHat.Reduced ∧ dk.mlKem.ek.key.tHat.Reduced
  | toy .. => True

/-- a key that is of the type asked for is that key -/
theorem PublicKey.eq_of_asMlKem {ek : MLKEM.EncapsulationKey p} (h : pk.asMlKem p = .ok ek) : pk = .mlKem p ek := by
  cases pk with
  | mlKem q key =>
    by_cases hq : q = p
    · subst hq
      rw [PublicKey.asMlKem_mlKem] at h
      cases h
      rfl
    · simp [PublicKey.asMlKem, hq] at h
  | xWing key => cases h
  | toy scheme key => cases h

theorem PrivateKey.eq_of_asMlKem {dk : MLKEM.DecapsulationKey p} (h : sk.asMlKem p = .ok dk) : sk = .mlKem p dk := by
  cases sk with
  | mlKem q key =>
    by_cases hq : q = p
    · subst hq
      rw [PrivateKey.asMlKem_mlKem] at h
      cases h
      rfl
    · simp [PrivateKey.asMlKem, hq] at h
  | xWing key => cases h
  | toy scheme key => cases h

theorem PublicKey.eq_of_asXWing {ek : XWing.EncapsulationKey} (h : pk.asXWing = .ok ek) : pk = .xWing ek := by
  cases pk <;> cases h
  rfl

theorem PrivateKey.eq_of_asXWing {dk : XWing.DecapsulationKey} (h : sk.asXWing = .ok dk) : sk = .xWing dk := by
  cases sk <;> cases h
  rfl

theorem PublicKey.Sound.isReduced {P : XWing.Primitives} (h : pk.Sound P) : pk.Reduced := by
  cases pk with
  | mlKem p ek => exact MLKEM.EncapsulationKey.Sound.reduced h
  | xWing ek => exact MLKEM.EncapsulationKey.Sound.reduced h
  | toy scheme key => trivial

theorem PrivateKey.Sound.isReduced {P : XWing.Primitives} (h : sk.Sound P) : sk.Reduced := by
  cases sk with
  | mlKem p dk => exact ⟨MLKEM.DecapsulationKey.Sound.reduced h, h.ek.reduced⟩
  | xWing dk => exact ⟨(XWing.DecapsulationKey.Sound.mlKem h).reduced, h.mlKem.ek.reduced⟩
  | toy scheme key => trivial

/-! ## Schemes -/

/-- the operations of a scheme with all checks that they make -/
structure CheckedScheme where
  deriveKey : List UInt8 → Guarded Error (PublicKey × PrivateKey)
  encapsulateWith : PublicKey → List UInt8 → Guarded Error (List UInt8 × List UInt8)
  decapsulate : PrivateKey → List UInt8 → Guarded Error (List UInt8)
  readPublicKey : List UInt8 → Guarded Error PublicKey
  readPrivateKey : List UInt8 → Guarded Error PrivateKey

/-- no step of the operations leaves its range, and they answer what those of the scheme do; keys are reduced -/
structure CheckedScheme.AgreesWith (checked : CheckedScheme) (scheme : AnyScheme) : Prop where
  deriveKey : ∀ seed, checked.deriveKey seed = answer (scheme.deriveKey seed)
  encapsulateWith : ∀ pk, pk.Reduced → ∀ seed,
    checked.encapsulateWith pk seed = answer (scheme.encapsulateWith pk seed)
  decapsulate : ∀ sk, sk.Reduced → ∀ ciphertext,
    checked.decapsulate sk ciphertext = answer (scheme.decapsulate sk ciphertext)
  readPublicKey : ∀ bytes, checked.readPublicKey bytes = answer (scheme.readPublicKey bytes)
  readPrivateKey : ∀ bytes, checked.readPrivateKey bytes = answer (scheme.readPrivateKey bytes)

/-- those of ML-KEM: the length, the type of the key, and then the operation of the key with its own check -/
def mlKemChecked (H : MLKEM.Hashes) (p : ParameterSet) : CheckedScheme where
  deriveKey seed := do
    let dk ← MLKEM.DecapsulationKey.fromSeed? H p seed
    return (.mlKem p dk.ek, .mlKem p dk)
  encapsulateWith pk seed := do
    checkLength 32 .badSeedLength seed.length
    let ek ← pk.asMlKem p
    let m ← Bytes.ofList? 32 seed
    let (ciphertext, shared) ← ek.encapsulateWith? H m
    return (ciphertext.toList, shared.toList)
  decapsulate sk ciphertext := do
    checkLength p.ciphertextSize .badCiphertextLength ciphertext.length
    let dk ← sk.asMlKem p
    let shared ← dk.decapsulate? H ciphertext
    return shared.toList
  readPublicKey bytes := do
    let ek ← MLKEM.EncapsulationKey.ofBytes? H p bytes
    return .mlKem p ek
  readPrivateKey bytes := do
    let dk ← MLKEM.DecapsulationKey.ofBytes? H p bytes
    return .mlKem p dk

/-- those of X-Wing -/
def xWingChecked (P : XWing.Primitives) : CheckedScheme where
  deriveKey seed := do
    let dk ← XWing.DecapsulationKey.fromSeed? P seed
    return (.xWing dk.ek, .xWing dk)
  encapsulateWith pk seed := do
    let randomness ← sized 64 Error.badSeedLength seed
    let ek ← pk.asXWing
    let (ciphertext, shared) ← ek.encapsulateWith? P randomness
    return (ciphertext.toList, shared.toList)
  decapsulate sk ciphertext := do
    checkLength 1120 .badCiphertextLength ciphertext.length
    let dk ← sk.asXWing
    let shared ← dk.decapsulate? P ciphertext
    return shared.toList
  readPublicKey bytes := do
    let ek ← XWing.EncapsulationKey.ofBytes? P bytes
    return .xWing ek
  readPrivateKey bytes := do
    let dk ← XWing.DecapsulationKey.ofBytes? P bytes
    return .xWing dk

theorem mlKemChecked_agrees (H : MLKEM.Hashes) (p : ParameterSet) : (mlKemChecked H p).AgreesWith (mlKem H p) where
  deriveKey seed := call_bind (MLKEM.DecapsulationKey.fromSeed?_eq H p seed) fun _ _ => rfl
  encapsulateWith pk hpk seed := by
    refine checkLength_bind fun m hm => ?_
    subst hm
    refine call_bind (lift_eq _) fun ek hek => ?_
    refine step_bind (Bytes.ofList?_toList m) ?_
    obtain rfl := PublicKey.eq_of_asMlKem hek
    exact step_bind (MLKEM.EncapsulationKey.encapsulateWith?_eq H hpk m) rfl
  decapsulate sk hsk ciphertext := by
    refine checkLength_bind fun c hc => ?_
    subst hc
    refine call_bind (lift_eq _) fun dk hdk => ?_
    obtain rfl := PrivateKey.eq_of_asMlKem hdk
    obtain ⟨hs, ht⟩ := hsk
    exact ok_bind (MLKEM.DecapsulationKey.decapsulate?_toList H hs ht c) rfl
  readPublicKey bytes := call_bind (MLKEM.EncapsulationKey.ofBytes?_eq H p bytes) fun _ _ => rfl
  readPrivateKey bytes := call_bind (MLKEM.DecapsulationKey.ofBytes?_eq H p bytes) fun _ _ => rfl

theorem xWingChecked_agrees (P : XWing.Primitives) : (xWingChecked P).AgreesWith (xWing P) where
  deriveKey seed := call_bind (XWing.DecapsulationKey.fromSeed?_eq P seed) fun _ _ => rfl
  encapsulateWith pk hpk seed := by
    refine call_bind (lift_eq _) fun randomness _ => ?_
    refine call_bind (lift_eq _) fun ek hek => ?_
    obtain rfl := PublicKey.eq_of_asXWing hek
    exact step_bind (XWing.EncapsulationKey.encapsulateWith?_eq P hpk randomness) rfl
  decapsulate sk hsk ciphertext := by
    refine checkLength_bind fun (c : Bytes XWing.ciphertextSize) hc => ?_
    subst hc
    refine call_bind (lift_eq _) fun dk hdk => ?_
    obtain rfl := PrivateKey.eq_of_asXWing hdk
    obtain ⟨hs, ht⟩ := hsk
    exact ok_bind (XWing.DecapsulationKey.decapsulate?_toList P hs ht c) rfl
  readPublicKey bytes := call_bind (XWing.EncapsulationKey.ofBytes?_eq P bytes) fun _ _ => rfl
  readPrivateKey bytes := call_bind (XWing.DecapsulationKey.ofBytes?_eq P bytes) fun _ _ => rfl

/-- private keys are compared byte by byte -/
theorem PrivateKey.same_eq (a b : PrivateKey) :
    a.same b = (a.schemeName == b.schemeName && ConstantTime.same a.encode b.encode) := by
  rw [ConstantTime.same_eq, PrivateKey.same, beq_eq_decide a.encode]

/-- **Checks inside checks.** For every string, and for every key with reduced coefficients or of a toy scheme, the
operations of the four real schemes take no step out of range, and they answer what is answered by the operations that
check each length once. All keys that any operations give have reduced coefficients. -/
theorem checked_schemes_agree (P : XWing.Primitives) :
    (∀ p, (mlKemChecked P.toHashes p).AgreesWith (mlKem P.toHashes p)) ∧ (xWingChecked P).AgreesWith (xWing P) ∧
    (∀ pk : PublicKey, pk.Reachable P → pk.Reduced) ∧ ∀ sk : PrivateKey, sk.Reachable P → sk.Reduced := by
  refine ⟨mlKemChecked_agrees P.toHashes, xWingChecked_agrees P, ?_, ?_⟩
  · intro pk hpk
    exact hpk.genuine.sound.isReduced
  · intro sk hsk
    exact hsk.genuine.sound.isReduced

end PostQuantum.Kem
