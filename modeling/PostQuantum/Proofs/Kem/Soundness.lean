/-
What is true of every key in existence.

Keys are made by operations, one after the other, on arbitrary input: derived from seeds, generated with sources of
random bytes, read from encodings, taken out of private keys and copied. No operation changes a key that exists, and
one that fails makes none, so what exists is a pool that only grows.
- `EncapsulationKey.Sound`, `DecapsulationKey.Sound`: the coefficients of a key are reduced, and what it caches (a hash,
  a seed, the components that a seed expands to) is what it stands for.
- `PublicKey.Genuine.sound`, `PrivateKey.Genuine.sound`: keys from a seed or an encoding are sound.
- `Pool.exists_run_of_private`, `Pool.exists_run_of_public`: the keys that operations give are those of pools.
- `Pool.Sound.step`: an operation on sound keys makes sound keys.
- `Pool.keys_sound`: after any operations all keys are sound.
Encapsulation takes the cached hash and the arithmetic takes the coefficients as they are, so both rest on this.
-/
import Mathlib.Tactic
import PostQuantum.Proofs.Kem.Provenance

namespace PostQuantum

/-! ## Sound keys -/

namespace MLKEM

variable {H : Hashes} {p : ParameterSet}

/-- the coefficients are reduced, and the hash is that of the encoding -/
structure EncapsulationKey.Sound (H : Hashes) (ek : EncapsulationKey p) : Prop where
  reduced : ek.key.tHat.Reduced
  hash : ek.hash = H.h ek.toBytes.toList

/-- the coefficients are reduced, the public key is sound, and a seed that is remembered gives a key with the same
encoding -/
structure DecapsulationKey.Sound (H : Hashes) (dk : DecapsulationKey p) : Prop where
  reduced : dk.key.sHat.Reduced
  ek : dk.ek.Sound H
  seed : ∀ seed, dk.seed = some seed → ∃ dk', fromSeed H p seed.toList = .ok dk' ∧ dk'.toBytes = dk.toBytes

theorem EncapsulationKey.sound_of_ofBytes {bytes : List UInt8} {ek : EncapsulationKey p}
    (h : ofBytes H p bytes = .ok ek) : ek.Sound H := by
  obtain ⟨-, hkey, hhash⟩ := ofBytes_eq_ok_iff.1 h
  refine ⟨?_, hhash⟩
  rw [← hkey]
  exact decodeNttVec_reduced (by norm_num) _

theorem DecapsulationKey.Obtained.sound {dk : DecapsulationKey p} (h : dk.Obtained H) : dk.Sound H := by
  have hek := EncapsulationKey.sound_of_ofBytes h.ofBytes_ek
  cases h with
  | derived bytes h =>
    obtain ⟨s, rfl, rfl⟩ := fromSeed_eq_ok_iff.1 h
    refine ⟨nttVec_reduced (secret_reduced H p _), hek, ?_⟩
    rintro seed ⟨⟩
    exact ⟨_, h, rfl⟩
  | read bytes h =>
    obtain ⟨-, hkey, -, hseed⟩ := ofBytes_eq_ok_iff.1 h
    refine ⟨?_, hek, fun seed hsome => ?_⟩
    · rw [← hkey]
      exact decodeNttVec_reduced (by norm_num) _
    · rw [hseed] at hsome
      cases hsome

end MLKEM

/-- the ML-KEM keys in it are sound, and all of it is what its encoding expands to -/
structure XWing.DecapsulationKey.Sound (P : XWing.Primitives) (dk : XWing.DecapsulationKey) : Prop where
  mlKem : dk.mlKem.Sound P.toHashes
  ek : dk.ek.mlKem.Sound P.toHashes
  expanded : ∃ dk', fromSeed P dk.toBytes.toList = .ok dk' ∧
    dk.mlKem = dk'.mlKem ∧ dk.secret = dk'.secret ∧ dk.ek = dk'.ek

theorem XWing.DecapsulationKey.ofSeed_sound (P : XWing.Primitives) (seed : Bytes 32) : (ofSeed P seed).Sound P := by
  have hmlKem : (ofSeed P seed).mlKem.Sound P.toHashes := (MLKEM.DecapsulationKey.Obtained.derived _
    (MLKEM.DecapsulationKey.fromSeed_eq_ok_iff.2 ⟨_, rfl, rfl⟩)).sound
  exact ⟨hmlKem, hmlKem.ek, ofSeed P seed, fromSeed_eq_ok_iff.2 ⟨seed, rfl, rfl⟩, rfl, rfl, rfl⟩

namespace Kem

open MLKEM (ParameterSet)

variable {P : XWing.Primitives}

/-- a sound key of ML-KEM or X-Wing; the real schemes have no toy keys -/
def PublicKey.Sound (P : XWing.Primitives) : PublicKey → Prop
  | mlKem _ ek => ek.Sound P.toHashes
  | xWing ek => ek.mlKem.Sound P.toHashes
  | toy .. => False

/-- a sound key of ML-KEM or X-Wing; the real schemes have no toy keys -/
def PrivateKey.Sound (P : XWing.Primitives) : PrivateKey → Prop
  | mlKem _ dk => dk.Sound P.toHashes
  | xWing dk => dk.Sound P
  | toy .. => False

theorem PrivateKey.Sound.publicKey {sk : PrivateKey} (h : sk.Sound P) : sk.publicKey.Sound P := by
  cases sk with
  | mlKem p dk => exact MLKEM.DecapsulationKey.Sound.ek h
  | xWing dk => exact XWing.DecapsulationKey.Sound.ek h
  | toy scheme key => exact h.elim

theorem PublicKey.Genuine.sound {pk : PublicKey} (h : pk.Genuine P) : pk.Sound P := by
  cases pk with
  | mlKem p ek => exact MLKEM.EncapsulationKey.sound_of_ofBytes h
  | xWing ek =>
    obtain ⟨-, hread⟩ := XWing.EncapsulationKey.ofBytes_eq_ok_iff.1 h
    exact MLKEM.EncapsulationKey.sound_of_ofBytes hread
  | toy scheme key => exact h.elim

theorem PrivateKey.Genuine.sound {sk : PrivateKey} (h : sk.Genuine P) : sk.Sound P := by
  cases sk with
  | mlKem p dk => exact MLKEM.DecapsulationKey.Obtained.sound h
  | xWing dk =>
    obtain ⟨seed, rfl⟩ := h
    exact XWing.DecapsulationKey.ofSeed_sound P seed
  | toy scheme key => exact h.elim

/-! ## Operations -/

/-- the keys in existence -/
structure Pool where
  publicKeys : List PublicKey
  privateKeys : List PrivateKey

/-- an operation that may make keys, of a real scheme, of ML-KEM with given parameters, of X-Wing or on a key of the
pool, with its input -/
inductive Operation (P : XWing.Primitives) : Type 1
  | deriveKey (scheme : AnyScheme) (hscheme : scheme ∈ shipped P) (seed : List UInt8)
  | generateKey (scheme : AnyScheme) (hscheme : scheme ∈ shipped P) {σ : Type} (source : Entropy σ) (s : σ)
  | readPublicKey (scheme : AnyScheme) (hscheme : scheme ∈ shipped P) (bytes : List UInt8)
  | readPrivateKey (scheme : AnyScheme) (hscheme : scheme ∈ shipped P) (bytes : List UInt8)
  | mlKemFromSeed (p : ParameterSet) (seed : List UInt8)
  | mlKemGenerate (p : ParameterSet) {σ : Type} (source : Entropy σ) (s : σ)
  | mlKemReadPublic (p : ParameterSet) (bytes : List UInt8)
  | mlKemReadPrivate (p : ParameterSet) (bytes : List UInt8)
  | xWingFromSeed (seed : List UInt8)
  | xWingGenerate {σ : Type} (source : Entropy σ) (s : σ)
  | xWingReadPublic (bytes : List UInt8)
  | publicKeyOf (i : ℕ)
  | copyPublic (i : ℕ)
  | copyPrivate (i : ℕ)

namespace Pool

def empty : Pool := ⟨[], []⟩

def addPublic (pool : Pool) (pk : PublicKey) : Pool := { pool with publicKeys := pool.publicKeys ++ [pk] }

def addPrivate (pool : Pool) (sk : PrivateKey) : Pool := { pool with privateKeys := pool.privateKeys ++ [sk] }

def addPair (pool : Pool) (pair : PublicKey × PrivateKey) : Pool := (pool.addPublic pair.1).addPrivate pair.2

/-- the pool with what an operation made, if it did not fail -/
def made {α : Type} (pool : Pool) (add : Pool → α → Pool) : Except Error α → Pool
  | .ok key => add pool key
  | .error _ => pool

/-- the pool with a key that is made of one in it, if that is there -/
def madeOf {α : Type} (pool : Pool) (add : Pool → α → Pool) : Option α → Pool
  | some key => add pool key
  | none => pool

/-- the pool after an operation -/
def step (pool : Pool) : Operation P → Pool
  | .deriveKey scheme _ seed => pool.made addPair (scheme.deriveKey seed)
  | .generateKey scheme _ source s => pool.made addPair (scheme.generateKey source s).1
  | .readPublicKey scheme _ bytes => pool.made addPublic (scheme.readPublicKey bytes)
  | .readPrivateKey scheme _ bytes => pool.made addPrivate (scheme.readPrivateKey bytes)
  | .mlKemFromSeed p seed =>
    pool.made addPrivate ((MLKEM.DecapsulationKey.fromSeed P.toHashes p seed).map (.mlKem p))
  | .mlKemGenerate p source s =>
    pool.made addPrivate ((MLKEM.DecapsulationKey.generate P.toHashes p source s).1.map (.mlKem p))
  | .mlKemReadPublic p bytes =>
    pool.made addPublic ((MLKEM.EncapsulationKey.ofBytes P.toHashes p bytes).map (.mlKem p))
  | .mlKemReadPrivate p bytes =>
    pool.made addPrivate ((MLKEM.DecapsulationKey.ofBytes P.toHashes p bytes).map (.mlKem p))
  | .xWingFromSeed seed => pool.made addPrivate ((XWing.DecapsulationKey.fromSeed P seed).map .xWing)
  | .xWingGenerate source s => pool.made addPrivate ((XWing.DecapsulationKey.generate P source s).1.map .xWing)
  | .xWingReadPublic bytes => pool.made addPublic ((XWing.EncapsulationKey.ofBytes P bytes).map .xWing)
  | .publicKeyOf i => pool.madeOf addPublic (pool.privateKeys.map PrivateKey.publicKey)[i]?
  | .copyPublic i => pool.madeOf addPublic pool.publicKeys[i]?
  | .copyPrivate i => pool.madeOf addPrivate pool.privateKeys[i]?

@[simp] theorem made_ok {α : Type} (pool : Pool) (add : Pool → α → Pool) (key : α) :
    pool.made add (.ok key) = add pool key :=
  rfl

@[simp] theorem made_map_ok {α β : Type} (pool : Pool) (add : Pool → β → Pool) (wrap : α → β) (key : α) :
    pool.made add (Except.map wrap (.ok key)) = add pool (wrap key) :=
  rfl

@[simp] theorem madeOf_some {α : Type} (pool : Pool) (add : Pool → α → Pool) (key : α) :
    pool.madeOf add (some key) = add pool key :=
  rfl

@[simp] theorem publicKeys_addPublic (pool : Pool) (pk : PublicKey) :
    (pool.addPublic pk).publicKeys = pool.publicKeys ++ [pk] :=
  rfl

@[simp] theorem privateKeys_addPrivate (pool : Pool) (sk : PrivateKey) :
    (pool.addPrivate sk).privateKeys = pool.privateKeys ++ [sk] :=
  rfl

@[simp] theorem publicKeys_addPair (pool : Pool) (pair : PublicKey × PrivateKey) :
    (pool.addPair pair).publicKeys = pool.publicKeys ++ [pair.1] :=
  rfl

@[simp] theorem privateKeys_addPair (pool : Pool) (pair : PublicKey × PrivateKey) :
    (pool.addPair pair).privateKeys = pool.privateKeys ++ [pair.2] :=
  rfl

/-- the pool after operations one after the other -/
def run (operations : List (Operation P)) : Pool := operations.foldl step empty

theorem run_snoc (operations : List (Operation P)) (operation : Operation P) :
    run (operations ++ [operation]) = (run operations).step operation := by
  simp [run, List.foldl_append]

variable {pool : Pool} {pk : PublicKey} {sk : PrivateKey}

/-! ## Every key comes into existence -/

@[simp] theorem run_singleton (operation : Operation P) : run [operation] = empty.step operation :=
  rfl

/-- a private key that operations give is in the pool after some of them -/
theorem exists_run_of_private (h : sk.Reachable P) :
    ∃ operations : List (Operation P), sk ∈ (run operations).privateKeys := by
  cases h with
  | @derived scheme seed pk sk hscheme h =>
    exact ⟨[.deriveKey scheme hscheme seed], by simp [Pool.step, h]⟩
  | @generated scheme σ source s s' pk sk hscheme h =>
    exact ⟨[.generateKey scheme hscheme source s], by simp [Pool.step, h]⟩
  | @read scheme bytes sk hscheme h =>
    exact ⟨[.readPrivateKey scheme hscheme bytes], by simp [Pool.step, h]⟩
  | @mlKemDerived p seed dk h =>
    exact ⟨[.mlKemFromSeed p seed], by simp [Pool.step, h]⟩
  | @mlKemGenerated p σ source s s' dk h =>
    exact ⟨[.mlKemGenerate p source s], by simp [Pool.step, h]⟩
  | @mlKemRead p bytes dk h =>
    exact ⟨[.mlKemReadPrivate p bytes], by simp [Pool.step, h]⟩
  | @xWingDerived seed dk h =>
    exact ⟨[.xWingFromSeed seed], by simp [Pool.step, h]⟩
  | @xWingGenerated σ source s s' dk h =>
    exact ⟨[.xWingGenerate source s], by simp [Pool.step, h]⟩

/-- so is a public key -/
theorem exists_run_of_public (h : pk.Reachable P) :
    ∃ operations : List (Operation P), pk ∈ (run operations).publicKeys := by
  cases h with
  | @derived scheme seed pk sk hscheme h =>
    exact ⟨[.deriveKey scheme hscheme seed], by simp [Pool.step, h]⟩
  | @generated scheme σ source s s' pk sk hscheme h =>
    exact ⟨[.generateKey scheme hscheme source s], by simp [Pool.step, h]⟩
  | @read scheme bytes pk hscheme h =>
    exact ⟨[.readPublicKey scheme hscheme bytes], by simp [Pool.step, h]⟩
  | @mlKemRead p bytes ek h =>
    exact ⟨[.mlKemReadPublic p bytes], by simp [Pool.step, h]⟩
  | @xWingRead bytes ek h =>
    exact ⟨[.xWingReadPublic bytes], by simp [Pool.step, h]⟩
  | @ofPrivate sk h =>
    obtain ⟨operations, hsk⟩ := exists_run_of_private h
    obtain ⟨i, hi⟩ := List.mem_iff_getElem?.1 hsk
    exact ⟨operations ++ [.publicKeyOf i], by simp [run_snoc, Pool.step, hi]⟩

/-! ## What operations keep -/

/-- all keys are sound -/
structure Sound (P : XWing.Primitives) (pool : Pool) : Prop where
  publicKeys : ∀ pk ∈ pool.publicKeys, pk.Sound P
  privateKeys : ∀ sk ∈ pool.privateKeys, sk.Sound P

theorem Sound.addPublic (h : pool.Sound P) (hpk : pk.Sound P) : (pool.addPublic pk).Sound P := by
  refine ⟨fun new hnew => ?_, h.privateKeys⟩
  obtain hold | hnew := List.mem_append.1 hnew
  · exact h.publicKeys new hold
  · rw [List.mem_singleton.1 hnew]
    exact hpk

theorem Sound.addPrivate (h : pool.Sound P) (hsk : sk.Sound P) : (pool.addPrivate sk).Sound P := by
  refine ⟨h.publicKeys, fun new hnew => ?_⟩
  obtain hold | hnew := List.mem_append.1 hnew
  · exact h.privateKeys new hold
  · rw [List.mem_singleton.1 hnew]
    exact hsk

theorem Sound.addPair (h : pool.Sound P) (hsk : sk.Genuine P) (hpk : sk.publicKey = pk) :
    (pool.addPair (pk, sk)).Sound P := by
  subst hpk
  exact (h.addPublic hsk.sound.publicKey).addPrivate hsk.sound

theorem Sound.made {α : Type} {add : Pool → α → Pool} {result : Except Error α} (h : pool.Sound P)
    (hadd : ∀ key, result = .ok key → (add pool key).Sound P) : (pool.made add result).Sound P := by
  cases result with
  | ok key => exact hadd key rfl
  | error e => exact h

theorem Sound.made_map {α β : Type} {add : Pool → β → Pool} {wrap : α → β} {result : Except Error α}
    (h : pool.Sound P) (hadd : ∀ key, result = .ok key → (add pool (wrap key)).Sound P) :
    (pool.made add (result.map wrap)).Sound P := by
  cases result with
  | ok key => exact hadd key rfl
  | error e => exact h

theorem Sound.madeOf {α : Type} {add : Pool → α → Pool} {keys : List α} (i : ℕ) (h : pool.Sound P)
    (hadd : ∀ key ∈ keys, (add pool key).Sound P) : (pool.madeOf add keys[i]?).Sound P := by
  cases hkey : keys[i]? with
  | some key => exact hadd key (List.mem_of_getElem? hkey)
  | none => exact h

/-- **One operation makes sound keys of sound keys.** -/
theorem Sound.step (h : pool.Sound P) (operation : Operation P) : (pool.step operation).Sound P := by
  cases operation with
  | deriveKey scheme hscheme seed =>
    refine h.made ?_
    rintro ⟨pk, sk⟩ hpair
    obtain ⟨hsk, hpk⟩ := genuine_of_deriveKey hscheme hpair
    exact h.addPair hsk hpk
  | generateKey scheme hscheme source s =>
    refine h.made ?_
    rintro ⟨pk, sk⟩ hpair
    obtain ⟨hsk, hpk⟩ := genuine_of_generateKey hscheme (Prod.ext hpair rfl)
    exact h.addPair hsk hpk
  | readPublicKey scheme hscheme bytes =>
    refine h.made ?_
    intro pk hpk
    exact h.addPublic (genuine_of_readPublicKey hscheme hpk).sound
  | readPrivateKey scheme hscheme bytes =>
    refine h.made ?_
    intro sk hsk
    exact h.addPrivate (genuine_of_readPrivateKey hscheme hsk).sound
  | mlKemFromSeed p seed =>
    refine h.made_map ?_
    intro dk hdk
    exact h.addPrivate (genuine_of_fromSeed hdk).sound
  | mlKemGenerate p source s =>
    refine h.made_map ?_
    intro dk hdk
    obtain ⟨drawn, hdrawn⟩ := exists_of_drawThen (Prod.ext hdk rfl)
    exact h.addPrivate (genuine_of_fromSeed hdrawn).sound
  | mlKemReadPublic p bytes =>
    refine h.made_map ?_
    intro ek hek
    exact h.addPublic (genuine_of_mlKem_read hek).sound
  | mlKemReadPrivate p bytes =>
    refine h.made_map ?_
    intro dk hdk
    have hobtained : dk.Obtained P.toHashes := .read bytes hdk
    exact h.addPrivate hobtained.sound
  | xWingFromSeed seed =>
    refine h.made_map ?_
    intro dk hdk
    exact h.addPrivate (genuine_of_xWing_fromSeed hdk).sound
  | xWingGenerate source s =>
    refine h.made_map ?_
    intro dk hdk
    obtain ⟨drawn, hdrawn⟩ := exists_of_drawThen (Prod.ext hdk rfl)
    exact h.addPrivate (genuine_of_xWing_fromSeed hdrawn).sound
  | xWingReadPublic bytes =>
    refine h.made_map ?_
    intro ek hek
    exact h.addPublic (genuine_of_xWing_read hek).sound
  | publicKeyOf i =>
    refine h.madeOf i ?_
    intro pk hpk
    obtain ⟨sk, hsk, rfl⟩ := List.mem_map.1 hpk
    exact h.addPublic (h.privateKeys sk hsk).publicKey
  | copyPublic i =>
    refine h.madeOf i ?_
    intro pk hpk
    exact h.addPublic (h.publicKeys pk hpk)
  | copyPrivate i =>
    refine h.madeOf i ?_
    intro sk hsk
    exact h.addPrivate (h.privateKeys sk hsk)

/-- **All keys in existence are sound.** After any sequence of operations, on any input and with any sources of random
bytes: every public key of ML-KEM has reduced coefficients and the hash of its encoding; every private key of ML-KEM
has reduced coefficients, a sound public key and, if it remembers a seed, the encoding that this seed gives; and every
private key of X-Wing has the parts that its encoding expands to. Keys of ML-KEM inside those of X-Wing are sound. -/
theorem keys_sound (operations : List (Operation P)) : (run operations).Sound P := by
  induction operations using List.reverseRecOn with
  | nil => exact ⟨nofun, nofun⟩
  | append_singleton operations operation ih =>
    rw [run_snoc]
    exact ih.step operation

end Pool

end Kem

end PostQuantum
