/-
Equal keys cannot be told apart.

Keys are equal when they belong to the same scheme and have the same encoding. The scheme reads the encoding of a key
back as that key, but for the seed that a private key of ML-KEM remembers, and no operation looks at that seed.
- `shipped_name_injective`, `read_unique`: the name of a real scheme tells which one it is, so one name and one encoding
  give one key.
- `PublicKey.Genuine.read`, `PrivateKey.Genuine.read`: the scheme of a key reads its encoding back.
- `PublicKey.Genuine.eq_of_same`, `PrivateKey.Genuine.eq_of_same`: so equal keys are the same, but for the seed.
- `decapsulate_withoutSeed`: decapsulation does not look at the seed.
- `equal_keys_agree`: equal keys give the same results, however they came about.
-/
import Mathlib.Tactic
import PostQuantum.Proofs.Kem.Provenance

namespace PostQuantum.Kem

open MLKEM (ParameterSet)

variable {P : XWing.Primitives} {scheme scheme' : AnyScheme} {pk pk' : PublicKey} {sk sk' : PrivateKey}

/-! ## Names -/

theorem parameterSet_name_injective : Function.Injective ParameterSet.name := by
  intro p q h
  revert h
  cases p <;> cases q <;> decide

theorem parameterSet_name_ne_xWing (p : ParameterSet) : p.name ≠ XWing.name := by
  cases p <;> decide

/-- **Schemes are known by their names.** -/
theorem shipped_name_injective (h : scheme ∈ shipped P) (h' : scheme' ∈ shipped P) (hname : scheme.name = scheme'.name) :
    scheme = scheme' := by
  obtain ⟨p, rfl⟩ | rfl := mem_shipped.1 h
  · obtain ⟨q, rfl⟩ | rfl := mem_shipped.1 h'
    · rw [parameterSet_name_injective hname]
    · exact absurd hname (parameterSet_name_ne_xWing p)
  · obtain ⟨q, rfl⟩ | rfl := mem_shipped.1 h'
    · exact absurd hname.symm (parameterSet_name_ne_xWing q)
    · rfl

/-- one name and one encoding give one key, whether public or private keys are read -/
theorem read_unique {α : Type} (read : AnyScheme → List UInt8 → Except Error α) {name : String} {bytes : List UInt8}
    {key key' : α} (h : ∃ scheme ∈ shipped P, scheme.name = name ∧ read scheme bytes = .ok key)
    (h' : ∃ scheme ∈ shipped P, scheme.name = name ∧ read scheme bytes = .ok key') : key = key' := by
  obtain ⟨scheme, hscheme, hname, hread⟩ := h
  obtain ⟨scheme', hscheme', hname', hread'⟩ := h'
  obtain rfl := shipped_name_injective hscheme hscheme' (hname.trans hname'.symm)
  rw [hread] at hread'
  exact Except.ok.inj hread'

/-! ## Public keys -/

theorem PublicKey.same_iff : pk.same pk' = true ↔ pk.schemeName = pk'.schemeName ∧ pk.encode = pk'.encode := by
  simp [PublicKey.same]

/-- a public key is what its scheme reads its encoding as -/
theorem PublicKey.Genuine.read (h : pk.Genuine P) :
    ∃ scheme ∈ shipped P, scheme.name = pk.schemeName ∧ scheme.readPublicKey pk.encode = .ok pk := by
  cases pk with
  | mlKem p ek => exact ⟨Kem.mlKem P.toHashes p, mem_shipped.2 (.inl ⟨p, rfl⟩), rfl, bind_eq_ok_iff.2 ⟨ek, h, rfl⟩⟩
  | xWing ek => exact ⟨Kem.xWing P, mem_shipped.2 (.inr rfl), rfl, bind_eq_ok_iff.2 ⟨ek, h, rfl⟩⟩
  | toy scheme key => exact h.elim

/-- **Equal public keys are the same.** -/
theorem PublicKey.Genuine.eq_of_same (h : pk.Genuine P) (h' : pk'.Genuine P) (hsame : pk.same pk' = true) :
    pk = pk' := by
  obtain ⟨hname, hencoding⟩ := PublicKey.same_iff.1 hsame
  have hread := h.read
  rw [hname, hencoding] at hread
  exact read_unique Scheme.readPublicKey hread h'.read

/-! ## Private keys -/

/-- the key without the seed that it may remember -/
def PrivateKey.withoutSeed : PrivateKey → PrivateKey
  | mlKem p dk => .mlKem p { dk with seed := none }
  | xWing dk => .xWing dk
  | toy scheme key => .toy scheme key

@[simp] theorem PrivateKey.publicKey_withoutSeed (sk : PrivateKey) : sk.withoutSeed.publicKey = sk.publicKey := by
  cases sk <;> rfl

theorem PrivateKey.same_iff : sk.same sk' = true ↔ sk.schemeName = sk'.schemeName ∧ sk.encode = sk'.encode := by
  simp [PrivateKey.same]

/-- a private key is what its scheme reads its encoding as, but for its seed -/
theorem PrivateKey.Genuine.read (h : sk.Genuine P) :
    ∃ scheme ∈ shipped P, scheme.name = sk.schemeName ∧ scheme.readPrivateKey sk.encode = .ok sk.withoutSeed := by
  cases sk with
  | mlKem p dk =>
    have hread := MLKEM.DecapsulationKey.Obtained.ofBytes_toBytes h
    exact ⟨Kem.mlKem P.toHashes p, mem_shipped.2 (.inl ⟨p, rfl⟩), rfl, bind_eq_ok_iff.2 ⟨_, hread, rfl⟩⟩
  | xWing dk =>
    obtain ⟨seed, rfl⟩ := h
    have hread : XWing.DecapsulationKey.ofBytes P seed.toList = .ok (.ofSeed P seed) :=
      XWing.DecapsulationKey.ofBytes_eq_ok_iff.2 ⟨seed, rfl, rfl⟩
    exact ⟨Kem.xWing P, mem_shipped.2 (.inr rfl), rfl, bind_eq_ok_iff.2 ⟨_, hread, rfl⟩⟩
  | toy scheme key => exact h.elim

/-- **Equal private keys differ in their seeds at most.** -/
theorem PrivateKey.Genuine.eq_of_same (h : sk.Genuine P) (h' : sk'.Genuine P) (hsame : sk.same sk' = true) :
    sk.withoutSeed = sk'.withoutSeed := by
  obtain ⟨hname, hencoding⟩ := PrivateKey.same_iff.1 hsame
  have hread := h.read
  rw [hname, hencoding] at hread
  exact read_unique Scheme.readPrivateKey hread h'.read

/-- **No ciphertext shows the seed.** -/
theorem decapsulate_withoutSeed (hscheme : scheme ∈ shipped P) (sk : PrivateKey) (ciphertext : List UInt8) :
    scheme.decapsulate sk.withoutSeed ciphertext = scheme.decapsulate sk ciphertext := by
  obtain ⟨p, rfl⟩ | rfl := mem_shipped.1 hscheme
  · -- a key of other parameters is refused with or without its seed
    cases sk with
    | mlKem q dk =>
      by_cases hq : q = p
      · subst hq
        simp only [mlKem, PrivateKey.withoutSeed, PrivateKey.asMlKem_mlKem]
        rfl
      · simp [mlKem, PrivateKey.withoutSeed, PrivateKey.asMlKem, hq]
    | xWing dk => rfl
    | toy scheme key => rfl
  · cases sk <;> rfl

/-! ## All keys -/

/-- **Equal keys agree.** Take any two equal keys that operations on the real schemes give. As public keys they give the
same result for every encapsulation seed, with every scheme; as private keys the same for every ciphertext, and their
public keys are equal, also if one remembers a seed and the other does not. For ML-KEM a public key is equal to another
exactly if its vector, its seed and its hash are the same. -/
theorem equal_keys_agree (P : XWing.Primitives) :
    (∀ pk pk' : PublicKey, pk.Reachable P → pk'.Reachable P → pk.same pk' = true →
      ∀ scheme ∈ shipped P, ∀ seed, scheme.encapsulateWith pk seed = scheme.encapsulateWith pk' seed) ∧
    (∀ sk sk' : PrivateKey, sk.Reachable P → sk'.Reachable P → sk.same sk' = true →
      (∀ scheme ∈ shipped P, ∀ ciphertext, scheme.decapsulate sk ciphertext = scheme.decapsulate sk' ciphertext) ∧
      sk.publicKey.same sk'.publicKey = true) ∧
    ∀ (p : ParameterSet) (ek ek' : MLKEM.EncapsulationKey p),
      PublicKey.Reachable P (.mlKem p ek) → PublicKey.Reachable P (.mlKem p ek') →
      (ek = ek' ↔ (PublicKey.mlKem p ek).same (.mlKem p ek') = true) := by
  refine ⟨?_, ?_, ?_⟩
  · intro pk pk' h h' hsame scheme hscheme seed
    rw [h.genuine.eq_of_same h'.genuine hsame]
  · intro sk sk' h h' hsame
    have heq := h.genuine.eq_of_same h'.genuine hsame
    constructor
    · intro scheme hscheme ciphertext
      rw [← decapsulate_withoutSeed hscheme sk, heq, decapsulate_withoutSeed hscheme]
    · rw [← sk.publicKey_withoutSeed, heq, sk'.publicKey_withoutSeed]
      exact PublicKey.same_iff.2 ⟨rfl, rfl⟩
  · intro p ek ek' h h'
    constructor
    · rintro rfl
      exact PublicKey.same_iff.2 ⟨rfl, rfl⟩
    · intro hsame
      have heq := h.genuine.eq_of_same h'.genuine hsame
      cases heq
      rfl

/-- the key of the seed of zeros and the key that its encoding is read as: one remembers the seed, and they agree -/
theorem equal_keys_agree_zeros :
    let P := XWing.Primitives.standard
    let scheme := mlKem P.toHashes .mlKem768
    let dk := MLKEM.DecapsulationKey.ofSeed P.toHashes .mlKem768 (Bytes.zeros 64)
    let sk := PrivateKey.mlKem .mlKem768 dk
    let sk' := PrivateKey.mlKem .mlKem768 { dk with seed := none }
    scheme.readPrivateKey sk.encode = .ok sk' ∧ dk.seed = some (Bytes.zeros 64) ∧ sk.same sk' = true ∧
      (∀ ciphertext, scheme.decapsulate sk ciphertext = scheme.decapsulate sk' ciphertext) ∧
      sk.publicKey.same sk'.publicKey = true ∧
      (∀ seed, scheme.encapsulateWith sk.publicKey seed = scheme.encapsulateWith sk'.publicKey seed) ∧
      ∀ ek, MLKEM.EncapsulationKey.ofBytes P.toHashes .mlKem768 sk.publicKey.encode = .ok ek →
        (ek = dk.ek ↔ (PublicKey.mlKem .mlKem768 ek).same sk.publicKey = true) := by
  intro P scheme dk sk sk'
  have hscheme : scheme ∈ shipped P := mem_shipped.2 (.inl ⟨.mlKem768, rfl⟩)
  have hderived : MLKEM.DecapsulationKey.fromSeed P.toHashes .mlKem768 (Bytes.zeros 64).toList = .ok dk :=
    MLKEM.DecapsulationKey.fromSeed_eq_ok_iff.2 ⟨Bytes.zeros 64, rfl, rfl⟩
  have hread := (MLKEM.DecapsulationKey.Obtained.derived _ hderived).ofBytes_toBytes
  have hsk : sk.Reachable P := .mlKemDerived hderived
  have hsk' : sk'.Reachable P := .mlKemRead hread
  have hsame : sk.same sk' = true := PrivateKey.same_iff.2 ⟨rfl, rfl⟩
  obtain ⟨hpublic, hprivate, htyped⟩ := equal_keys_agree P
  obtain ⟨hdecapsulate, hpk⟩ := hprivate sk sk' hsk hsk' hsame
  exact ⟨bind_eq_ok_iff.2 ⟨_, hread, rfl⟩, rfl, hsame, hdecapsulate scheme hscheme, hpk,
    hpublic _ _ (.ofPrivate hsk) (.ofPrivate hsk') hpk scheme hscheme,
    fun ek hek => htyped .mlKem768 ek dk.ek (.mlKemRead hek) (.ofPrivate hsk)⟩

end PostQuantum.Kem
