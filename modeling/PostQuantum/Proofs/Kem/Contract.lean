/-
The sizes and the errors of the schemes.

Every operation on a byte string looks at the length first and answers a wrong one with the length that it wanted and
the one that it found. Of the strings of the right length it refuses some, with errors that depend on the operation,
and takes the others (`Answers`). A scheme keeps to its sizes if its operations are such and what they give has the
sizes that the scheme tells (`Contract`).
- `Answers.of_sized`, `Answers.of_owned`, `Answers.of_accepts`: an operation that checks the length on its own, one that
  checks the key next, and one that wraps a reader.
- `Contract.generateKey_error_iff`, `Contract.encapsulate_error_iff`: what can go wrong with random bytes.
- `mlKem_contract`, `xWing_contract`: the schemes, each with the keys of its own type.
- `shipped_sizes`: the sizes that the four real schemes tell, as numbers.
- `size_and_error_contract`: the four real schemes.
-/
import Mathlib.Tactic
import PostQuantum.Proofs.Kem.Provenance

namespace PostQuantum.Kem

open Bytes (sized sized_eq_ok_iff sized_eq_error_iff)
open MLKEM (ParameterSet)

variable {α : Type} {scheme : AnyScheme}

/-! ## Operations on byte strings -/

/-- `run` answers a string that is not of `size` bytes with both lengths, it refuses one of `size` bytes with the errors
that `Refusal` gives for it, it takes every other, and what it makes of that is `Good` -/
structure Answers (run : List UInt8 → Except Error α) (size : ℕ) (badLength : ℕ → ℕ → Error)
    (Refusal : List UInt8 → Error → Prop) (Good : α → Prop) : Prop where
  error_iff : ∀ input e, run input = .error e ↔
    (input.length ≠ size ∧ e = badLength size input.length) ∨ (input.length = size ∧ Refusal input e)
  ok_iff : ∀ input, (∃ result, run input = .ok result) ↔ input.length = size ∧ ∀ e, ¬Refusal input e
  good : ∀ input result, run input = .ok result → Good result

section Answers

variable {β : Type} {run : List UInt8 → Except Error α} {size : ℕ} {badLength : ℕ → ℕ → Error}
  {Refusal : List UInt8 → Error → Prop} {Good : α → Prop}

/-- what is not refused is taken -/
theorem Answers.of_error_iff
    (herror : ∀ input e, run input = .error e ↔
      (input.length ≠ size ∧ e = badLength size input.length) ∨ (input.length = size ∧ Refusal input e))
    (hgood : ∀ input result, run input = .ok result → Good result) : Answers run size badLength Refusal Good := by
  refine ⟨herror, fun input => ?_, hgood⟩
  constructor
  · rintro ⟨result, hok⟩
    have hnone : ∀ e, run input ≠ .error e := by
      intro e
      rw [hok]
      exact nofun
    by_cases hlength : input.length = size
    · exact ⟨hlength, fun e he => hnone e ((herror input e).2 (.inr ⟨hlength, he⟩))⟩
    · exact absurd ((herror input _).2 (.inl ⟨hlength, rfl⟩)) (hnone _)
  · rintro ⟨hlength, hrefusal⟩
    cases hrun : run input with
    | ok result => exact ⟨result, rfl⟩
    | error e =>
      rcases (herror input e).1 hrun with ⟨hne, -⟩ | ⟨-, he⟩
      · exact absurd hlength hne
      · exact absurd he (hrefusal e)

/-- an operation that has only to decide on strings of the right length -/
theorem Answers.of_sized {rest : Bytes size → Except Error α}
    (hrun : ∀ input, run input = sized size badLength input >>= rest)
    (hrest : ∀ exact e, rest exact = .error e ↔ Refusal exact.toList e)
    (hgood : ∀ exact result, rest exact = .ok result → Good result) : Answers run size badLength Refusal Good := by
  apply Answers.of_error_iff
  · intro input e
    rw [hrun, bind_eq_error_iff, sized_eq_error_iff]
    refine or_congr_right ?_
    simp only [sized_eq_ok_iff, hrest]
    constructor
    · rintro ⟨exact, rfl, h⟩
      exact ⟨Vector.length_toList .., h⟩
    · rintro ⟨hlength, h⟩
      exact ⟨⟨input.toArray, hlength⟩, rfl, h⟩
  · intro input result hok
    rw [hrun] at hok
    obtain ⟨exact, -, hok⟩ := bind_eq_ok_iff.1 hok
    exact hgood exact result hok

/-- an operation that checks the length, then the key, and does not fail after that -/
theorem Answers.of_owned {key : Except Error β} {Owned : Prop} {use : Bytes size → β → α}
    (hkey : ∀ e, key = .error e ↔ ¬Owned ∧ e = .typeMismatch) (hgood : ∀ exact k, Good (use exact k)) :
    Answers (fun input => sized size badLength input >>= fun exact => key >>= fun k => .ok (use exact k)) size badLength
      (fun _ e => ¬Owned ∧ e = .typeMismatch) Good := by
  apply Answers.of_sized (fun _ => rfl)
  · intro exact e
    simp [bind_eq_error_iff, hkey]
  · intro exact result hok
    obtain ⟨k, -, hok⟩ := bind_eq_ok_iff.1 hok
    cases hok
    exact hgood exact k

/-- an operation that wraps what a reader reads -/
theorem Answers.of_accepts {read : List UInt8 → Except Error β} {Fits : List UInt8 → Prop} {malformed : Error}
    {wrap : β → α} (h : Accepts read size Fits badLength malformed) (hgood : ∀ key, Good (wrap key)) :
    Answers (fun bytes => read bytes >>= fun key => .ok (wrap key)) size badLength
      (fun bytes e => ¬Fits bytes ∧ e = malformed) Good := by
  apply Answers.of_error_iff
  · intro bytes e
    rw [bind_eq_error_iff, h.error_iff]
    simp
  · intro bytes result hok
    obtain ⟨key, -, hok⟩ := bind_eq_ok_iff.1 hok
    cases hok
    exact hgood key

end Answers

/-! ## Schemes -/

/-- a scheme keeps to its sizes and errors; the public keys of its type are those with `Owns`, the private ones those
with `OwnsPrivate` -/
structure Contract (scheme : AnyScheme) (Owns : PublicKey → Prop) (OwnsPrivate : PrivateKey → Prop) : Prop where
  deriveKey : Answers scheme.deriveKey scheme.seedSize .badSeedLength (fun _ _ => False)
    (fun pair => Owns pair.1 ∧ OwnsPrivate pair.2)
  encapsulateWith : ∀ pk, Answers (scheme.encapsulateWith pk) scheme.encapsulationSeedSize .badSeedLength
    (fun _ e => ¬Owns pk ∧ e = .typeMismatch)
    (fun result => result.1.length = scheme.ciphertextSize ∧ result.2.length = scheme.sharedKeySize)
  decapsulate : ∀ sk, Answers (scheme.decapsulate sk) scheme.ciphertextSize .badCiphertextLength
    (fun _ e => ¬OwnsPrivate sk ∧ e = .typeMismatch) (fun shared => shared.length = scheme.sharedKeySize)
  readPublicKey : ∃ Malformed : List UInt8 → Prop,
    Answers scheme.readPublicKey scheme.publicKeySize .badKeyLength
      (fun bytes e => Malformed bytes ∧ e = .invalidPublicKey) Owns
  readPrivateKey : ∃ Malformed : List UInt8 → Prop,
    Answers scheme.readPrivateKey scheme.privateKeySize .badKeyLength
      (fun bytes e => Malformed bytes ∧ e = .invalidPrivateKey) OwnsPrivate
  publicKey : ∀ sk, OwnsPrivate sk → Owns sk.publicKey
  encode_publicKey : ∀ pk, Owns pk → pk.encode.length = scheme.publicKeySize
  encode_privateKey : ∀ sk, OwnsPrivate sk → sk.encode.length = scheme.privateKeySize

/-! ## Random bytes -/

section Random

variable {σ : Type} {Owns : PublicKey → Prop} {OwnsPrivate : PrivateKey → Prop} {source : Entropy σ} {s s' : σ}

theorem drawThen_eq_error_iff {n : ℕ} {failure e : Error} {use : Bytes n → Except Error α} :
    source.drawThen n failure use s = (.error e, s') ↔
      (source.draw n s = (none, s') ∧ e = failure) ∨ ∃ bytes, source.draw n s = (some bytes, s') ∧ use bytes = .error e := by
  unfold Entropy.drawThen
  rcases source.draw n s with ⟨_ | bytes, t⟩
  · simp [and_comm, eq_comm]
  · simp [and_comm]

/-- a key pair is generated unless the source of random bytes fails -/
theorem Contract.generateKey_error_iff (h : Contract scheme Owns OwnsPrivate) {e : Error} :
    scheme.generateKey source s = (.error e, s') ↔
      source.draw scheme.seedSize s = (none, s') ∧ e = .entropyUnavailable := by
  unfold Scheme.generateKey
  rw [drawThen_eq_error_iff]
  simp [h.deriveKey.error_iff]

/-- an encapsulation fails if the source of random bytes does, and for a key of another type -/
theorem Contract.encapsulate_error_iff (h : Contract scheme Owns OwnsPrivate) {pk : PublicKey} {e : Error} :
    scheme.encapsulate pk source s = (.error e, s') ↔
      (source.draw scheme.encapsulationSeedSize s = (none, s') ∧ e = .entropyUnavailable) ∨
      ((∃ seed, source.draw scheme.encapsulationSeedSize s = (some seed, s')) ∧ ¬Owns pk ∧ e = .typeMismatch) := by
  unfold Scheme.encapsulate
  rw [drawThen_eq_error_iff]
  simp [(h.encapsulateWith pk).error_iff]

theorem Contract.owns_of_generateKey (h : Contract scheme Owns OwnsPrivate) {pk : PublicKey} {sk : PrivateKey}
    (hok : scheme.generateKey source s = (.ok (pk, sk), s')) : Owns pk ∧ OwnsPrivate sk := by
  obtain ⟨seed, hseed⟩ := exists_of_drawThen hok
  exact h.deriveKey.good _ _ hseed

theorem Contract.sizes_of_encapsulate (h : Contract scheme Owns OwnsPrivate) {pk : PublicKey} {ct ss : List UInt8}
    (hok : scheme.encapsulate pk source s = (.ok (ct, ss), s')) :
    ct.length = scheme.ciphertextSize ∧ ss.length = scheme.sharedKeySize := by
  obtain ⟨seed, hseed⟩ := exists_of_drawThen hok
  exact (h.encapsulateWith pk).good _ _ hseed

end Random

/-! ## ML-KEM -/

section MlKem

variable {p : ParameterSet}

/-- a public key of ML-KEM with parameters `p` -/
def PublicKey.IsMlKem (p : ParameterSet) (pk : PublicKey) : Prop := ∃ ek, pk = .mlKem p ek

/-- a private key of ML-KEM with parameters `p` -/
def PrivateKey.IsMlKem (p : ParameterSet) (sk : PrivateKey) : Prop := ∃ dk, sk = .mlKem p dk

theorem PublicKey.asMlKem_eq_error_iff {pk : PublicKey} {e : Error} :
    pk.asMlKem p = .error e ↔ ¬pk.IsMlKem p ∧ e = .typeMismatch := by
  cases pk with
  | mlKem q ek =>
    by_cases hq : q = p
    · subst hq
      simp [PublicKey.IsMlKem]
    · simp [PublicKey.IsMlKem, PublicKey.asMlKem, hq, Ne.symm hq, eq_comm]
  | xWing ek => simp [PublicKey.IsMlKem, PublicKey.asMlKem, eq_comm]
  | toy scheme key => simp [PublicKey.IsMlKem, PublicKey.asMlKem, eq_comm]

theorem PrivateKey.asMlKem_eq_error_iff {sk : PrivateKey} {e : Error} :
    sk.asMlKem p = .error e ↔ ¬sk.IsMlKem p ∧ e = .typeMismatch := by
  cases sk with
  | mlKem q dk =>
    by_cases hq : q = p
    · subst hq
      simp [PrivateKey.IsMlKem]
    · simp [PrivateKey.IsMlKem, PrivateKey.asMlKem, hq, Ne.symm hq, eq_comm]
  | xWing dk => simp [PrivateKey.IsMlKem, PrivateKey.asMlKem, eq_comm]
  | toy scheme key => simp [PrivateKey.IsMlKem, PrivateKey.asMlKem, eq_comm]

/-- **ML-KEM keeps to its sizes and errors.** -/
theorem mlKem_contract (H : MLKEM.Hashes) (p : ParameterSet) :
    Contract (mlKem H p) (PublicKey.IsMlKem p) (PrivateKey.IsMlKem p) where
  deriveKey := by
    apply Answers.of_sized (fun _ => bind_assoc ..)
    · simp [bind, Except.bind]
    · rintro exact _ ⟨⟩
      exact ⟨⟨_, rfl⟩, ⟨_, rfl⟩⟩
  encapsulateWith pk := by
    apply Answers.of_owned (fun _ => PublicKey.asMlKem_eq_error_iff)
    intro m ek
    exact ⟨Vector.length_toList .., Vector.length_toList ..⟩
  decapsulate sk := by
    apply Answers.of_owned (fun _ => PrivateKey.asMlKem_eq_error_iff)
    intro c dk
    exact Vector.length_toList ..
  readPublicKey := ⟨_, Answers.of_accepts (MLKEM.EncapsulationKey.accepts H p) fun ek => ⟨ek, rfl⟩⟩
  readPrivateKey := ⟨_, Answers.of_accepts (MLKEM.DecapsulationKey.accepts H p) fun dk => ⟨dk, rfl⟩⟩
  publicKey := by
    rintro _ ⟨dk, rfl⟩
    exact ⟨dk.ek, rfl⟩
  encode_publicKey := by
    rintro _ ⟨ek, rfl⟩
    exact Vector.length_toList ..
  encode_privateKey := by
    rintro _ ⟨dk, rfl⟩
    exact Vector.length_toList ..

end MlKem

/-! ## X-Wing -/

/-- a public key of X-Wing -/
def PublicKey.IsXWing (pk : PublicKey) : Prop := ∃ ek, pk = .xWing ek

/-- a private key of X-Wing -/
def PrivateKey.IsXWing (sk : PrivateKey) : Prop := ∃ dk, sk = .xWing dk

theorem PublicKey.asXWing_eq_error_iff {pk : PublicKey} {e : Error} :
    pk.asXWing = .error e ↔ ¬pk.IsXWing ∧ e = .typeMismatch := by
  cases pk <;> simp [PublicKey.IsXWing, PublicKey.asXWing, eq_comm]

theorem PrivateKey.asXWing_eq_error_iff {sk : PrivateKey} {e : Error} :
    sk.asXWing = .error e ↔ ¬sk.IsXWing ∧ e = .typeMismatch := by
  cases sk <;> simp [PrivateKey.IsXWing, PrivateKey.asXWing, eq_comm]

/-- any string as long as a private key is one -/
theorem xWing_readPrivateKey (P : XWing.Primitives) :
    Answers (xWing P).readPrivateKey (xWing P).privateKeySize .badKeyLength (fun _ _ => False) PrivateKey.IsXWing := by
  apply Answers.of_sized (fun _ => bind_assoc ..)
  · simp [bind, Except.bind]
  · rintro seed _ ⟨⟩
    exact ⟨_, rfl⟩

/-- **X-Wing keeps to its sizes and errors.** The ML-KEM half of a key is read only if the whole has the right length,
so the half has it too. -/
theorem xWing_contract (P : XWing.Primitives) : Contract (xWing P) PublicKey.IsXWing PrivateKey.IsXWing where
  deriveKey := by
    apply Answers.of_sized (fun _ => bind_assoc ..)
    · simp [bind, Except.bind]
    · rintro seed _ ⟨⟩
      exact ⟨⟨_, rfl⟩, ⟨_, rfl⟩⟩
  encapsulateWith pk := by
    apply Answers.of_owned (fun _ => PublicKey.asXWing_eq_error_iff)
    intro randomness ek
    exact ⟨Vector.length_toList .., Vector.length_toList ..⟩
  decapsulate sk := by
    apply Answers.of_owned (fun _ => PrivateKey.asXWing_eq_error_iff)
    intro c dk
    exact Vector.length_toList ..
  readPublicKey := ⟨_, Answers.of_accepts (XWing.EncapsulationKey.accepts P) fun ek => ⟨ek, rfl⟩⟩
  readPrivateKey := ⟨fun _ => False, by simpa only [false_and] using xWing_readPrivateKey P⟩
  publicKey := by
    rintro _ ⟨dk, rfl⟩
    exact ⟨dk.ek, rfl⟩
  encode_publicKey := by
    rintro _ ⟨ek, rfl⟩
    exact Vector.length_toList ..
  encode_privateKey := by
    rintro _ ⟨dk, rfl⟩
    exact Vector.length_toList ..

/-! ## The real schemes -/

/-- the sizes of a scheme: its keys, its ciphertexts, its shared keys, and its two seeds -/
def sizes (scheme : AnyScheme) : List ℕ :=
  [scheme.publicKeySize, scheme.privateKeySize, scheme.ciphertextSize, scheme.sharedKeySize, scheme.seedSize,
    scheme.encapsulationSeedSize]

/-- **The sizes as numbers**, whatever the functions that the schemes are built on. -/
theorem shipped_sizes (P : XWing.Primitives) :
    (shipped P).map (fun scheme => (scheme.name, sizes scheme)) =
      [("ML-KEM-512", [800, 1632, 768, 32, 64, 32]),
        ("ML-KEM-768", [1184, 2400, 1088, 32, 64, 32]),
        ("ML-KEM-1024", [1568, 3168, 1568, 32, 64, 32]),
        ("X-Wing", [1216, 32, 1120, 32, 32, 64])] := rfl

/-- **The contract of the schemes.** Each of the four real schemes derives a key pair from every seed of its own length,
encapsulates for every public key of its own type and decapsulates with every private key of its own type; a wrong
length is told before a wrong type, always with the length that the scheme tells, and there is no other error. Reading a
key fails for its length or as a malformed key, and for a private key of X-Wing only for its length. All that is made
has the sizes that the scheme tells. -/
theorem size_and_error_contract (P : XWing.Primitives) :
    shipped P = [mlKem P.toHashes .mlKem512, mlKem P.toHashes .mlKem768, mlKem P.toHashes .mlKem1024, xWing P] ∧
    (∀ p, Contract (mlKem P.toHashes p) (PublicKey.IsMlKem p) (PrivateKey.IsMlKem p)) ∧
    Contract (xWing P) PublicKey.IsXWing PrivateKey.IsXWing ∧
    Answers (xWing P).readPrivateKey (xWing P).privateKeySize .badKeyLength (fun _ _ => False) PrivateKey.IsXWing := by
  refine ⟨rfl, ?_, xWing_contract P, xWing_readPrivateKey P⟩
  intro p
  exact mlKem_contract P.toHashes p

end PostQuantum.Kem
