/-
What the operations draw from a source of random bytes.

Keys are generated and shared keys encapsulated in two ways: by a scheme, for keys of any type, and by functions on the
keys of one type. Both ask the source once, for the seed size that the scheme tells, before they look at anything else
(`DrawsOnce`), so the two give the same results and leave every source in the same state (`Agrees`).
- `DrawsOnce.of_drawThen`: an operation that is one request and what it makes of the bytes.
- `DrawsOnce.map_eq`: two that ask for as many bytes and make the same of them.
- `mlKem_agrees`, `xWing_agrees`: the schemes and their typed functions.
- `randomised_paths_agree`: the four real schemes, and the key generation of every signature scheme.
A source is any function of the length and its state. `Entropy.recorded` keeps a record of the requests made of one.
-/
import Mathlib.Tactic
import PostQuantum.Proofs.Kem.Contract
import PostQuantum.Signature.Scheme

namespace PostQuantum

/-! ## One request -/

/-- a source that also keeps the lengths of the requests made of it, the last one at the end -/
def Entropy.recorded {σ : Type} (source : Entropy σ) : Entropy (σ × List ℕ) where
  draw n s := ((source.draw n s.1).1, (source.draw n s.1).2, s.2 ++ [n])

theorem Entropy.queue_draw_of_le (n : ℕ) (left : List UInt8) (h : n ≤ left.length) :
    queue.draw n left = (some (Bytes.fit n left), left.drop n) := if_pos h

theorem Entropy.queue_draw_of_lt (n : ℕ) (left : List UInt8) (h : left.length < n) :
    queue.draw n left = (none, left) := if_neg h.not_ge

section Requests

variable {ε α β : Type} {n : ℕ} {failure : ε} {run : (σ : Type) → Entropy σ → σ → Except ε α × σ}
  {run' : (σ : Type) → Entropy σ → σ → Except ε β × σ} {use : Bytes n → Except ε α} {use' : Bytes n → Except ε β}

/-- `run` asks its source for `n` bytes, once, and gives what `use` makes of them; if it gets none, it fails with
`failure`, and the source is left in the state that the request left it in -/
structure DrawsOnce (run : (σ : Type) → Entropy σ → σ → Except ε α × σ) (n : ℕ) (failure : ε)
    (use : Bytes n → Except ε α) : Prop where
  drawn : ∀ {σ : Type} (source : Entropy σ) (s s' : σ) (bytes : Bytes n),
    source.draw n s = (some bytes, s') → run σ source s = (use bytes, s')
  failed : ∀ {σ : Type} (source : Entropy σ) (s s' : σ),
    source.draw n s = (none, s') → run σ source s = (.error failure, s')
  /-- keeping a record changes nothing, and the record shows the one request -/
  recorded : ∀ {σ : Type} (source : Entropy σ) (s : σ) (log : List ℕ),
    run (σ × List ℕ) source.recorded (s, log) =
      ((run σ source s).1, (run σ source s).2, log ++ [n])

theorem DrawsOnce.of_drawThen (hrun : ∀ σ source s, run σ source s = source.drawThen n failure use s) :
    DrawsOnce run n failure use where
  drawn source s s' bytes hdraw := by
    rw [hrun, Entropy.drawThen, hdraw]
  failed source s s' hdraw := by
    rw [hrun, Entropy.drawThen, hdraw]
  recorded source s log := by
    have hdraw : source.recorded.draw n (s, log) = ((source.draw n s).1, (source.draw n s).2, log ++ [n]) := rfl
    rw [hrun, hrun, Entropy.drawThen, Entropy.drawThen, hdraw]
    rcases source.draw n s with ⟨_ | bytes, s'⟩
    · rfl
    · rfl

/-- what is drawn may be used in another way that comes to the same -/
theorem DrawsOnce.congr {use₁ use₂ : Bytes n → Except ε α} (h : DrawsOnce run n failure use₁)
    (huse : ∀ bytes, use₁ bytes = use₂ bytes) : DrawsOnce run n failure use₂ := by
  rwa [← funext huse]

/-- **The same request with the same use.** Two operations that ask for as many bytes give results that correspond if
their uses do, and leave the source in the same state. -/
theorem DrawsOnce.map_eq {f : β → α} (h : DrawsOnce run n failure use) (h' : DrawsOnce run' n failure use')
    (huse : ∀ bytes, use bytes = (use' bytes).map f) {σ : Type} (source : Entropy σ) (s : σ) :
    run σ source s = Prod.map (Except.map f) id (run' σ source s) := by
  rcases hdraw : source.draw n s with ⟨_ | bytes, s'⟩
  · rw [h.failed source s s' hdraw, h'.failed source s s' hdraw]
    rfl
  · rw [h.drawn source s s' bytes hdraw, h'.drawn source s s' bytes hdraw, huse]
    rfl

end Requests

namespace Signature

/-- a signature scheme draws one seed for a key pair -/
theorem Scheme.generateKey_drawsOnce {PK SK : Type} (scheme : Scheme PK SK) :
    DrawsOnce (fun _ => scheme.generateKey) scheme.seedSize .entropyUnavailable
      (fun seed => scheme.deriveKey seed.toList) :=
  .of_drawThen fun _ _ _ => rfl

end Signature

namespace Kem

open Bytes (sized sized_eq_ok_iff)
open MLKEM (ParameterSet)

/-! ## Schemes and their typed functions -/

theorem Scheme.generateKey_drawsOnce {PK SK : Type} (scheme : Scheme PK SK) :
    DrawsOnce (fun _ => scheme.generateKey) scheme.seedSize .entropyUnavailable
      (fun seed => scheme.deriveKey seed.toList) :=
  .of_drawThen fun _ _ _ => rfl

/-- the seed is drawn before the key is looked at -/
theorem Scheme.encapsulate_drawsOnce {PK SK : Type} (scheme : Scheme PK SK) (pk : PK) :
    DrawsOnce (fun _ => scheme.encapsulate pk) scheme.encapsulationSeedSize .entropyUnavailable
      (fun seed => scheme.encapsulateWith pk seed.toList) :=
  .of_drawThen fun _ _ _ => rfl

/-- the functions of a scheme on keys of its own types, and what the scheme makes of their results -/
structure Typed (scheme : AnyScheme) where
  PK : Type
  SK : Type
  Result : Type
  fromSeed : List UInt8 → Except Error SK
  generate : (σ : Type) → Entropy σ → σ → Except Error SK × σ
  encapsulateWith : PK → Bytes scheme.encapsulationSeedSize → Result
  encapsulate : PK → (σ : Type) → Entropy σ → σ → Except Error Result × σ
  wrap : PK → PublicKey
  pair : SK → PublicKey × PrivateKey
  bytes : Result → List UInt8 × List UInt8

/-- a scheme and its typed functions draw the same bytes and make the same of them -/
structure Agrees (scheme : AnyScheme) (typed : Typed scheme) : Prop where
  /-- every seed of the right length has a key pair, which is the same in both ways -/
  deriveKey : ∀ seed : Bytes scheme.seedSize, ∃ sk,
    typed.fromSeed seed.toList = .ok sk ∧ scheme.deriveKey seed.toList = .ok (typed.pair sk)
  generateKey_drawsOnce : DrawsOnce (fun _ => scheme.generateKey) scheme.seedSize .entropyUnavailable
    (fun seed => scheme.deriveKey seed.toList)
  generate_drawsOnce : DrawsOnce typed.generate scheme.seedSize .entropyUnavailable
    (fun seed => typed.fromSeed seed.toList)
  generateKey_eq : ∀ {σ : Type} (source : Entropy σ) (s : σ),
    scheme.generateKey source s = Prod.map (Except.map typed.pair) id (typed.generate σ source s)
  /-- for every key of the scheme, a seed of the right length gives the same in both ways -/
  encapsulateWith : ∀ ek seed,
    scheme.encapsulateWith (typed.wrap ek) seed.toList = .ok (typed.bytes (typed.encapsulateWith ek seed))
  encapsulate_drawsOnce : ∀ pk, DrawsOnce (fun _ => scheme.encapsulate pk) scheme.encapsulationSeedSize
    .entropyUnavailable (fun seed => scheme.encapsulateWith pk seed.toList)
  typed_encapsulate_drawsOnce : ∀ ek, DrawsOnce (typed.encapsulate ek) scheme.encapsulationSeedSize
    .entropyUnavailable (fun seed => .ok (typed.encapsulateWith ek seed))
  encapsulate_eq : ∀ ek {σ : Type} (source : Entropy σ) (s : σ),
    scheme.encapsulate (typed.wrap ek) source s =
      Prod.map (Except.map typed.bytes) id (typed.encapsulate ek σ source s)
  /-- a key of another scheme is refused after the seed was drawn -/
  foreign : ∀ pk, (∀ ek, typed.wrap ek ≠ pk) →
    DrawsOnce (fun _ => scheme.encapsulate pk) scheme.encapsulationSeedSize .entropyUnavailable
      (fun _ => .error .typeMismatch)

section Agreement

variable {scheme : AnyScheme} {typed : Typed scheme} {Owns : PublicKey → Prop} {OwnsPrivate : PrivateKey → Prop}

/-- a scheme that keeps to its sizes agrees with typed functions that make one request and use it in the same way -/
theorem Contract.agrees (h : Contract scheme Owns OwnsPrivate) (howns : ∀ pk, Owns pk → ∃ ek, typed.wrap ek = pk)
    (hgenerate : ∀ σ source s, typed.generate σ source s =
      source.drawThen scheme.seedSize .entropyUnavailable (fun seed => typed.fromSeed seed.toList) s)
    (hencapsulate : ∀ ek σ source s, typed.encapsulate ek σ source s =
      source.drawThen scheme.encapsulationSeedSize .entropyUnavailable
        (fun seed => .ok (typed.encapsulateWith ek seed)) s)
    (hderive : ∀ seed : Bytes scheme.seedSize,
      scheme.deriveKey seed.toList = (typed.fromSeed seed.toList).map typed.pair)
    (hwith : ∀ ek seed,
      scheme.encapsulateWith (typed.wrap ek) seed.toList = .ok (typed.bytes (typed.encapsulateWith ek seed))) :
    Agrees scheme typed := by
  have hgenerateOnce := DrawsOnce.of_drawThen hgenerate
  have hencapsulateOnce := fun ek => DrawsOnce.of_drawThen (hencapsulate ek)
  refine
    { deriveKey := fun seed => ?_
      generateKey_drawsOnce := scheme.generateKey_drawsOnce
      generate_drawsOnce := hgenerateOnce
      generateKey_eq := fun source s => scheme.generateKey_drawsOnce.map_eq hgenerateOnce hderive source s
      encapsulateWith := hwith
      encapsulate_drawsOnce := scheme.encapsulate_drawsOnce
      typed_encapsulate_drawsOnce := hencapsulateOnce
      encapsulate_eq := fun ek _ source s =>
        (scheme.encapsulate_drawsOnce (typed.wrap ek)).map_eq (hencapsulateOnce ek) (hwith ek) source s
      foreign := fun pk hpk => ?_ }
  · obtain ⟨pair, hpair⟩ := (h.deriveKey.ok_iff seed.toList).2 ⟨Vector.length_toList .., fun _ => not_false⟩
    rw [hderive] at hpair
    rw [hderive]
    cases hseed : typed.fromSeed seed.toList with
    | ok sk => exact ⟨sk, rfl, rfl⟩
    | error e =>
      rw [hseed] at hpair
      cases hpair
  · have hforeign : ¬Owns pk := fun hown => by
      obtain ⟨ek, hek⟩ := howns pk hown
      exact hpk ek hek
    refine (scheme.encapsulate_drawsOnce pk).congr fun seed => ?_
    exact ((h.encapsulateWith pk).error_iff _ _).2 (.inr ⟨Vector.length_toList .., hforeign, rfl⟩)

end Agreement

/-! ## The real schemes -/

/-- the functions on the keys of ML-KEM with parameters `p` -/
def typedMlKem (H : MLKEM.Hashes) (p : ParameterSet) : Typed (mlKem H p) where
  PK := MLKEM.EncapsulationKey p
  SK := MLKEM.DecapsulationKey p
  Result := Bytes p.ciphertextSize × Bytes 32
  fromSeed := MLKEM.DecapsulationKey.fromSeed H p
  generate _ := MLKEM.DecapsulationKey.generate H p
  encapsulateWith := MLKEM.EncapsulationKey.encapsulateWith H
  encapsulate ek _ := ek.encapsulate H
  wrap := .mlKem p
  pair dk := (.mlKem p dk.ek, .mlKem p dk)
  bytes result := (result.1.toList, result.2.toList)

/-- the functions on the keys of X-Wing -/
def typedXWing (P : XWing.Primitives) : Typed (xWing P) where
  PK := XWing.EncapsulationKey
  SK := XWing.DecapsulationKey
  Result := Bytes XWing.ciphertextSize × Bytes 32
  fromSeed := XWing.DecapsulationKey.fromSeed P
  generate _ := XWing.DecapsulationKey.generate P
  encapsulateWith := XWing.EncapsulationKey.encapsulateWith P
  encapsulate ek _ := ek.encapsulate P
  wrap := .xWing
  pair dk := (.xWing dk.ek, .xWing dk)
  bytes result := (result.1.toList, result.2.toList)

/-- a key of ML-KEM passes both checks of its scheme -/
theorem mlKem_encapsulateWith (H : MLKEM.Hashes) (p : ParameterSet) (ek : MLKEM.EncapsulationKey p) (m : Bytes 32) :
    (mlKem H p).encapsulateWith (.mlKem p ek) m.toList = .ok ((typedMlKem H p).bytes (ek.encapsulateWith H m)) := by
  have hseed : sized 32 Error.badSeedLength m.toList = .ok m := sized_eq_ok_iff.2 rfl
  simp only [mlKem, hseed, PublicKey.asMlKem_mlKem]
  rfl

theorem xWing_encapsulateWith (P : XWing.Primitives) (ek : XWing.EncapsulationKey) (randomness : Bytes 64) :
    (xWing P).encapsulateWith (.xWing ek) randomness.toList =
      .ok ((typedXWing P).bytes (ek.encapsulateWith P randomness)) := by
  have hseed : sized 64 Error.badSeedLength randomness.toList = .ok randomness := sized_eq_ok_iff.2 rfl
  simp only [xWing, hseed]
  rfl

/-- **ML-KEM draws the same both ways.** -/
theorem mlKem_agrees (H : MLKEM.Hashes) (p : ParameterSet) : Agrees (mlKem H p) (typedMlKem H p) := by
  refine (mlKem_contract H p).agrees ?_ (fun _ _ _ => rfl) (fun _ _ _ _ => rfl) (fun _ => rfl)
    (mlKem_encapsulateWith H p)
  rintro _ ⟨ek, rfl⟩
  exact ⟨ek, rfl⟩

/-- **X-Wing draws the same both ways.** -/
theorem xWing_agrees (P : XWing.Primitives) : Agrees (xWing P) (typedXWing P) := by
  refine (xWing_contract P).agrees ?_ (fun _ _ _ => rfl) (fun _ _ _ _ => rfl) (fun _ => rfl) (xWing_encapsulateWith P)
  rintro _ ⟨ek, rfl⟩
  exact ⟨ek, rfl⟩

/-- **Randomised operations.** For each of the four real schemes, generating a key asks the source once, for a seed of
the size that the scheme tells, and gives the key pair that the scheme derives from it; encapsulating does likewise,
also for a key of another type, which is refused only then. The typed functions do the same, so what they return and
the state that they leave the source in agree with the scheme. If the source fails, so does the operation, whatever the
key. Every signature scheme generates its keys in this way. -/
theorem randomised_paths_agree (P : XWing.Primitives) :
    shipped P = [mlKem P.toHashes .mlKem512, mlKem P.toHashes .mlKem768, mlKem P.toHashes .mlKem1024, xWing P] ∧
    (∀ p, Agrees (mlKem P.toHashes p) (typedMlKem P.toHashes p)) ∧
    Agrees (xWing P) (typedXWing P) ∧
    ∀ (PK SK : Type) (scheme : Signature.Scheme PK SK),
      DrawsOnce (fun _ => scheme.generateKey) scheme.seedSize .entropyUnavailable
        (fun seed => scheme.deriveKey seed.toList) := by
  refine ⟨rfl, mlKem_agrees P.toHashes, xWing_agrees P, ?_⟩
  intro PK SK scheme
  exact scheme.generateKey_drawsOnce

/-- a key of another scheme costs 32 of 40 bytes before it is refused, and an exhausted source is told instead -/
theorem randomised_paths_agree_foreign :
    let scheme := mlKem XWing.Primitives.standard.toHashes .mlKem768
    let pk : PublicKey := .toy "Toy" (Bytes.zeros toySize)
    scheme.encapsulate pk Entropy.queue (List.replicate 40 7) = (.error .typeMismatch, List.replicate 8 7) ∧
      scheme.encapsulate pk Entropy.queue [7] = (.error .entropyUnavailable, [7]) := by
  intro scheme pk
  obtain ⟨-, hmlKem, -⟩ := randomised_paths_agree XWing.Primitives.standard
  have honce := (hmlKem .mlKem768).foreign pk fun ek => nofun
  have hdrawn := Entropy.queue_draw_of_le 32 (List.replicate 40 7) (by decide)
  have hfailed := Entropy.queue_draw_of_lt 32 [7] (by decide)
  exact ⟨honce.drawn _ _ _ _ hdrawn, honce.failed _ _ _ hfailed⟩

end Kem

end PostQuantum
