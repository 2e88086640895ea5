/-
What a reader of byte strings accepts.

A reader looks at the length of a string first and answers a wrong one with both lengths. Of the strings of the right
length it accepts some, and it calls the others malformed.
- `bind_eq_ok_iff`, `bind_eq_error_iff`, `sized_bind_eq_ok_iff`: when a reader that works in steps succeeds and when it
  fails, and when one succeeds that only checks a length.
- `Accepts`: which strings a reader accepts, and what it answers to the others (`Accepts.error_iff`).
- `Accepts.of_sized`: a reader that checks the length on its own is judged by what it does with strings of that length.
-/
import Mathlib.Tactic
import PostQuantum.Bytes

namespace PostQuantum

open Bytes (sized sized_eq_ok_iff sized_eq_error_iff)

variable {α ε : Type} {read : List UInt8 → Except ε α} {size : ℕ} {Fits : List UInt8 → Prop}
  {badLength : ℕ → ℕ → ε} {malformed : ε} {bytes : List UInt8}

/-! ## Steps -/

/-- two steps succeed exactly if the first does and the second does on its result -/
theorem bind_eq_ok_iff {β : Type} {x : Except ε α} {f : α → Except ε β} {b : β} :
    (x >>= f) = .ok b ↔ ∃ a, x = .ok a ∧ f a = .ok b := by
  cases x with
  | error e => simp [bind, Except.bind]
  | ok a => simp [bind, Except.bind]

/-- two steps fail exactly if the first does, or the second does on its result -/
theorem bind_eq_error_iff {β : Type} {x : Except ε α} {f : α → Except ε β} {e : ε} :
    (x >>= f) = .error e ↔ x = .error e ∨ ∃ a, x = .ok a ∧ f a = .error e := by
  cases x with
  | error e => simp [bind, Except.bind]
  | ok a => simp [bind, Except.bind]

/-- a check of the length and nothing after it that fails -/
theorem sized_bind_eq_ok_iff {f : Bytes size → α} {a : α} :
    (do let v ← sized size badLength bytes; .ok (f v)) = .ok a ↔ ∃ v : Bytes size, v.toList = bytes ∧ f v = a := by
  rw [bind_eq_ok_iff]
  simp only [sized_eq_ok_iff, Except.ok.injEq]

/-! ## Acceptance -/

/-- `read` accepts the strings of `size` bytes with `Fits`, and every other string has one answer -/
structure Accepts (read : List UInt8 → Except ε α) (size : ℕ) (Fits : List UInt8 → Prop) (badLength : ℕ → ℕ → ε)
    (malformed : ε) : Prop where
  badLength_iff : ∀ bytes, read bytes = .error (badLength size bytes.length) ↔ bytes.length ≠ size
  ok_iff : ∀ bytes, (∃ key, read bytes = .ok key) ↔ bytes.length = size ∧ Fits bytes
  malformed_iff : ∀ bytes, read bytes = .error malformed ↔ bytes.length = size ∧ ¬Fits bytes

/-- a reader that has only to decide on strings of the right length -/
theorem Accepts.of_sized {rest : Bytes size → Except ε α}
    (hread : ∀ bytes, read bytes = sized size badLength bytes >>= rest)
    (hdiffer : ∀ expected actual, badLength expected actual ≠ malformed)
    (hfits : ∀ encoding : Bytes size, Fits encoding.toList → ∃ key, rest encoding = .ok key)
    (hmalformed : ∀ encoding : Bytes size, ¬Fits encoding.toList → rest encoding = .error malformed) :
    Accepts read size Fits badLength malformed := by
  have hlong : ∀ bytes : List UInt8, bytes.length ≠ size → read bytes = .error (badLength size bytes.length) := by
    intro bytes h
    rw [hread, sized_eq_error_iff.2 ⟨h, rfl⟩]
    rfl
  have hsized : ∀ encoding : Bytes size, read encoding.toList = rest encoding := by
    intro encoding
    rw [hread, sized_eq_ok_iff.2 rfl]
    rfl
  -- a string of another length, one that fits and one that does not
  have hcases : ∀ bytes : List UInt8,
      (bytes.length ≠ size ∧ read bytes = .error (badLength size bytes.length)) ∨
      (bytes.length = size ∧ Fits bytes ∧ ∃ key, read bytes = .ok key) ∨
      (bytes.length = size ∧ ¬Fits bytes ∧ read bytes = .error malformed) := by
    intro bytes
    by_cases h : bytes.length = size
    · obtain ⟨encoding, rfl⟩ : ∃ encoding : Bytes size, encoding.toList = bytes := ⟨⟨bytes.toArray, h⟩, rfl⟩
      rw [hsized]
      by_cases hf : Fits encoding.toList
      · exact .inr (.inl ⟨h, hf, hfits encoding hf⟩)
      · exact .inr (.inr ⟨h, hf, hmalformed encoding hf⟩)
    · exact .inl ⟨h, hlong bytes h⟩
  constructor
  case badLength_iff =>
    intro bytes
    obtain ⟨hlen, h⟩ | ⟨hlen, -, key, h⟩ | ⟨hlen, -, h⟩ := hcases bytes
    · exact iff_of_true h hlen
    · exact iff_of_false (by rw [h]; exact nofun) (not_not.2 hlen)
    · refine iff_of_false (fun hbad => ?_) (not_not.2 hlen)
      exact hdiffer _ _ (Except.error.inj (hbad.symm.trans h))
  case ok_iff =>
    intro bytes
    obtain ⟨hlen, h⟩ | ⟨hlen, hf, key, h⟩ | ⟨hlen, hf, h⟩ := hcases bytes
    · exact iff_of_false (by simp only [h, reduceCtorEq, exists_false, not_false_iff]) fun hgood => hlen hgood.1
    · exact iff_of_true ⟨key, h⟩ ⟨hlen, hf⟩
    · exact iff_of_false (by simp only [h, reduceCtorEq, exists_false, not_false_iff]) fun hgood => hf hgood.2
  case malformed_iff =>
    intro bytes
    obtain ⟨hlen, h⟩ | ⟨hlen, hf, key, h⟩ | ⟨hlen, hf, h⟩ := hcases bytes
    · refine iff_of_false (fun hbad => ?_) fun hgood => hlen hgood.1
      exact hdiffer _ _ (Except.error.inj (h.symm.trans hbad))
    · exact iff_of_false (by rw [h]; exact nofun) fun hgood => hgood.2 hf
    · exact iff_of_true h ⟨hlen, hf⟩

/-- a string of the right length that is not accepted is malformed -/
theorem Accepts.eq_malformed (h : Accepts read size Fits badLength malformed) (hlength : bytes.length = size)
    (hrefused : ¬∃ key, read bytes = .ok key) : read bytes = .error malformed :=
  (h.malformed_iff bytes).2 ⟨hlength, fun hf => hrefused ((h.ok_iff bytes).2 ⟨hlength, hf⟩)⟩

/-- a reader has two errors -/
theorem Accepts.error_iff (h : Accepts read size Fits badLength malformed) {e : ε} :
    read bytes = .error e ↔
      (bytes.length ≠ size ∧ e = badLength size bytes.length) ∨ (bytes.length = size ∧ ¬Fits bytes ∧ e = malformed) := by
  constructor
  · intro herror
    by_cases hlength : bytes.length = size
    · have hfits : ¬Fits bytes := by
        intro hfits
        obtain ⟨key, hok⟩ := (h.ok_iff bytes).2 ⟨hlength, hfits⟩
        exact absurd (herror.symm.trans hok) nofun
      exact .inr ⟨hlength, hfits, Except.error.inj (herror.symm.trans ((h.malformed_iff bytes).2 ⟨hlength, hfits⟩))⟩
    · exact .inl ⟨hlength, Except.error.inj (herror.symm.trans ((h.badLength_iff bytes).2 hlength))⟩
  · rintro (⟨hlength, rfl⟩ | ⟨hlength, hfits, rfl⟩)
    · exact (h.badLength_iff bytes).2 hlength
    · exact (h.malformed_iff bytes).2 ⟨hlength, hfits⟩

end PostQuantum
