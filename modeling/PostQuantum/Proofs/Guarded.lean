/-
Errors beside steps that may leave their range.

A program answers a result or an error, and it has no answer at all if a step of it leaves its range: an index, a cut or
a copy, or arithmetic that loses a bit. `Guarded` keeps the two apart.
- `step_bind`, `ok_bind`, `call_bind`: a program goes on from a step that is in range, and from what another program
  answers.
- `throw_unless`: it goes on under a condition.
- `checkLength_bind`: behind a check of its length a string is one of that length.
-/
import Mathlib.Tactic
import PostQuantum.Bytes

namespace PostQuantum

/-- a program with errors in `ε`, steps of which may leave their range -/
abbrev Guarded (ε α : Type) := ExceptT ε Option α

namespace Guarded

open Bytes (sized sized_eq_ok_iff sized_eq_error_iff)

variable {ε α β : Type}

/-- the program that answers this, with no step out of range -/
def answer (x : Except ε α) : Guarded ε α := ExceptT.mk (some x)

/-- nothing if the lengths agree, else the error that tells both -/
def checkLength (expected : ℕ) (badLength : ℕ → ℕ → ε) (actual : ℕ) : Guarded ε Unit :=
  if expected = actual then pure () else throw (badLength expected actual)

/-- a program goes on from a step in range -/
theorem step_bind {x? : Option α} {x : α} {rest : α → Guarded ε β} {result : Guarded ε β} (hx : x? = some x)
    (hrest : rest x = result) : ((liftM x? : Guarded ε α) >>= rest) = result := by
  subst hx
  exact hrest

/-- a program goes on from a call that answers a result -/
theorem ok_bind {call : Guarded ε α} {a : α} {rest : α → Guarded ε β} {result : Guarded ε β}
    (hcall : call = answer (.ok a)) (hrest : rest a = result) : (call >>= rest) = result := by
  subst hcall
  exact hrest

/-- a step in range is an answer -/
theorem step_eq {x? : Option α} {x : α} {y : Except ε α} (hx : x? = some x) (hy : .ok x = y) :
    (liftM x? : Guarded ε α) = answer y := by
  subst hx hy
  rfl

/-- a program goes on from the answer of another, or stops at its error -/
theorem call_bind {call : Guarded ε α} {x : Except ε α} {rest : α → Guarded ε β} {f : α → Except ε β}
    (hcall : call = answer x) (hrest : ∀ a, x = .ok a → rest a = answer (f a)) : (call >>= rest) = answer (x >>= f) := by
  subst hcall
  cases x with
  | ok a => exact hrest a rfl
  | error e => rfl

/-- a program that tells an error unless a condition holds -/
theorem throw_unless {c good : Prop} [Decidable c] [Decidable good] {e : ε} {rest : Guarded ε α} {x : Except ε α}
    (hc : c ↔ ¬good) (hrest : rest = answer x) : (if c then throw e else rest) = answer (if good then x else .error e) := by
  subst hrest
  by_cases h : good
  · rw [if_pos h, if_neg fun hc' => hc.1 hc' h]
  · rw [if_neg h, if_pos (hc.2 h)]
    rfl

/-- what has an answer anyway, as a part of a program -/
theorem lift_eq (x : Except ε α) : (liftM x : Guarded ε α) = answer x := rfl

/-- **Behind a check of its length** a string is one of that length. -/
theorem checkLength_bind {size : ℕ} {badLength : ℕ → ℕ → ε} {bytes : List UInt8} {rest : Guarded ε α}
    {f : Bytes size → Except ε α} (hrest : ∀ exact : Bytes size, exact.toList = bytes → rest = answer (f exact)) :
    (checkLength size badLength bytes.length >>= fun _ => rest) = answer (sized size badLength bytes >>= f) := by
  unfold checkLength
  by_cases hlength : size = bytes.length
  · obtain ⟨exact, rfl⟩ : ∃ exact : Bytes size, exact.toList = bytes := ⟨⟨bytes.toArray, hlength.symm⟩, rfl⟩
    rw [if_pos hlength, sized_eq_ok_iff.2 rfl]
    exact hrest exact rfl
  · rw [if_neg hlength, sized_eq_error_iff.2 ⟨Ne.symm hlength, rfl⟩]
    rfl

end Guarded

end PostQuantum
