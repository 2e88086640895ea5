/-
Sources of random bytes.

A source answers a request for n bytes with n bytes or with a failure, and goes on to another state either way. Callers
pass the state along, so what an operation drew shows in the state it returns.
-/
import PostQuantum.Bytes

namespace PostQuantum

/-- a source of random bytes with states in `σ` -/
structure Entropy (σ : Type) where
  draw : (n : Nat) → σ → Option (Bytes n) × σ

namespace Entropy

variable {σ : Type}

/-- one request for `n` bytes, then `use` on them; a failed request ends in `failure` -/
def drawThen {ε α : Type} (source : Entropy σ) (n : Nat) (failure : ε) (use : Bytes n → Except ε α) (s : σ) :
    Except ε α × σ :=
  match source.draw n s with
  | (some bytes, s) => (use bytes, s)
  | (none, s) => (.error failure, s)

/-- the source that hands out a list of bytes from its front; a request for more than are left takes none -/
def queue : Entropy (List UInt8) where
  draw n left := if n ≤ left.length then (some (Bytes.fit n left), left.drop n) else (none, left)

end Entropy

end PostQuantum
