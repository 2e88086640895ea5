/-
How the commands of a session are answered.

A command is answered by a value or refused. Where it draws random bytes the answer counts them, whether or not the
operation succeeded. A refused command leaves the store as it was (`settle_error`).
-/
namespace PostQuantum.Session

/-- why a command is refused; an operation fails with an error in `ε` -/
inductive Refusal (ε : Type)
  | failed (e : ε)
  /-- no scheme has the name -/
  | noScheme
  /-- no key is stored under the name -/
  | noKey
  /-- a byte expression has no value -/
  | noBytes

inductive Value
  | done
  | bytes (bs : List UInt8)
  | number (n : Nat)
  | flag (b : Bool)
  | text (s : String)
  /-- texts, then numbers, then flags -/
  | row (texts : List String) (numbers : List Nat) (flags : List Bool)
  /-- a ciphertext and the key that it hides -/
  | sent (ciphertext shared : List UInt8)
  | absent

inductive Answer (ε : Type)
  | value (v : Value)
  | refused (r : Refusal ε)
  /-- the answer of a command that drew `count` random bytes -/
  | drawn (result : Except ε Value) (count : Nat)

variable {ε α S : Type}

/-- the result of an operation, a failure of which refuses the command -/
def attempt (r : Except ε α) : Except (Refusal ε) α :=
  match r with
  | .ok a => .ok a
  | .error e => .error (.failed e)

/-- a stored or registered thing, or the refusal for want of it -/
def require (r : Refusal ε) (x : Option α) : Except (Refusal ε) α :=
  match x with
  | some a => .ok a
  | none => .error r

/-- the answer and the next store of a command, `store` being the one before it -/
def settle (store : S) (r : Except (Refusal ε) (Answer ε × S)) : Answer ε × S :=
  match r with
  | .ok next => next
  | .error e => (.refused e, store)

@[simp] theorem settle_ok (store : S) (next : Answer ε × S) : settle store (.ok next) = next := rfl

@[simp] theorem settle_error (store : S) (e : Refusal ε) : settle store (.error e) = (.refused e, store) := rfl

/-- the answer of an operation that took `supply` and left `left` of it; `keep` says what to answer and to store -/
def drawing (store : S) (supply : List UInt8) (outcome : Except ε α × List UInt8) (keep : α → Value × S) :
    Answer ε × S :=
  let count := supply.length - outcome.2.length
  match outcome.1 with
  | .ok a => (.drawn (.ok (keep a).1) count, (keep a).2)
  | .error e => (.drawn (.error e) count, store)

end PostQuantum.Session
