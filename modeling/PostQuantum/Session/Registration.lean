/-
Filling a registry by name.

Schemes are looked up and registered one by one, so the first name that is unknown or taken ends the filling.
-/
import PostQuantum.Registry
import PostQuantum.Session.Answer

namespace PostQuantum.Session

open Registry (Builder)

variable {α ε : Type}

/-- register the schemes that `find` knows by the given names, `nameOf` being the name they are registered under -/
def registerNamed (find : String → Option α) (nameOf : α → String) (taken : String → ε) :
    Builder α → List String → Except (Refusal ε) (Builder α)
  | builder, [] => .ok builder
  | builder, name :: names => do
    let scheme ← require .noScheme (find name)
    let builder ← attempt (builder.register nameOf taken scheme)
    registerNamed find nameOf taken builder names

end PostQuantum.Session
