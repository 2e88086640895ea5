/-
Signature schemes with fixed parameters, seen from outside.

As with key encapsulation, a `Scheme` has a name, lengths and deterministic operations, and key generation draws one
seed of the declared length. A signature may be bound to a context; a scheme that takes none refuses any context but
the empty one.
-/
import PostQuantum.Entropy
import PostQuantum.Signature.Error

namespace PostQuantum.Signature

variable {PK SK σ : Type}

/-- what may be given to signing and verifying beside the message -/
structure Options where
  /-- bound into the signature -/
  context : List UInt8 := []
  deriving DecidableEq

def Options.text (o : Options) : String :=
  "SignatureOpts \x7b context: [" ++ ", ".intercalate (o.context.map fun b => toString b.toNat) ++ "] \x7d"

/-- a scheme with public keys in `PK` and private keys in `SK` -/
structure Scheme (PK SK : Type) where
  name : String
  publicKeySize : Nat
  privateKeySize : Nat
  signatureSize : Nat
  seedSize : Nat
  /-- contexts may be other than empty -/
  takesContext : Bool := false
  /-- the key pair of a seed -/
  deriveKey : List UInt8 → Except Error (PK × SK)
  sign : SK → (message : List UInt8) → Options → Except Error (List UInt8)
  verify : PK → (message signature : List UInt8) → Options → Except Error Unit
  readPublicKey : List UInt8 → Except Error PK
  readPrivateKey : List UInt8 → Except Error SK

namespace Scheme

/-- the key pair of a seed drawn from `source` -/
def generateKey (scheme : Scheme PK SK) (source : Entropy σ) (s : σ) : Except Error (PK × SK) × σ :=
  source.drawThen scheme.seedSize .entropyUnavailable (fun seed => scheme.deriveKey seed.toList) s

def text (scheme : Scheme PK SK) : String := "Scheme(" ++ Text.quoted scheme.name ++ ")"

end Scheme

end PostQuantum.Signature
