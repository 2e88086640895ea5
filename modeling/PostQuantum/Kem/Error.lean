/-
What can go wrong with a key encapsulation mechanism.
-/
import PostQuantum.Text.Quoted

namespace PostQuantum.Kem

inductive Error
  /-- the seed of a deterministic operation has another length -/
  | badSeedLength (expected actual : Nat)
  /-- an encoded key has another length -/
  | badKeyLength (expected actual : Nat)
  /-- a ciphertext has another length -/
  | badCiphertextLength (expected actual : Nat)
  /-- the key belongs to another scheme -/
  | typeMismatch
  /-- the encoding of a public key has the right length but is malformed -/
  | invalidPublicKey
  /-- the encoding of a private key has the right length but is malformed or contradicts itself -/
  | invalidPrivateKey
  /-- the source of random bytes failed -/
  | entropyUnavailable
  /-- two schemes were registered under one name -/
  | duplicateScheme (name : String)
  deriving DecidableEq, Repr

namespace Error

def message : Error → String
  | badSeedLength expected actual => s!"Invalid seed length: expected {expected}, got {actual}"
  | badKeyLength expected actual => s!"Invalid key length: expected {expected}, got {actual}"
  | badCiphertextLength expected actual => s!"Invalid ciphertext length: expected {expected}, got {actual}"
  | typeMismatch => "Key does not belong to this scheme"
  | invalidPublicKey => "Invalid public key"
  | invalidPrivateKey => "Invalid private key"
  | entropyUnavailable => "Entropy source failed"
  | duplicateScheme name => "Scheme registered twice: " ++ name

/-- the kind of error, in one word -/
def kind : Error → String
  | badSeedLength .. => "BadSeedLength"
  | badKeyLength .. => "BadKeyLength"
  | badCiphertextLength .. => "BadCiphertextLength"
  | typeMismatch => "TypeMismatch"
  | invalidPublicKey => "InvalidPublicKey"
  | invalidPrivateKey => "InvalidPrivateKey"
  | entropyUnavailable => "EntropyUnavailable"
  | duplicateScheme _ => "DuplicateScheme"

/-- the kind with the values that belong to it -/
def text (e : Error) : String :=
  match e with
  | badSeedLength expected actual
  | badKeyLength expected actual
  | badCiphertextLength expected actual => e.kind ++ s!" \x7b expected: {expected}, actual: {actual} \x7d"
  | duplicateScheme name => e.kind ++ " \x7b name: " ++ Text.quoted name ++ " \x7d"
  | _ => e.kind

end Error

end PostQuantum.Kem
