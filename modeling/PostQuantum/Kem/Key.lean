/-
Keys of any mechanism of the library.

A key knows the scheme it belongs to, so an operation can refuse the key of another. Two keys are equal when they
belong to the same scheme and have the same encoding (`PublicKey.same`, `PrivateKey.same`).
-/
import PostQuantum.XWing

namespace PostQuantum.Kem

open MLKEM (ParameterSet)

/-- the length of everything that a toy scheme reads and writes -/
abbrev toySize : Nat := 16

inductive PublicKey
  | mlKem (p : ParameterSet) (key : MLKEM.EncapsulationKey p)
  | xWing (key : XWing.EncapsulationKey)
  | toy (scheme : String) (key : Bytes toySize)

inductive PrivateKey
  | mlKem (p : ParameterSet) (key : MLKEM.DecapsulationKey p)
  | xWing (key : XWing.DecapsulationKey)
  | toy (scheme : String) (key : Bytes toySize)

/-- how a toy key is shown -/
def toyKeyText (scheme : String) (key : Bytes toySize) : String :=
  "ToyKey(" ++ Text.quoted scheme ++ ", [" ++ ", ".intercalate (key.toList.map fun b => toString b.toNat) ++ "])"

namespace PublicKey

/-- the name of the scheme that the key belongs to -/
def schemeName : PublicKey → String
  | mlKem p _ => p.name
  | xWing _ => XWing.name
  | toy scheme _ => scheme

def encode : PublicKey → List UInt8
  | mlKem _ key => key.toBytes.toList
  | xWing key => key.toBytes.toList
  | toy _ key => key.toList

def text : PublicKey → String
  | mlKem _ key => key.text
  | xWing key => key.text
  | toy scheme key => toyKeyText scheme key

/-- the key as one of ML-KEM with parameters `p` -/
def asMlKem (p : ParameterSet) : PublicKey → Except Error (MLKEM.EncapsulationKey p)
  | mlKem q key => if h : q = p then .ok (h ▸ key) else .error .typeMismatch
  | _ => .error .typeMismatch

/-- the key as one of X-Wing -/
def asXWing : PublicKey → Except Error XWing.EncapsulationKey
  | xWing key => .ok key
  | _ => .error .typeMismatch

/-- the key as one of the toy scheme called `scheme` -/
def asToy (scheme : String) : PublicKey → Except Error (Bytes toySize)
  | toy owner key => if owner = scheme then .ok key else .error .typeMismatch
  | _ => .error .typeMismatch

/-- same scheme and same encoding -/
def same (a b : PublicKey) : Bool := a.schemeName == b.schemeName && a.encode == b.encode

end PublicKey

namespace PrivateKey

/-- the name of the scheme that the key belongs to -/
def schemeName : PrivateKey → String
  | mlKem p _ => p.name
  | xWing _ => XWing.name
  | toy scheme _ => scheme

def encode : PrivateKey → List UInt8
  | mlKem _ key => key.toBytes.toList
  | xWing key => key.toBytes.toList
  | toy _ key => key.toList

def text : PrivateKey → String
  | mlKem _ key => key.text
  | xWing key => key.text
  | toy scheme key => toyKeyText scheme key

/-- the key as one of ML-KEM with parameters `p` -/
def asMlKem (p : ParameterSet) : PrivateKey → Except Error (MLKEM.DecapsulationKey p)
  | mlKem q key => if h : q = p then .ok (h ▸ key) else .error .typeMismatch
  | _ => .error .typeMismatch

/-- the key as one of X-Wing -/
def asXWing : PrivateKey → Except Error XWing.DecapsulationKey
  | xWing key => .ok key
  | _ => .error .typeMismatch

/-- the key as one of the toy scheme called `scheme` -/
def asToy (scheme : String) : PrivateKey → Except Error (Bytes toySize)
  | toy owner key => if owner = scheme then .ok key else .error .typeMismatch
  | _ => .error .typeMismatch

/-- the matching public key -/
def publicKey : PrivateKey → PublicKey
  | mlKem p key => .mlKem p key.ek
  | xWing key => .xWing key.ek
  | toy scheme key => .toy scheme key

/-- same scheme and same encoding -/
def same (a b : PrivateKey) : Bool := a.schemeName == b.schemeName && a.encode == b.encode

end PrivateKey

@[simp] theorem PublicKey.asMlKem_mlKem (p : ParameterSet) (key : MLKEM.EncapsulationKey p) :
    PublicKey.asMlKem p (.mlKem p key) = .ok key := by
  simp [PublicKey.asMlKem]

@[simp] theorem PrivateKey.asMlKem_mlKem (p : ParameterSet) (key : MLKEM.DecapsulationKey p) :
    PrivateKey.asMlKem p (.mlKem p key) = .ok key := by
  simp [PrivateKey.asMlKem]

end PostQuantum.Kem
