/-
What a session keeps: public keys, private keys and byte strings by name, in three tables of their own.
-/
import PostQuantum.Session.Answer
import PostQuantum.Session.ByteExpr
import PostQuantum.Session.Names

namespace PostQuantum.Session

/-- the tables of a session with public keys in `PK` and private keys in `SK` -/
structure Store (PK SK : Type) where
  publicKeys : Names PK := {}
  privateKeys : Names SK := {}
  bytes : Names (List UInt8) := {}

namespace Store

variable {PK SK ε : Type}

/-- the public key under a name -/
def publicKey (s : Store PK SK) (name : String) : Except (Refusal ε) PK := require .noKey (s.publicKeys.get? name)

/-- the private key under a name -/
def privateKey (s : Store PK SK) (name : String) : Except (Refusal ε) SK := require .noKey (s.privateKeys.get? name)

/-- the value of a byte expression -/
def value (s : Store PK SK) (e : ByteExpr) : Except (Refusal ε) (List UInt8) := require .noBytes (e.eval s.bytes.get?)

def putPublicKey (s : Store PK SK) (name : String) (pk : PK) : Store PK SK :=
  { s with publicKeys := s.publicKeys.put name pk }

def putPrivateKey (s : Store PK SK) (name : String) (sk : SK) : Store PK SK :=
  { s with privateKeys := s.privateKeys.put name sk }

/-- keep both keys of a pair under one name -/
def putPair (s : Store PK SK) (name : String) (pair : PK × SK) : Store PK SK :=
  (s.putPublicKey name pair.1).putPrivateKey name pair.2

def putBytes (s : Store PK SK) (name : String) (bytes : List UInt8) : Store PK SK :=
  { s with bytes := s.bytes.put name bytes }

end Store

end PostQuantum.Session
