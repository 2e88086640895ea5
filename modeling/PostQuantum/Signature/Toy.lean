/-
Toy signature schemes.

A toy scheme folds context and message into the public key byte by byte; anyone can forge its tags, and it serves to
exercise what is common to all schemes. Keys name the scheme they belong to, whether or not it takes contexts. Alien
keys belong to no toy scheme.
-/
import PostQuantum.Signature.Scheme

namespace PostQuantum.Signature

open Bytes (sized)

/-- the length of everything that a toy scheme reads and writes -/
abbrev toySize : Nat := 16

inductive PublicKey
  | toy (scheme : String) (key : Bytes toySize)
  | alien

inductive PrivateKey
  | toy (scheme : String) (key : Bytes toySize)
  | alien

/-- the name that alien keys give for their scheme -/
def alienName : String := "Alien"

/-- the public half of a private toy key -/
def toyPublic (key : Bytes toySize) : Bytes toySize := key.map (· ^^^ 0x5a)

namespace PublicKey

def schemeName : PublicKey → String
  | toy scheme _ => scheme
  | alien => alienName

def encode : PublicKey → List UInt8
  | toy _ key => key.toList
  | alien => []

/-- the key as one of the toy scheme called `scheme` -/
def asToy (scheme : String) : PublicKey → Except Error (Bytes toySize)
  | toy owner key => if owner = scheme then .ok key else .error .typeMismatch
  | alien => .error .typeMismatch

/-- same scheme and same encoding -/
def same (a b : PublicKey) : Bool := a.schemeName == b.schemeName && a.encode == b.encode

end PublicKey

namespace PrivateKey

def schemeName : PrivateKey → String
  | toy scheme _ => scheme
  | alien => alienName

def encode : PrivateKey → List UInt8
  | toy _ key => key.toList
  | alien => []

/-- the key as one of the toy scheme called `scheme` -/
def asToy (scheme : String) : PrivateKey → Except Error (Bytes toySize)
  | toy owner key => if owner = scheme then .ok key else .error .typeMismatch
  | alien => .error .typeMismatch

/-- the matching public key -/
def publicKey : PrivateKey → PublicKey
  | toy scheme key => .toy scheme (toyPublic key)
  | alien => .alien

/-- same scheme and same encoding -/
def same (a b : PrivateKey) : Bool := a.schemeName == b.schemeName && a.encode == b.encode

end PrivateKey

/-- a byte with its bits moved up by three, those that leave at the top coming back at the bottom -/
def turn (b : UInt8) : UInt8 := (b <<< 3) ||| (b >>> 5)

/-- fold bytes into the tag, the first of them at `position` -/
def foldTag (tag : Bytes toySize) (position : Nat) : List UInt8 → Bytes toySize
  | [] => tag
  | b :: rest =>
    have _ : position % 16 < toySize := Nat.mod_lt _ (by decide)
    foldTag (tag.set (position % 16) (turn tag[position % 16] ^^^ b)) (position + 1) rest

/-- the tag of a message with its context: the length of the context, the context and the message folded in -/
def toyTag (key : Bytes toySize) (message context : List UInt8) : Bytes toySize :=
  foldTag key 0 (UInt8.ofNat context.length :: (context ++ message))

/-- a context is empty, or the scheme takes one -/
def checkContext (takesContext : Bool) (options : Options) : Except Error Unit :=
  if options.context.isEmpty || takesContext then .ok () else .error .contextNotSupported

/-- the schemes of the library -/
abbrev AnyScheme := Scheme PublicKey PrivateKey

/-- the toy scheme called `name` -/
def toy (name : String) (takesContext : Bool) : AnyScheme where
  name := name
  publicKeySize := toySize
  privateKeySize := toySize
  signatureSize := toySize
  seedSize := toySize
  takesContext := takesContext
  deriveKey seed := do
    let key ← sized toySize .badSeedLength seed
    .ok (.toy name (toyPublic key), .toy name key)
  sign sk message options := do
    checkContext takesContext options
    let key ← sk.asToy name
    .ok (toyTag (toyPublic key) message options.context).toList
  verify pk message signature options := do
    checkContext takesContext options
    let key ← pk.asToy name
    if signature = (toyTag key message options.context).toList then .ok () else .error .invalidSignature
  readPublicKey bytes := do
    let key ← sized toySize .badKeyLength bytes
    if key = Bytes.zeros toySize then .error .invalidPublicKey else .ok (.toy name key)
  readPrivateKey bytes := do
    let key ← sized toySize .badKeyLength bytes
    .ok (.toy name key)

end PostQuantum.Signature
