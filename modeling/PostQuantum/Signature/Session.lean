/-
Sessions with signature schemes.

As with key encapsulation, a command asks for its scheme first, then for its key, then for its bytes. A signature is
kept like any byte string.
-/
import PostQuantum.Session.Store
import PostQuantum.Signature.Toy

namespace PostQuantum.Signature.Session

open PostQuantum.Session

abbrev Store := PostQuantum.Session.Store PublicKey PrivateKey

/-- without a context, signing and verifying use the options that are given by default -/
inductive Command
  | sizes (scheme : String)
  | schemeText (scheme : String)
  | options (context : Option ByteExpr)
  | deriveKey (scheme : String) (seed : ByteExpr) (target : String)
  | generateKey (scheme : String) (supply : ByteExpr) (target : String)
  | sign (scheme sk : String) (message : ByteExpr) (context : Option ByteExpr) (target : String)
  | verify (scheme pk : String) (message signature : ByteExpr) (context : Option ByteExpr)
  | encodePublicKey (key target : String)
  | encodePrivateKey (key target : String)
  | readPublicKey (scheme : String) (encoding : ByteExpr) (target : String)
  | readPrivateKey (scheme : String) (encoding : ByteExpr) (target : String)
  | publicKey (sk target : String)
  | samePublicKey (a b : String)
  | samePrivateKey (a b : String)
  | keySchemes (key : String)
  | alienKey (target : String)

abbrev Outcome (α : Type) := Except (Refusal Error) α

/-- `ctx:NAME` is the toy scheme called NAME that takes contexts, `plain:NAME` the one that takes none -/
def scheme? (name : String) : Option AnyScheme :=
  match name.toList with
  | 'c' :: 't' :: 'x' :: ':' :: rest => some (toy (String.ofList rest) true)
  | 'p' :: 'l' :: 'a' :: 'i' :: 'n' :: ':' :: rest => some (toy (String.ofList rest) false)
  | _ => none

/-- the options with the value of a context, or those given by default -/
def optionsOf (s : Store) : Option ByteExpr → Outcome Options
  | none => .ok {}
  | some e => do .ok ⟨← s.value e⟩

/-- answer with bytes and keep them -/
def answerBytes (s : Store) (name : String) (bytes : List UInt8) : Answer Error × Store :=
  (.value (.bytes bytes), s.putBytes name bytes)

/-- run a command, unless it is refused -/
def run (s : Store) : Command → Outcome (Answer Error × Store)
  | .sizes name => do
    let scheme ← require .noScheme (scheme? name)
    let sizes := [scheme.publicKeySize, scheme.privateKeySize, scheme.signatureSize, scheme.seedSize]
    .ok (.value (.row [scheme.name] sizes [scheme.takesContext]), s)
  | .schemeText name => do
    let scheme ← require .noScheme (scheme? name)
    .ok (.value (.text scheme.text), s)
  | .options context => do
    let options ← optionsOf s context
    .ok (.value (.row [options.text] [] [options = {}]), s)
  | .deriveKey name seed target => do
    let scheme ← require .noScheme (scheme? name)
    let pair ← attempt (scheme.deriveKey (← s.value seed))
    .ok (.value .done, s.putPair target pair)
  | .generateKey name supply target => do
    let scheme ← require .noScheme (scheme? name)
    let supply ← s.value supply
    .ok (drawing s supply (scheme.generateKey Entropy.queue supply) fun pair => (.done, s.putPair target pair))
  | .sign name sk message context target => do
    let scheme ← require .noScheme (scheme? name)
    let sk ← s.privateKey sk
    let message ← s.value message
    let options ← optionsOf s context
    let signature ← attempt (scheme.sign sk message options)
    .ok (answerBytes s target signature)
  | .verify name pk message signature context => do
    let scheme ← require .noScheme (scheme? name)
    let pk ← s.publicKey pk
    let message ← s.value message
    let signature ← s.value signature
    let options ← optionsOf s context
    attempt (scheme.verify pk message signature options)
    .ok (.value .done, s)
  | .encodePublicKey key target => do
    let pk ← s.publicKey key
    .ok (answerBytes s target pk.encode)
  | .encodePrivateKey key target => do
    let sk ← s.privateKey key
    .ok (answerBytes s target sk.encode)
  | .readPublicKey name encoding target => do
    let scheme ← require .noScheme (scheme? name)
    let pk ← attempt (scheme.readPublicKey (← s.value encoding))
    .ok (.value .done, s.putPublicKey target pk)
  | .readPrivateKey name encoding target => do
    let scheme ← require .noScheme (scheme? name)
    let sk ← attempt (scheme.readPrivateKey (← s.value encoding))
    .ok (.value .done, s.putPrivateKey target sk)
  | .publicKey sk target => do
    let sk ← s.privateKey sk
    .ok (.value .done, s.putPublicKey target sk.publicKey)
  | .samePublicKey a b => do
    let a ← s.publicKey a
    let b ← s.publicKey b
    .ok (.value (.flag (a.same b)), s)
  | .samePrivateKey a b => do
    let a ← s.privateKey a
    let b ← s.privateKey b
    .ok (.value (.flag (a.same b)), s)
  | .keySchemes key => do
    let pk ← s.publicKey key
    let sk ← s.privateKey key
    .ok (.value (.row [pk.schemeName, sk.schemeName] [] []), s)
  | .alienKey target => .ok (.value .done, s.putPair target (.alien, .alien))

/-- run a command; a refused one changes nothing -/
def step (s : Store) (c : Command) : Answer Error × Store :=
  settle s (run s c)

end PostQuantum.Signature.Session
