/-
Sessions with key encapsulation mechanisms.

A session runs commands one after the other on a store of keys and byte strings. A command asks for its scheme first,
then for its keys, then for its bytes. Commands for the schemes in general work on keys of any kind; those for ML-KEM
with given parameters and for X-Wing refuse the keys of others.
-/
import PostQuantum.Kem.Schemes
import PostQuantum.Session.Store

namespace PostQuantum.Kem.Session

open MLKEM (ParameterSet)
open PostQuantum.Session

abbrev Store := PostQuantum.Session.Store PublicKey PrivateKey

inductive Command
  | sizes (scheme : String)
  | schemeText (scheme : String)
  | parameters (p : ParameterSet)
  | deriveKey (scheme : String) (seed : ByteExpr) (target : String)
  | generateKey (scheme : String) (supply : ByteExpr) (target : String)
  | encapsulateWith (scheme pk : String) (seed : ByteExpr) (target : String)
  | encapsulate (scheme pk : String) (supply : ByteExpr) (target : String)
  | decapsulate (scheme sk : String) (ciphertext : ByteExpr)
  /-- a quiet answer gives the length alone -/
  | encodePublicKey (key target : String) (quiet : Bool)
  | encodePrivateKey (key target : String) (quiet : Bool)
  | readPublicKey (scheme : String) (encoding : ByteExpr) (target : String)
  | readPrivateKey (scheme : String) (encoding : ByteExpr) (target : String)
  | publicKey (sk target : String)
  | samePublicKey (a b : String)
  | samePrivateKey (a b : String)
  | keyTexts (key : String)
  | keySchemes (key : String)
  | mlKemGenerate (p : ParameterSet) (supply : ByteExpr) (target : String)
  | mlKemRead (p : ParameterSet) (encoding : ByteExpr) (target : String)
  | mlKemSeed (p : ParameterSet) (sk : String)
  | mlKemEncapsulate (p : ParameterSet) (pk : String) (supply : ByteExpr) (target : String)
  | mlKemDecapsulate (p : ParameterSet) (sk : String) (ciphertext : ByteExpr)
  | mlKemSame (p : ParameterSet) (a b : String)
  | xWingGenerate (supply : ByteExpr) (target : String)
  | xWingEncapsulate (pk : String) (supply : ByteExpr) (target : String)
  | xWingDecapsulate (sk : String) (ciphertext : ByteExpr)
  | xWingSame (a b : String)

abbrev Outcome (α : Type) := Except (Refusal Error) α

/-- `toy:NAME` is the toy scheme called NAME; other names are those of real schemes -/
def scheme? (P : XWing.Primitives) (name : String) : Option AnyScheme :=
  match name.toList with
  | 't' :: 'o' :: 'y' :: ':' :: rest => some (toy (String.ofList rest))
  | _ => byName P name

/-- answer with an encoding, or its length, and keep it -/
def putEncoding (s : Store) (name : String) (encoding : List UInt8) (quiet : Bool) : Answer Error × Store :=
  (.value (if quiet then .number encoding.length else .bytes encoding), s.putBytes name encoding)

/-- answer with a ciphertext and its key, and keep both under the name with an ending -/
def putSent (s : Store) (name : String) (sent : List UInt8 × List UInt8) : Value × Store :=
  (.sent sent.1 sent.2, (s.putBytes (name ++ ".ct") sent.1).putBytes (name ++ ".ss") sent.2)

/-- a ciphertext and its shared key as lists -/
def sentLists {m n : Nat} (sent : Bytes m × Bytes n) : List UInt8 × List UInt8 := (sent.1.toList, sent.2.toList)

/-- the key pair of a private key -/
def pairOf (sk : PrivateKey) : PublicKey × PrivateKey := (sk.publicKey, sk)

/-- run a command, unless it is refused -/
def run (P : XWing.Primitives) (s : Store) : Command → Outcome (Answer Error × Store)
  | .sizes name => do
    let scheme ← require .noScheme (scheme? P name)
    let sizes := [scheme.publicKeySize, scheme.privateKeySize, scheme.ciphertextSize, scheme.sharedKeySize,
      scheme.seedSize, scheme.encapsulationSeedSize]
    .ok (.value (.row [scheme.name] sizes []), s)
  | .schemeText name => do
    let scheme ← require .noScheme (scheme? P name)
    .ok (.value (.text scheme.text), s)
  | .parameters p =>
    let sizes := [p.vectorSize, p.decryptionKeySize, p.encapsulationKeySize, p.decapsulationKeySize, p.uSize,
      p.ciphertextSize]
    .ok (.value (.row [p.name, p.text] sizes []), s)
  | .deriveKey name seed target => do
    let scheme ← require .noScheme (scheme? P name)
    let pair ← attempt (scheme.deriveKey (← s.value seed))
    .ok (.value .done, s.putPair target pair)
  | .generateKey name supply target => do
    let scheme ← require .noScheme (scheme? P name)
    let supply ← s.value supply
    .ok (drawing s supply (scheme.generateKey Entropy.queue supply) fun pair => (.done, s.putPair target pair))
  | .encapsulateWith name pk seed target => do
    let scheme ← require .noScheme (scheme? P name)
    let pk ← s.publicKey pk
    let sent ← attempt (scheme.encapsulateWith pk (← s.value seed))
    let (value, s) := putSent s target sent
    .ok (.value value, s)
  | .encapsulate name pk supply target => do
    let scheme ← require .noScheme (scheme? P name)
    let pk ← s.publicKey pk
    let supply ← s.value supply
    .ok (drawing s supply (scheme.encapsulate pk Entropy.queue supply) (putSent s target))
  | .decapsulate name sk ciphertext => do
    let scheme ← require .noScheme (scheme? P name)
    let sk ← s.privateKey sk
    let shared ← attempt (scheme.decapsulate sk (← s.value ciphertext))
    .ok (.value (.bytes shared), s)
  | .encodePublicKey key target quiet => do
    let pk ← s.publicKey key
    .ok (putEncoding s target pk.encode quiet)
  | .encodePrivateKey key target quiet => do
    let sk ← s.privateKey key
    .ok (putEncoding s target sk.encode quiet)
  | .readPublicKey name encoding target => do
    let scheme ← require .noScheme (scheme? P name)
    let pk ← attempt (scheme.readPublicKey (← s.value encoding))
    .ok (.value .done, s.putPublicKey target pk)
  | .readPrivateKey name encoding target => do
    let scheme ← require .noScheme (scheme? P name)
    let sk ← attempt (scheme.readPrivateKey (← s.value encoding))
    .ok (.value .done, s.putPrivateKey target sk)
  | .publicKey sk target => do
    let sk ← s.privateKey sk
    .ok (.value .done, s.putPublicKey target sk.publicKey)
  | .samePublicKey a b => do
    let a ← s.publicKey a
    let b ← s.publicKey b
    .ok (.value (.flag (a.same b)), s)
  | .samePrivateKey a b => do
    let a ← s.privateKey a
    let b ← s.privateKey b
    .ok (.value (.flag (a.same b)), s)
  | .keyTexts key => do
    let pk ← s.publicKey key
    let sk ← s.privateKey key
    .ok (.value (.row [pk.text, sk.text] [] []), s)
  | .keySchemes key => do
    let pk ← s.publicKey key
    let sk ← s.privateKey key
    .ok (.value (.row [pk.schemeName, sk.schemeName] [] []), s)
  | .mlKemGenerate p supply target => do
    let supply ← s.value supply
    .ok (drawing s supply (MLKEM.DecapsulationKey.generate P.toHashes p Entropy.queue supply) fun dk =>
      (.done, s.putPair target (pairOf (.mlKem p dk))))
  | .mlKemRead p encoding target => do
    let dk ← attempt (MLKEM.DecapsulationKey.ofBytes P.toHashes p (← s.value encoding))
    .ok (.value .done, s.putPair target (pairOf (.mlKem p dk)))
  | .mlKemSeed p sk => do
    let sk ← s.privateKey sk
    let dk ← attempt (sk.asMlKem p)
    match dk.seed with
    | some seed => .ok (.value (.bytes seed.toList), s)
    | none => .ok (.value .absent, s)
  | .mlKemEncapsulate p pk supply target => do
    let pk ← s.publicKey pk
    let supply ← s.value supply
    match pk.asMlKem p with
    | .error e => .ok (.drawn (.error e) 0, s)
    | .ok ek =>
      .ok (drawing s supply (ek.encapsulate P.toHashes Entropy.queue supply) fun sent =>
        putSent s target (sentLists sent))
  | .mlKemDecapsulate p sk ciphertext => do
    let sk ← s.privateKey sk
    let ciphertext ← s.value ciphertext
    let dk ← attempt (sk.asMlKem p)
    let shared ← attempt (dk.decapsulate P.toHashes ciphertext)
    .ok (.value (.bytes shared.toList), s)
  | .mlKemSame p a b => do
    let a ← s.publicKey a
    let b ← s.publicKey b
    let a ← attempt (a.asMlKem p)
    let b ← attempt (b.asMlKem p)
    .ok (.value (.flag (a = b)), s)
  | .xWingGenerate supply target => do
    let supply ← s.value supply
    .ok (drawing s supply (XWing.DecapsulationKey.generate P Entropy.queue supply) fun dk =>
      (.bytes dk.toBytes.toList, s.putPair target (pairOf (.xWing dk))))
  | .xWingEncapsulate pk supply target => do
    let pk ← s.publicKey pk
    let supply ← s.value supply
    let ek ← attempt pk.asXWing
    .ok (drawing s supply (ek.encapsulate P Entropy.queue supply) fun sent => putSent s target (sentLists sent))
  | .xWingDecapsulate sk ciphertext => do
    let sk ← s.privateKey sk
    let ciphertext ← s.value ciphertext
    let dk ← attempt sk.asXWing
    let shared ← attempt (dk.decapsulate P ciphertext)
    .ok (.value (.bytes shared.toList), s)
  | .xWingSame a b => do
    let a ← s.publicKey a
    let b ← s.publicKey b
    let a ← attempt a.asXWing
    let b ← attempt b.asXWing
    .ok (.value (.flag (a.sameKey b)), s)

/-- run a command; a refused one changes nothing -/
def step (P : XWing.Primitives) (s : Store) (c : Command) : Answer Error × Store :=
  settle s (run P s c)

end PostQuantum.Kem.Session
