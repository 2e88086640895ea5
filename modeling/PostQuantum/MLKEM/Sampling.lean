/-
Random elements of R_q and T_q from bytes.

Uniform residues come from a byte stream that is read in blocks of 168 bytes: three bytes give two candidates of
twelve bits, and those below q are kept until there are 256 (`sampleUniform`). A stream here is finitely many blocks
of any content and zeros after them, and zeros are candidates below q, so reading always ends. Noise has the centered
binomial distribution: a coefficient is the difference of two counts of `eta` bits (`sampleNoise`).
-/
import PostQuantum.MLKEM.Packing

namespace PostQuantum.MLKEM

open PrimeField Word

/-- a block of a stream -/
abbrev Block := Bytes 168

/-- a byte stream: `count` blocks, and zeros after them -/
structure ByteStream where
  count : Nat
  block : Nat → Block

namespace ByteStream

/-- block `i` of the stream -/
def get (s : ByteStream) (i : Nat) : Block :=
  if i < s.count then s.block i else Bytes.zeros 168

/-- the bytes of a list, and zeros after them -/
def ofList (bytes : List UInt8) : ByteStream :=
  let data := bytes.toArray
  { count := (data.size + 167) / 168
    block := fun i => Vector.ofFn fun j => data.getD (168 * i + j.val) 0 }

/-- the first `n` bytes of the stream -/
def take (s : ByteStream) (n : Nat) : List UInt8 :=
  ((List.range ((n + 167) / 168)).flatMap fun i => (s.get i).toList).take n

end ByteStream

/-- the two candidates of each three bytes, in order -/
def candidates : List UInt8 → List Coeff
  | b0 :: b1 :: b2 :: rest =>
    let w0 : BitVec 16 := b0.toBitVec.setWidth 16
    let w1 : BitVec 16 := b1.toBitVec.setWidth 16
    let w2 : BitVec 16 := b2.toBitVec.setWidth 16
    ⟨w0 ||| ((w1 &&& 0x0f) <<< 8)⟩ :: ⟨(w1 >>> 4) ||| (w2 <<< 4)⟩ :: candidates rest
  | _ => []

/-- the candidates of a block that are below q -/
def acceptedIn (block : Block) : List Coeff :=
  (candidates block.toList).filter fun c => c.Reduced

/-- what reading a stream has come to: the coefficients accepted, and the blocks read -/
structure Reading where
  accepted : List Coeff
  blocks : Nat

/-- read block after block until 256 coefficients are accepted, `fuel` blocks at most -/
def readBlocks (block : Nat → Block) : (fuel : Nat) → Reading → Reading
  | 0, r => r
  | fuel + 1, r =>
    if 256 ≤ r.accepted.length then r
    else readBlocks block fuel ⟨r.accepted ++ acceptedIn (block r.blocks), r.blocks + 1⟩

/-- the reading of a stream; three blocks of zeros hold more than 256 candidates below q -/
def ByteStream.read (s : ByteStream) : Reading :=
  readBlocks s.get (s.count + 3) ⟨[], 0⟩

/-- the first 256 coefficients that a stream gives -/
def sampleUniform (s : ByteStream) : Tq :=
  let accepted := s.read.accepted.toArray
  ⟨Vector.ofFn fun i => accepted.getD i.val 0⟩

/-- coefficient by coefficient, the set bits among the first `eta` less those among the next `eta` -/
def sampleNoise (eta : Nat) (bytes : Bytes (64 * eta)) : Rq :=
  let values := byteDecode (2 * eta) (bytes.cast (by omega))
  ⟨Vector.ofFn fun i =>
    let v : BitVec 16 := (values.get i).rep
    (⟨(v &&& lowMask 16 eta).cpop⟩ : Coeff) - ⟨(v >>> eta).cpop⟩⟩

end PostQuantum.MLKEM
