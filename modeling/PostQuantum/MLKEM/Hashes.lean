/-
The hash functions that ML-KEM is built on, as a parameter of everything that uses them.

`Hashes` fixes only the lengths of the outputs; `Hashes.standard` has the functions of the standard, all of them from
the Keccak sponge.
-/
import PostQuantum.Keccak
import PostQuantum.MLKEM.Sampling

namespace PostQuantum.MLKEM

/-- the hash functions of ML-KEM -/
structure Hashes where
  /-- two 32-byte strings from a message -/
  g : List UInt8 → Bytes 32 × Bytes 32
  h : List UInt8 → Bytes 32
  j : List UInt8 → Bytes 32
  /-- the bytes of one noise polynomial from a seed and a nonce -/
  prf : (eta : Nat) → Bytes 32 → UInt8 → Bytes (64 * eta)
  /-- the stream of one matrix entry from a seed and two indices -/
  xof : Bytes 32 → UInt8 → UInt8 → ByteStream

namespace Hashes

/-- SHA3-512, SHA3-256, SHAKE256 and SHAKE128; a stream ends only past any length that can be read -/
def standard : Hashes where
  g message := Bytes.halves (Keccak.sha3_512 message)
  h := Keccak.sha3_256
  j := Keccak.shake256 32
  prf eta seed nonce := Keccak.shake256 (64 * eta) (seed.toList ++ [nonce])
  xof seed i j :=
    let state := Keccak.absorb Keccak.shake128Rate Keccak.shakeSuffix (seed.toList ++ [i, j])
    { count := 1 <<< 64, block := Keccak.shake128Block state }

/-- `k` noise polynomials, from consecutive nonces -/
def noiseVec (H : Hashes) (eta k : Nat) (seed : Bytes 32) (start : UInt8) : RqVec k :=
  ⟨Vector.ofFn fun i => sampleNoise eta (H.prf eta seed (start + UInt8.ofNat i.val))⟩

/-- entry (row, column) of the public matrix of a seed -/
def matrixEntry (H : Hashes) (seed : Bytes 32) (row column : Nat) : Tq :=
  sampleUniform (H.xof seed (UInt8.ofNat column) (UInt8.ofNat row))

/-- the public matrix of a seed, or its transpose -/
def matrix (H : Hashes) (k : Nat) (seed : Bytes 32) (transposed : Bool) : TqMatrix k :=
  Vector.ofFn fun i => ⟨Vector.ofFn fun j =>
    if transposed then H.matrixEntry seed j.val i.val else H.matrixEntry seed i.val j.val⟩

end Hashes

end PostQuantum.MLKEM
