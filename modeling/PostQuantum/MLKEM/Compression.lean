/-
Compression of coefficients to d bits.

`compress` rounds 2^d x / q to the nearest integer modulo 2^d, and `decompress` rounds q y / 2^d. The quotient by q is
a product with a reciprocal of 34 bits in a 64-bit word, which rounds as the quotient does for x below q and d up to
11. Both are defined for any word x and any d of at most 12.
-/
import PostQuantum.MLKEM.Transform

namespace PostQuantum.MLKEM

open PrimeField Word

/-- the reciprocal of q scaled by 2^34 -/
def divMultiplier : BitVec 64 := BitVec.ofNat 64 ((1 <<< 34) / 3329)

/-- half of q, rounded up -/
def halfModulus : BitVec 64 := 1665

/-- the nearest integer to 2^d x / q, modulo 2^d -/
def compress (d : Nat) (x : Coeff) : Coeff :=
  let y := (((x.rep.setWidth 64 <<< d) + halfModulus) * divMultiplier) >>> 34
  ⟨narrow 16 (y &&& lowMask 64 d)⟩

/-- the nearest integer to q y / 2^d -/
def decompress (d : Nat) (y : Coeff) : Coeff :=
  ⟨narrow 16 ((y.rep.setWidth 32 * 3329 + (1 <<< (d - 1))) >>> d)⟩

def compressPoly (d : Nat) (f : Rq) : Rq := ⟨f.coeffs.map (compress d)⟩

def decompressPoly (d : Nat) (f : Rq) : Rq := ⟨f.coeffs.map (decompress d)⟩

def compressVec {k : Nat} (d : Nat) (v : RqVec k) : RqVec k := ⟨v.polys.map (compressPoly d)⟩

def decompressVec {k : Nat} (d : Nat) (v : RqVec k) : RqVec k := ⟨v.polys.map (decompressPoly d)⟩

end PostQuantum.MLKEM
