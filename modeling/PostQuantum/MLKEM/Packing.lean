/-
Packing of coefficients into bytes, d bits each.

Eight values of d bits fill d bytes, so values are packed in groups of eight through a 128-bit word: value j of a group
starts at bit d j. Packing does not cut its values to d bits; one that is too long runs into its neighbours. Unpacking
takes d bits for each value and reduces it once modulo q, which matters only for d = 12.
-/
import PostQuantum.Bytes
import PostQuantum.MLKEM.Transform

namespace PostQuantum.MLKEM

open PrimeField Word

theorem inGroup_lt (g : Fin 32) (j : Fin 8) : 8 * g.val + j.val < 256 := by omega

/-- the index of value `j` of group `g` -/
def inGroup (g : Fin 32) (j : Fin 8) : Fin 256 := ⟨8 * g.val + j.val, inGroup_lt g j⟩

/-- group `g` of eight values in one word -/
def packGroup (d : Nat) (values : Vector Coeff 256) (g : Fin 32) : BitVec 128 :=
  (List.finRange 8).foldl
    (fun (acc : BitVec 128) j => acc ||| (((values.get (inGroup g j)).rep.setWidth 128) <<< (d * j.val))) 0

theorem groupOfByte_lt (d : Nat) (i : Fin (32 * d)) : i.val / d < 32 :=
  Nat.div_lt_of_lt_mul (Nat.mul_comm 32 d ▸ i.isLt)

/-- the group that byte `i` belongs to -/
def groupOfByte (d : Nat) (i : Fin (32 * d)) : Fin 32 := ⟨i.val / d, groupOfByte_lt d i⟩

/-- the values in groups, each cut to d bytes -/
def byteEncode (d : Nat) (values : Vector Coeff 256) : Bytes (32 * d) :=
  let groups := Vector.ofFn (packGroup d values)
  Vector.ofFn fun i => ⟨narrow 8 (groups.get (groupOfByte d i) >>> (8 * (i.val % d)))⟩

/-- the d bytes of group `g` as one word -/
def bytesGroup (d : Nat) (bytes : Bytes (32 * d)) (g : Fin 32) : BitVec 128 :=
  (List.finRange d).foldl
    (fun (acc : BitVec 128) j => acc ||| (((bytes.get (Bytes.place g j)).toBitVec.setWidth 128) <<< (8 * j.val))) 0

theorem groupOf_lt (i : Fin 256) : i.val / 8 < 32 := by omega

/-- the group that value `i` belongs to -/
def groupOf (i : Fin 256) : Fin 32 := ⟨i.val / 8, groupOf_lt i⟩

/-- the values of d bits that the bytes hold -/
def byteDecode (d : Nat) (bytes : Bytes (32 * d)) : Vector Coeff 256 :=
  let groups := Vector.ofFn (bytesGroup d bytes)
  Vector.ofFn fun i =>
    ⟨z3329.smallReduce (narrow 16 ((groups.get (groupOf i) >>> (d * (i.val % 8))) &&& lowMask 128 d))⟩

/-- the encodings of the polynomials one after the other -/
def encodeVec {k : Nat} (d : Nat) (v : RqVec k) : Bytes (k * (32 * d)) :=
  Bytes.join (v.polys.map fun f => byteEncode d f.coeffs)

def decodeVec (k d : Nat) (bytes : Bytes (k * (32 * d))) : RqVec k :=
  ⟨Vector.ofFn fun i => ⟨byteDecode d (Bytes.chunk bytes i)⟩⟩

def encodeNttVec {k : Nat} (d : Nat) (v : TqVec k) : Bytes (k * (32 * d)) :=
  Bytes.join (v.polys.map fun f => byteEncode d f.coeffs)

def decodeNttVec (k d : Nat) (bytes : Bytes (k * (32 * d))) : TqVec k :=
  ⟨Vector.ofFn fun i => ⟨byteDecode d (Bytes.chunk bytes i)⟩⟩

end PostQuantum.MLKEM
