/-
Encodings with d bits for each coefficient, one way and the other.

Polynomials, their residues and vectors of either are written in one way: coefficient after coefficient, d bits each. An
encoding with `Packs` writes values of at most d bits as the groups of d bits of the string, and reads every group
modulo q.
- `group_chunk`, `ext_group`: the groups of a string are those of its chunks, and a string is known by its groups.
- `Packs.equiv`, `Packs.vector`: from values to polynomials, and from polynomials to vectors of any length.
- `Packs.roundTrips`: what the round trips of such an encoding are, from these two facts alone.
- `encodings_round_trip`: this holds of all four encodings, for every width up to twelve.
- `encodeNttVec_decodeNttVec_iff`: so vectors are written as they were read exactly for strings that are `Canonical`.
-/
import Mathlib.Tactic
import PostQuantum.Proofs.MLKEM.Packing

namespace PostQuantum

/-! ## Groups of bits -/

namespace Bytes

variable {d count n k : ℕ}

/-- a bit is a bit of its group -/
theorem bit_eq_testBit_group (hd : 0 < d) (bs : Bytes n) (m : ℕ) :
    bs.bit m = (group d bs.toList (m / d)).testBit (m % d) := by
  rw [testBit_group, Nat.div_add_mod, testBit_toNat_toList]
  simp only [Nat.mod_lt m hd, decide_true, Bool.true_and]

/-- a string is known by its groups -/
theorem ext_group {a b : Bytes n} (hsize : 8 * n = d * count)
    (h : ∀ i < count, group d a.toList i = group d b.toList i) : a = b := by
  refine ext_bit fun m hm => ?_
  rw [hsize] at hm
  have hd : 0 < d := Nat.pos_of_mul_pos_right (Nat.zero_lt_of_lt hm)
  rw [bit_eq_testBit_group hd, bit_eq_testBit_group hd, h _ (Nat.div_lt_of_lt_mul hm)]

/-- the groups of a chunk are groups of the string -/
theorem group_chunk (hsize : 8 * n = d * count) (bs : Bytes (k * n)) (i : Fin k) {j : ℕ} (hj : j < count) :
    group d (chunk bs i).toList j = group d bs.toList (i.val * count + j) := by
  refine Nat.eq_of_testBit_eq fun t => ?_
  rw [testBit_group, testBit_group, testBit_toNat_toList, testBit_toNat_toList]
  by_cases ht : t < d
  · have hlt : d * j + t < 8 * n :=
      calc d * j + t < d * j + d := Nat.add_lt_add_left ht _
        _ = d * (j + 1) := (Nat.mul_succ d j).symm
        _ ≤ d * count := Nat.mul_le_mul_left d hj
        _ = 8 * n := hsize.symm
    have hplace : d * (i.val * count + j) + t = 8 * (i.val * n) + (d * j + t) :=
      calc d * (i.val * count + j) + t = i.val * (d * count) + (d * j + t) := by ring
        _ = i.val * (8 * n) + (d * j + t) := by rw [hsize]
        _ = 8 * (i.val * n) + (d * j + t) := by ring
    rw [bit_chunk bs i hlt, hplace]
  · simp only [ht, decide_false, Bool.false_and]

end Bytes

/-! ## Polynomials and vectors as what they hold -/

section Equivalences

variable {F : PrimeField.Modulus}

/-- a polynomial is its coefficients -/
def Poly.equivCoeffs : Poly F ≃ Vector (PrimeField.Elem F) 256 := ⟨coeffs, mk, fun _ => rfl, fun _ => rfl⟩

/-- an image under the transform is its residues -/
def NttPoly.equivCoeffs : NttPoly F ≃ Vector (PrimeField.Elem F) 256 := ⟨coeffs, mk, fun _ => rfl, fun _ => rfl⟩

/-- a vector is its polynomials -/
def PolyVec.equivPolys (k : ℕ) : PolyVec F k ≃ Vector (Poly F) k := ⟨polys, mk, fun _ => rfl, fun _ => rfl⟩

/-- a vector of images is its entries -/
def NttVec.equivPolys (k : ℕ) : NttVec F k ≃ Vector (NttPoly F) k := ⟨polys, mk, fun _ => rfl, fun _ => rfl⟩

end Equivalences

namespace MLKEM

open PrimeField
open Bytes (group)

variable {α β : Type} {d count size k : ℕ}

/-! ## Encodings -/

/-- how something with `count` coefficients is written with d bits for each -/
structure Packs (d count : ℕ) (coeff : α → Fin count → Coeff) (encode : α → Bytes size) (decode : Bytes size → α) :
    Prop where
  size_eq : 8 * size = d * count
  /-- there is nothing beside the coefficients -/
  injective : Function.Injective coeff
  group_encode : ∀ x, (∀ i, (coeff x i).val < 2 ^ d) → ∀ i, group d (encode x).toList i.val = (coeff x i).val
  val_decode : ∀ bytes i, (coeff (decode bytes) i).val = group d bytes.toList i.val % 3329

/-- the round trips of an encoding with d bits for each coefficient -/
structure RoundTrips (d count : ℕ) (coeff : α → Fin count → Coeff) (encode : α → Bytes size)
    (decode : Bytes size → α) : Prop where
  decode_encode : ∀ x, (∀ i, (coeff x i).val < min (2 ^ d) 3329) → decode (encode x) = x
  encode_decode : d < 12 → ∀ bytes, encode (decode bytes) = bytes
  /-- what is written again is the string with each group taken modulo q -/
  encode_decode_eq_iff : ∀ bytes out,
    encode (decode bytes) = out ↔ ∀ i < count, group d out.toList i = group d bytes.toList i % 3329
  canonical_iff : ∀ bytes, encode (decode bytes) = bytes ↔ ∀ i < count, group d bytes.toList i < 3329
  idempotent : ∀ bytes, encode (decode (encode (decode bytes))) = encode (decode bytes)

namespace Packs

variable {coeff : α → Fin count → Coeff} {encode : α → Bytes size} {decode : Bytes size → α}

theorem group_lt (d : ℕ) (bs : List UInt8) (i : ℕ) : group d bs i < 2 ^ d := Nat.mod_lt _ (Nat.two_pow_pos d)

/-- the groups of what is written again -/
theorem group_encode_decode (h : Packs d count coeff encode decode) (bytes : Bytes size) {i : ℕ} (hi : i < count) :
    group d (encode (decode bytes)).toList i = group d bytes.toList i % 3329 := by
  have hfits : ∀ i, (coeff (decode bytes) i).val < 2 ^ d := fun i => by
    rw [h.val_decode]
    exact (Nat.mod_le _ _).trans_lt (group_lt d _ _)
  rw [h.group_encode _ hfits ⟨i, hi⟩, h.val_decode]

theorem encode_decode_eq_iff (h : Packs d count coeff encode decode) (bytes out : Bytes size) :
    encode (decode bytes) = out ↔ ∀ i < count, group d out.toList i = group d bytes.toList i % 3329 := by
  constructor
  · rintro rfl i hi
    exact h.group_encode_decode bytes hi
  · intro hout
    refine Bytes.ext_group h.size_eq fun i hi => ?_
    rw [h.group_encode_decode bytes hi, hout i hi]

/-- **Round trips.** They follow from what is written and read for each group. -/
theorem roundTrips (h : Packs d count coeff encode decode) : RoundTrips d count coeff encode decode where
  decode_encode x hx := by
    refine h.injective (funext fun i => Elem.ext_val ?_)
    have hfits : ∀ i, (coeff x i).val < 2 ^ d := fun i => (hx i).trans_le (Nat.min_le_left _ _)
    rw [h.val_decode, h.group_encode x hfits, Nat.mod_eq_of_lt ((hx i).trans_le (Nat.min_le_right _ _))]
  encode_decode hd bytes := by
    have hpow : 2 ^ d ≤ 2 ^ 11 := Nat.pow_le_pow_right (by norm_num) (Nat.le_of_lt_succ hd)
    refine (h.encode_decode_eq_iff bytes bytes).2 fun i _ => (Nat.mod_eq_of_lt ?_).symm
    exact (group_lt d _ i).trans_le (hpow.trans (by norm_num))
  encode_decode_eq_iff := h.encode_decode_eq_iff
  canonical_iff bytes := by
    rw [h.encode_decode_eq_iff]
    refine forall₂_congr fun i _ => ⟨fun heq => ?_, fun hlt => (Nat.mod_eq_of_lt hlt).symm⟩
    rw [heq]
    exact Nat.mod_lt _ (by norm_num)
  idempotent bytes := by
    refine (h.encode_decode_eq_iff _ _).2 fun i hi => ?_
    rw [h.group_encode_decode bytes hi, Nat.mod_mod]

/-! ## From values to vectors of polynomials -/

/-- the same encoding for another type with the same coefficients -/
theorem equiv (h : Packs d count coeff encode decode) (e : β ≃ α) :
    Packs d count (fun x => coeff (e x)) (fun x => encode (e x)) (fun bytes => e.symm (decode bytes)) where
  size_eq := h.size_eq
  injective := h.injective.comp e.injective
  group_encode x hx i := h.group_encode (e x) hx i
  val_decode bytes i := by
    rw [e.apply_symm_apply]
    exact h.val_decode bytes i

theorem divNat_place (i : Fin k) (j : Fin count) : (Bytes.place i j).divNat = i := by
  refine Fin.ext ?_
  change (i.val * count + j.val) / count = i.val
  rw [Nat.mul_comm, Nat.mul_add_div j.pos, Nat.div_eq_of_lt j.isLt, Nat.add_zero]

theorem modNat_place (i : Fin k) (j : Fin count) : (Bytes.place i j).modNat = j := by
  refine Fin.ext ?_
  change (i.val * count + j.val) % count = j.val
  rw [Nat.mul_comm, Nat.mul_add_mod, Nat.mod_eq_of_lt j.isLt]

/-- entry after entry of a vector -/
theorem vector (h : Packs d count coeff encode decode) (k : ℕ) :
    Packs d (k * count) (fun (v : Vector α k) n => coeff (v.get n.divNat) n.modNat)
      (fun v => Bytes.join (v.map encode)) (fun bytes => Vector.ofFn fun i => decode (Bytes.chunk bytes i)) where
  size_eq := by
    rw [Nat.mul_left_comm, h.size_eq, Nat.mul_left_comm]
  injective u v huv := by
    refine ext_get fun i => h.injective (funext fun j => ?_)
    have hplace := congrFun huv (Bytes.place i j)
    simp only [divNat_place, modNat_place] at hplace
    exact hplace
  group_encode v hv n := by
    obtain ⟨i, j, rfl⟩ := Bytes.exists_place n
    have hfits : ∀ j, (coeff (v.get i) j).val < 2 ^ d := fun j => by
      have hplace := hv (Bytes.place i j)
      rwa [divNat_place, modNat_place] at hplace
    have hchunk := Bytes.group_chunk h.size_eq (Bytes.join (v.map encode)) i j.isLt
    rw [Bytes.chunk_join, get_map, h.group_encode _ hfits] at hchunk
    rw [divNat_place, modNat_place]
    exact hchunk.symm
  val_decode bytes n := by
    obtain ⟨i, j, rfl⟩ := Bytes.exists_place n
    rw [divNat_place, modNat_place, get_ofFn, h.val_decode, Bytes.group_chunk h.size_eq bytes i j.isLt]
    rfl

end Packs

/-! ## The encodings -/

theorem group_eq_rawValue (hd16 : d ≤ 16) (bytes : Bytes (32 * d)) (i : Fin 256) :
    group d bytes.toList i.val = (rawValue d bytes i).toNat := by
  refine Nat.eq_of_testBit_eq fun t => ?_
  rw [Bytes.testBit_group, Bytes.testBit_toNat_toList, BitVec.testBit_toNat]
  by_cases ht : t < d
  · rw [getLsbD_rawValue hd16 bytes i (by omega)]
  · have hzero : (rawValue d bytes i).getLsbD t = false :=
      Word.getLsbD_of_lt_two_pow (toNat_rawValue_lt hd16 bytes i) (Nat.le_of_not_lt ht)
    simp only [hzero, ht, decide_false, Bool.false_and]

/-- 256 values in groups of eight -/
theorem packs_values (hd12 : d ≤ 12) : Packs d 256 Vector.get (byteEncode d) (byteDecode d) where
  size_eq := by ring
  injective _ _ h := ext_get fun i => congrFun h i
  group_encode v hv i := by
    rw [group_eq_rawValue (by omega), rawValue_byteEncode (by omega) hv]
    rfl
  val_decode bytes i := by
    rw [val_byteDecode hd12, group_eq_rawValue (by omega)]

/-- coefficient `n` of a vector over R_q, entry after entry -/
def RqVec.coeff (v : RqVec k) (n : Fin (k * 256)) : Coeff := (v.polys.get n.divNat).coeffs.get n.modNat

/-- residue `n` of a vector over T_q, entry after entry -/
def TqVec.coeff (v : TqVec k) (n : Fin (k * 256)) : Coeff := (v.polys.get n.divNat).coeffs.get n.modNat

theorem packs_encodeVec (hd12 : d ≤ 12) (k : ℕ) :
    Packs d (k * 256) (RqVec.coeff (k := k)) (encodeVec d) (decodeVec k d) :=
  (((packs_values hd12).equiv Poly.equivCoeffs).vector k).equiv (PolyVec.equivPolys k)

theorem packs_encodeNttVec (hd12 : d ≤ 12) (k : ℕ) :
    Packs d (k * 256) (TqVec.coeff (k := k)) (encodeNttVec d) (decodeNttVec k d) :=
  (((packs_values hd12).equiv NttPoly.equivCoeffs).vector k).equiv (NttVec.equivPolys k)

/-- each of the first 256 k groups of twelve bits is reduced -/
def Canonical (k : ℕ) (bs : List UInt8) : Prop := ∀ n < 256 * k, Bytes.group 12 bs n < 3329

instance Canonical.instDecidable (k : ℕ) (bs : List UInt8) : Decidable (Canonical k bs) :=
  inferInstanceAs (Decidable (∀ n < 256 * k, Bytes.group 12 bs n < 3329))

/-- **A vector is written as it was read** exactly if all its groups of twelve bits are reduced. -/
theorem encodeNttVec_decodeNttVec_iff (bytes : Bytes (k * (32 * 12))) :
    encodeNttVec 12 (decodeNttVec k 12 bytes) = bytes ↔ Canonical k bytes.toList := by
  rw [(packs_encodeNttVec le_rfl k).roundTrips.canonical_iff, Canonical, Nat.mul_comm]

example : ¬Canonical 1 (List.replicate 381 0 ++ [0x00, 0x10, 0xd0]) := by decide +kernel

/-- **Round trips of encodings.** For every width d up to twelve, take polynomials, elements of T_q and vectors of any
length of either. What has coefficients of at most d bits and below q is read as it was written. Below twelve bits every
string is written as it was read; for twelve bits it is written with each group modulo q, so it stays as it is exactly
if all its groups are below q, and the next round changes nothing. -/
theorem encodings_round_trip (hd12 : d ≤ 12) :
    RoundTrips d 256 (fun f : Rq => f.coeffs.get) (fun f => byteEncode d f.coeffs) (fun bytes => ⟨byteDecode d bytes⟩) ∧
    RoundTrips d 256 (fun f : Tq => f.coeffs.get) (fun f => byteEncode d f.coeffs) (fun bytes => ⟨byteDecode d bytes⟩) ∧
    ∀ k, RoundTrips d (k * 256) (RqVec.coeff (k := k)) (encodeVec d) (decodeVec k d) ∧
      RoundTrips d (k * 256) (TqVec.coeff (k := k)) (encodeNttVec d) (decodeNttVec k d) := by
  refine ⟨?_, ?_, fun k => ⟨(packs_encodeVec hd12 k).roundTrips, (packs_encodeNttVec hd12 k).roundTrips⟩⟩
  · exact ((packs_values hd12).equiv Poly.equivCoeffs).roundTrips
  · exact ((packs_values hd12).equiv NttPoly.equivCoeffs).roundTrips

/-- a vector of the largest coefficients is read as it was written; a string of ones is not written as it was read, but
the next round changes nothing -/
theorem encodings_round_trip_largest :
    let v : TqVec 2 := ⟨Vector.replicate 2 ⟨Vector.replicate 256 (Elem.ofNat z3329 3328)⟩⟩
    let ones : Bytes (2 * (32 * 12)) := Vector.replicate (2 * (32 * 12)) 0xff
    let normal := encodeNttVec 12 (decodeNttVec 2 12 ones)
    decodeNttVec 2 12 (encodeNttVec 12 v) = v ∧ normal ≠ ones ∧ group 12 normal.toList 511 = 766 ∧
      encodeNttVec 12 (decodeNttVec 2 12 normal) = normal := by
  intro v ones normal
  obtain ⟨-, -, hvectors⟩ := encodings_round_trip (d := 12) le_rfl
  have hround := (hvectors 2).2
  have hv : ∀ n, (TqVec.coeff v n).val < min (2 ^ 12) 3329 := fun n => by
    rw [TqVec.coeff, get_replicate, get_replicate]
    decide
  have hones : ∀ n < 2 * 256, group 12 ones.toList n = 4095 := by decide +kernel
  refine ⟨hround.decode_encode v hv, fun h => ?_, ?_, hround.idempotent ones⟩
  · have hlt := (hround.canonical_iff ones).1 h 0 (by norm_num)
    rw [hones 0 (by norm_num)] at hlt
    exact absurd hlt (by norm_num)
  · have hgroup := (hround.encode_decode_eq_iff ones normal).1 rfl 511 (by norm_num)
    rwa [hones 511 (by norm_num)] at hgroup

end MLKEM

end PostQuantum
