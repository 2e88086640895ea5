/-
Packing and compression with steps that refuse to go wrong.

Packing takes values of at most d bits only, so that none runs into its neighbour, and a group of eight must have no bit
past its d bytes. Everything else refuses what the arithmetic of the transforms refuses: lost bits, shifts by the width
of a word or more, and coefficients that are not reduced.
- `packGroup?_eq`, `byteEncode?_eq`: packing refuses no step on values of at most d bits.
- `byteDecode?_eq`: unpacking refuses no step on any bytes.
- `compress?_eq`, `decompress?_eq`: compression refuses no step on reduced coefficients, decompression on values of at
  most d bits.
-/
import Mathlib.Tactic
import PostQuantum.Proofs.MLKEM.Compression
import PostQuantum.Proofs.MLKEM.Exact.Transform

namespace PostQuantum.MLKEM

open PrimeField InRange
open Elem (reduced?_eq)

variable {d : ℕ}

/-! ## Steps -/

/-- the value, if it has at most `d` bits -/
def fits? (d : ℕ) (value : Coeff) : Option Coeff := if value.val < 2 ^ d then some value else none

/-- the length of chunks, if it is not zero -/
def chunkSize? (d : ℕ) : Option ℕ := if 0 < d then some d else none

/-- the word with its low `d` bits set -/
def lowMask? (w d : ℕ) : Option (BitVec w) := do
  let bit ← shiftUp? (1 : BitVec w) d
  Word.sub? bit 1

/-- a group of eight values of at most `d` bits in one word -/
def packGroup? (d : ℕ) (values : Vector Coeff 256) (g : Fin 32) : Option (BitVec 128) :=
  (List.finRange 8).foldlM (fun acc j => do
    let value ← fits? d (values.get (inGroup g j))
    let wide ← Word.resize? 128 value.rep
    let shift ← index? (d * j.val)
    let placed ← shiftUp? wide shift
    some (acc ||| placed)) 0

/-- the lowest `d` bytes of a word -/
def wordBytes (d : ℕ) (x : BitVec 128) : Bytes d := Vector.ofFn fun i => ⟨Word.narrow 8 (x >>> (8 * i.val))⟩

/-- the lowest `d` of the sixteen bytes of a word, if no bit that is set is in the others -/
def wordBytes? (d : ℕ) (x : BitVec 128) : Option (Bytes d) :=
  if d ≤ 16 ∧ x.toNat < 2 ^ (8 * d) then some (wordBytes d x) else none

/-- values of at most `d` bits in bytes -/
def byteEncode? (d : ℕ) (values : Vector Coeff 256) : Option (Bytes (32 * d)) := do
  let _ ← chunkSize? d
  let groups ← Vector.ofFnM (packGroup? d values)
  let chunks ← map? (wordBytes? d) groups
  some (Bytes.join chunks)

/-- the d bytes of group `g` in a word of sixteen -/
def bytesGroup? (d : ℕ) (bytes : Bytes (32 * d)) (g : Fin 32) : Option (BitVec 128) :=
  if d ≤ 16 then some (bytesGroup d bytes g) else none

/-- a value below 2q, reduced -/
def smallReduce? {F : Modulus} (x : BitVec F.intBits) : Option (Elem F) :=
  if x.toNat < 2 * F.q then Elem.reduced? ⟨F.smallReduce x⟩ else none

/-- value `i` of the groups -/
def unpackValue? (d : ℕ) (mask : BitVec 128) (groups : Vector (BitVec 128) 32) (i : Fin 256) : Option Coeff := do
  let shift ← index? (d * (i.val % 8))
  let moved ← shiftDown? (groups.get (groupOf i)) shift
  let raw ← Word.resize? 16 (moved &&& mask)
  smallReduce? (F := z3329) raw

/-- the values of `d` bits that the bytes hold -/
def byteDecode? (d : ℕ) (bytes : Bytes (32 * d)) : Option (Vector Coeff 256) := do
  let _ ← chunkSize? d
  let mask ← lowMask? 128 d
  let groups ← Vector.ofFnM (bytesGroup? d bytes)
  Vector.ofFnM (unpackValue? d mask groups)

/-- the reciprocal of q scaled by 2^34 -/
def divMultiplier? : Option (BitVec 64) := do
  let scale ← shiftUp? (1 : BitVec 64) 34
  some (scale / 3329)

/-- half of q, rounded up -/
def halfModulus? : Option (BitVec 64) := do
  let sum ← Word.add? (3329 : BitVec 64) 1
  shiftDown? sum 1

/-- the nearest integer to 2^d x / q, modulo 2^d -/
def compress? (d : ℕ) (x : Coeff) : Option Coeff := do
  let x ← x.reduced?
  let mask ← lowMask? 64 d
  let wide ← Word.resize? 64 x.rep
  let shifted ← shiftUp? wide d
  let sum ← Word.add? shifted (← halfModulus?)
  let product ← Word.mul? sum (← divMultiplier?)
  let quotient ← shiftDown? product 34
  let rep ← Word.resize? 16 (quotient &&& mask)
  Elem.reduced? ⟨rep⟩

/-- the nearest integer to q y / 2^d -/
def decompress? (d : ℕ) (y : Coeff) : Option Coeff := do
  let y ← y.reduced?
  let wide ← Word.resize? 32 y.rep
  let product ← Word.mul? wide 3329
  let place ← indexSub? d 1
  let half ← shiftUp? (1 : BitVec 32) place
  let sum ← Word.add? product half
  let quotient ← shiftDown? sum d
  let rep ← Word.resize? 16 quotient
  Elem.reduced? ⟨rep⟩

theorem fits?_eq {value : Coeff} (h : value.val < 2 ^ d) : fits? d value = some value := if_pos h

theorem chunkSize?_eq (hd : 0 < d) : chunkSize? d = some d := if_pos hd

theorem lowMask?_eq {w : ℕ} (hd : d < w) : lowMask? w d = some (Word.lowMask w d) := by
  have hone : (1 : BitVec w).toNat = 1 := BitVec.toNat_one (by omega)
  have hpow : 2 ^ d < 2 ^ w := Nat.pow_lt_pow_right (by norm_num) hd
  have hbit : ((1 : BitVec w) <<< d).toNat = 2 ^ d := by
    rw [BitVec.toNat_shiftLeft, hone, Nat.shiftLeft_eq, Nat.one_mul, Nat.mod_eq_of_lt hpow]
  refine andThen (shiftUp?_eq hd (by rwa [hone, Nat.one_mul])) ?_
  rw [Word.sub?_eq_some_iff, Word.toNat_lowMask hd, hbit, hone]
  exact Nat.sub_add_cancel Nat.one_le_two_pow

/-! ## Packing -/

section Packing

variable {values : Vector Coeff 256}

/-- a value and the place it is moved to end within the `d` bytes of its group -/
theorem place_end_le (d : ℕ) (j : Fin 8) : d * j.val + d ≤ 8 * d := by
  calc d * j.val + d = d * (j.val + 1) := by ring
    _ ≤ d * 8 := Nat.mul_le_mul_left d j.isLt
    _ = 8 * d := Nat.mul_comm d 8

/-- **A group** of values of at most d bits refuses no step, and it fits d bytes. -/
theorem packGroup?_eq (hd16 : d ≤ 16) (hv : FitsBits d values) (g : Fin 32) :
    packGroup? d values g = some (packGroup d values g) ∧ (packGroup d values g).toNat < 2 ^ (8 * d) := by
  have hword : 2 ^ (8 * d) ≤ 2 ^ 128 := Nat.pow_le_pow_right (by norm_num) (by omega)
  refine foldlM_finRange _ _ (β := BitVec 128) (fun _ acc => acc.toNat < 2 ^ (8 * d)) (Nat.two_pow_pos _)
    fun j acc hacc => ?_
  have hvalue := hv (inGroup g j)
  have hend := place_end_le d j
  have hwide : ((values.get (inGroup g j)).rep.setWidth 128).toNat = (values.get (inGroup g j)).val := by
    rw [BitVec.toNat_setWidth]
    exact Nat.mod_eq_of_lt ((values.get (inGroup g j)).rep.isLt.trans (by decide))
  have hplaced : ((values.get (inGroup g j)).rep.setWidth 128).toNat * 2 ^ (d * j.val) < 2 ^ (8 * d) := by
    rw [hwide]
    calc (values.get (inGroup g j)).val * 2 ^ (d * j.val) < 2 ^ d * 2 ^ (d * j.val) :=
          Nat.mul_lt_mul_of_pos_right hvalue (Nat.two_pow_pos _)
      _ = 2 ^ (d * j.val + d) := by rw [← pow_add, Nat.add_comm]
      _ ≤ 2 ^ (8 * d) := Nat.pow_le_pow_right (by norm_num) hend
  constructor
  · refine andThen (fits?_eq hvalue) ?_
    refine andThen (Word.resize?_eq_some_iff.2 hwide) ?_
    refine andThen (index?_eq (by omega)) ?_
    refine andThen (shiftUp?_eq (by have := Nat.pos_of_ne_zero (n := d); omega) (hplaced.trans_le hword)) ?_
    rfl
  · rw [BitVec.toNat_or, BitVec.toNat_shiftLeft, Nat.shiftLeft_eq, Nat.mod_eq_of_lt (hplaced.trans_le hword)]
    exact Nat.or_lt_two_pow hacc hplaced

/-- packing makes its groups one by one -/
theorem byteEncode_eq_join (hd : 0 < d) (values : Vector Coeff 256) :
    byteEncode d values = Bytes.join ((Vector.ofFn (packGroup d values)).map (wordBytes d)) := by
  refine ext_get fun p => ?_
  obtain ⟨g, j, rfl⟩ := Bytes.exists_place p
  have hgroup : groupOfByte d (Bytes.place g j) = g := Fin.ext (by
    simp only [groupOfByte, Bytes.place]
    rw [Nat.mul_comm, Nat.mul_add_div hd, Nat.div_eq_of_lt j.isLt, Nat.add_zero])
  have hbyte : (Bytes.place g j).val % d = j.val := by
    simp only [Bytes.place]
    rw [Nat.mul_comm, Nat.mul_add_mod, Nat.mod_eq_of_lt j.isLt]
  rw [byteEncode_get, hgroup, hbyte, Bytes.get_join, get_map, get_ofFn, wordBytes, get_ofFn]

/-- **Packing** values of at most d bits refuses no step. -/
theorem byteEncode?_eq (hd : 0 < d) (hd16 : d ≤ 16) (hv : FitsBits d values) :
    byteEncode? d values = some (byteEncode d values) := by
  refine andThen (chunkSize?_eq hd) ?_
  refine andThen (ofFnM_eq_some fun g => (packGroup?_eq hd16 hv g).1) ?_
  have hchunks : map? (wordBytes? d) (Vector.ofFn (packGroup d values)) =
      some ((Vector.ofFn (packGroup d values)).map (wordBytes d)) := map?_eq fun g => by
    rw [get_ofFn]
    exact if_pos ⟨hd16, (packGroup?_eq hd16 hv g).2⟩
  refine andThen hchunks ?_
  rw [byteEncode_eq_join hd]

-- a value of five bits has no place among values of four
example : byteEncode? 4 (Vector.replicate 256 ⟨16⟩) = none := by decide +kernel

/-! ## Unpacking -/

theorem smallReduce?_eq {F : Modulus} {x : BitVec F.intBits} (hx : x.toNat < 2 * F.q) :
    smallReduce? x = some ⟨F.smallReduce x⟩ := by
  have hreduced : (⟨F.smallReduce x⟩ : Elem F).Reduced := by
    change (F.smallReduce x).toNat < F.q
    rw [Modulus.toNat_smallReduce hx]
    exact Nat.mod_lt _ F.q_pos
  rw [smallReduce?, if_pos hx, reduced?_eq hreduced]

theorem unpackValue?_eq (hd12 : d ≤ 12) (bytes : Bytes (32 * d)) (i : Fin 256) :
    unpackValue? d (Word.lowMask 128 d) (Vector.ofFn (bytesGroup d bytes)) i = some ((byteDecode d bytes).get i) := by
  have hlow : i.val % 8 ≤ 7 := Nat.le_of_lt_succ (Nat.mod_lt _ (by norm_num))
  have hplace : d * (i.val % 8) ≤ 12 * 7 := Nat.mul_le_mul hd12 hlow
  have hraw := toNat_rawValue_lt (by omega) bytes i
  have hpow : 2 ^ d ≤ 2 ^ 12 := Nat.pow_le_pow_right (by norm_num) hd12
  rw [byteDecode_get]
  refine andThen (index?_eq (by omega)) ?_
  rw [get_ofFn]
  refine andThen (shiftDown?_eq (by omega)) ?_
  refine andThen (narrow?_eq ((Word.and_lowMask_lt (by omega) _).trans_le (hpow.trans (by norm_num)))) ?_
  exact smallReduce?_eq (F := z3329) ((hraw.trans_le hpow).trans (by decide))

/-- **Unpacking** refuses no step, whatever the bytes. -/
theorem byteDecode?_eq (hd : 0 < d) (hd12 : d ≤ 12) (bytes : Bytes (32 * d)) :
    byteDecode? d bytes = some (byteDecode d bytes) := by
  refine andThen (chunkSize?_eq hd) ?_
  refine andThen (lowMask?_eq (by omega)) ?_
  refine andThen (ofFnM_eq_some fun g => if_pos (by omega)) ?_
  rw [ofFnM_eq_some (unpackValue?_eq hd12 bytes)]
  exact congrArg some (ext_get fun i => get_ofFn _ i)

end Packing

/-! ## Compression -/

section Compression

variable {x y : Coeff}

theorem divMultiplier?_eq : divMultiplier? = some divMultiplier := by decide

theorem halfModulus?_eq : halfModulus? = some halfModulus := by decide

/-- **Compression** of reduced coefficients refuses no step. -/
theorem compress?_eq (hd11 : d ≤ 11) (hx : x.Reduced) : compress? d x = some (compress d x) := by
  have hle := shifted_le hd11 hx
  have hwide := toNat_setWidth_rep (w := 64) (by norm_num) x
  have hsum : Word.add? (x.rep.setWidth 64 <<< d) halfModulus = some (x.rep.setWidth 64 <<< d + halfModulus) := by
    rw [Word.add?_eq_some_iff, toNat_rounded hd11 hx, toNat_shifted hd11 hx, toNat_halfModulus]
  have hproduct : Word.mul? (x.rep.setWidth 64 <<< d + halfModulus) divMultiplier =
      some ((x.rep.setWidth 64 <<< d + halfModulus) * divMultiplier) := by
    rw [Word.mul?_eq_some_iff, toNat_dividend hd11 hx, toNat_rounded hd11 hx, toNat_divMultiplier]
  have hpow : 2 ^ d ≤ 2 ^ 11 := Nat.pow_le_pow_right (by norm_num) hd11
  refine andThen (reduced?_eq hx) ?_
  refine andThen (lowMask?_eq (by omega)) ?_
  refine andThen (Word.resize?_eq_some_iff.2 hwide) ?_
  refine andThen (shiftUp?_eq (by omega) ?_) ?_
  · rw [hwide, Nat.mul_comm]
    omega
  refine andThen halfModulus?_eq ?_
  refine andThen hsum ?_
  refine andThen divMultiplier?_eq ?_
  refine andThen hproduct ?_
  refine andThen (shiftDown?_eq (by norm_num)) ?_
  refine andThen (narrow?_eq ((Word.and_lowMask_lt (by omega) _).trans_le (hpow.trans (by norm_num)))) ?_
  exact reduced?_eq (compress_reduced hd11 x)

/-- **Decompression** of values of at most d bits refuses no step. -/
theorem decompress?_eq (hd : 0 < d) (hd11 : d ≤ 11) (hy : y.val < 2 ^ d) :
    decompress? d y = some (decompress d y) := by
  have hpow : 2 ^ d ≤ 2 ^ 11 := Nat.pow_le_pow_right (by norm_num) hd11
  have hhalf : 2 ^ (d - 1) ≤ 2 ^ 11 := Nat.pow_le_pow_right (by norm_num) (by omega)
  have hwide := toNat_setWidth_rep (w := 32) (by norm_num) y
  have hproduct : Word.mul? (y.rep.setWidth 32) 3329 = some (y.rep.setWidth 32 * 3329#32) := by
    rw [Word.mul?_eq_some_iff, toNat_product, hwide, Nat.mul_comm]
    rfl
  have hone : (1 : BitVec 32) <<< (d - 1) = BitVec.ofNat 32 (1 <<< (d - 1)) := by
    rw [BitVec.toNat_eq, toNat_half (by omega), BitVec.toNat_shiftLeft, Nat.shiftLeft_eq]
    exact (Nat.mod_eq_of_lt (by rw [show (1 : BitVec 32).toNat = 1 from rfl]; omega)).trans (Nat.one_mul _)
  have hraised : Word.add? (y.rep.setWidth 32 * 3329#32) (BitVec.ofNat 32 (1 <<< (d - 1))) =
      some (y.rep.setWidth 32 * 3329#32 + BitVec.ofNat 32 (1 <<< (d - 1))) := by
    rw [Word.add?_eq_some_iff, toNat_raisedProduct (by omega), toNat_product, toNat_half (by omega)]
  have hquotient : ((y.rep.setWidth 32 * 3329#32 + BitVec.ofNat 32 (1 <<< (d - 1))) >>> d).toNat < 3329 := by
    rw [BitVec.toNat_ushiftRight, toNat_raisedProduct (by omega), Nat.shiftRight_eq_div_pow]
    exact decompressed_lt hd (by omega) hy
  have hreduced : y.Reduced := (hy.trans_le hpow).trans (by decide)
  refine andThen (reduced?_eq hreduced) ?_
  refine andThen (Word.resize?_eq_some_iff.2 hwide) ?_
  refine andThen hproduct ?_
  refine andThen (indexSub?_eq hd) ?_
  refine andThen (shiftUp?_eq (by omega) (by rw [show (1 : BitVec 32).toNat = 1 from rfl]; omega)) ?_
  rw [hone]
  refine andThen hraised ?_
  refine andThen (shiftDown?_eq (by omega)) ?_
  refine andThen (narrow?_eq (hquotient.trans (by norm_num))) ?_
  exact reduced?_eq (decompress_reduced hd (by omega) hy)

/-! ## Polynomials and vectors -/

variable {k : ℕ} {f : Rq} {u : RqVec k}

def compressPoly? (d : ℕ) (f : Rq) : Option Rq := (map? (compress? d) f.coeffs).map Poly.mk

def decompressPoly? (d : ℕ) (f : Rq) : Option Rq := (map? (decompress? d) f.coeffs).map Poly.mk

def compressVec? (d : ℕ) (u : RqVec k) : Option (RqVec k) := (map? (compressPoly? d) u.polys).map PolyVec.mk

def decompressVec? (d : ℕ) (u : RqVec k) : Option (RqVec k) := (map? (decompressPoly? d) u.polys).map PolyVec.mk

theorem compressPoly?_eq (hd11 : d ≤ 11) (hf : f.Reduced) : compressPoly? d f = some (compressPoly d f) := by
  rw [compressPoly?, map?_eq fun i => compress?_eq hd11 (hf i)]
  rfl

theorem decompressPoly?_eq (hd : 0 < d) (hd11 : d ≤ 11) (hf : FitsBits d f.coeffs) :
    decompressPoly? d f = some (decompressPoly d f) := by
  rw [decompressPoly?, map?_eq fun i => decompress?_eq hd hd11 (hf i)]
  rfl

theorem compressVec?_eq (hd11 : d ≤ 11) (hu : u.Reduced) : compressVec? d u = some (compressVec d u) := by
  rw [compressVec?, map?_eq fun i => compressPoly?_eq hd11 (hu i)]
  rfl

theorem decompressVec?_eq (hd : 0 < d) (hd11 : d ≤ 11) (hu : ∀ i, FitsBits d (u.polys.get i).coeffs) :
    decompressVec? d u = some (decompressVec d u) := by
  rw [decompressVec?, map?_eq fun i => decompressPoly?_eq hd hd11 (hu i)]
  rfl

end Compression

/-! ## Strings -/

section Strings

variable {k : ℕ}

/-- the encodings of the entries one after the other -/
def encodeAll? (d : ℕ) (entries : Vector (Vector Coeff 256) k) : Option (Bytes (k * (32 * d))) :=
  (map? (byteEncode? d) entries).map Bytes.join

def encodeVec? (d : ℕ) (u : RqVec k) : Option (Bytes (k * (32 * d))) := encodeAll? d (u.polys.map Poly.coeffs)

def encodeNttVec? (d : ℕ) (u : TqVec k) : Option (Bytes (k * (32 * d))) := encodeAll? d (u.polys.map NttPoly.coeffs)

/-- the entries that a string holds, if it has the right length -/
def decodeAll? (k d : ℕ) (bytes : List UInt8) : Option (Vector (Vector Coeff 256) k) := do
  let bytes ← Bytes.ofList? (k * (32 * d)) bytes
  Vector.ofFnM fun i => byteDecode? d (Bytes.chunk bytes i)

def decodeVec? (k d : ℕ) (bytes : List UInt8) : Option (RqVec k) :=
  (decodeAll? k d bytes).map fun entries => ⟨entries.map Poly.mk⟩

def decodeNttVec? (k d : ℕ) (bytes : List UInt8) : Option (TqVec k) :=
  (decodeAll? k d bytes).map fun entries => ⟨entries.map NttPoly.mk⟩

/-- the polynomial that a string holds, if it has the right length -/
def decodePoly? (d : ℕ) (bytes : List UInt8) : Option Rq := do
  let bytes ← Bytes.ofList? (32 * d) bytes
  let coeffs ← byteDecode? d bytes
  some ⟨coeffs⟩

theorem encodeAll?_eq (hd : 0 < d) (hd16 : d ≤ 16) {entries : Vector (Vector Coeff 256) k}
    (hfits : ∀ i, FitsBits d (entries.get i)) :
    encodeAll? d entries = some (Bytes.join (entries.map (byteEncode d))) := by
  rw [encodeAll?, map?_eq fun i => byteEncode?_eq hd hd16 (hfits i)]
  rfl

theorem encodeVec?_eq (hd : 0 < d) (hd16 : d ≤ 16) {u : RqVec k} (hu : ∀ i, FitsBits d (u.polys.get i).coeffs) :
    encodeVec? d u = some (encodeVec d u) := by
  rw [encodeVec?, encodeAll?_eq hd hd16 fun i => by rw [get_map]; exact hu i, Vector.map_map]
  rfl

theorem encodeNttVec?_eq (hd : 0 < d) (hd16 : d ≤ 16) {u : TqVec k} (hu : ∀ i, FitsBits d (u.polys.get i).coeffs) :
    encodeNttVec? d u = some (encodeNttVec d u) := by
  rw [encodeNttVec?, encodeAll?_eq hd hd16 fun i => by rw [get_map]; exact hu i, Vector.map_map]
  rfl

theorem decodeAll?_eq (hd : 0 < d) (hd12 : d ≤ 12) (bytes : Bytes (k * (32 * d))) :
    decodeAll? k d bytes.toList = some (Vector.ofFn fun i => byteDecode d (Bytes.chunk bytes i)) := by
  refine andThen (Bytes.ofList?_toList bytes) ?_
  exact ofFnM_eq_some fun i => byteDecode?_eq hd hd12 (Bytes.chunk bytes i)

theorem decodeVec?_eq (hd : 0 < d) (hd12 : d ≤ 12) (bytes : Bytes (k * (32 * d))) :
    decodeVec? k d bytes.toList = some (decodeVec k d bytes) := by
  rw [decodeVec?, decodeAll?_eq hd hd12]
  refine congrArg (fun polys => some (PolyVec.mk polys)) (ext_get fun i => ?_)
  rw [get_map, get_ofFn, get_ofFn]

theorem decodeNttVec?_eq (hd : 0 < d) (hd12 : d ≤ 12) (bytes : Bytes (k * (32 * d))) :
    decodeNttVec? k d bytes.toList = some (decodeNttVec k d bytes) := by
  rw [decodeNttVec?, decodeAll?_eq hd hd12]
  refine congrArg (fun polys => some (NttVec.mk polys)) (ext_get fun i => ?_)
  rw [get_map, get_ofFn, get_ofFn]

theorem decodePoly?_eq (hd : 0 < d) (hd12 : d ≤ 12) (bytes : Bytes (32 * d)) :
    decodePoly? d bytes.toList = some ⟨byteDecode d bytes⟩ := by
  refine andThen (Bytes.ofList?_toList bytes) ?_
  refine andThen (byteDecode?_eq hd hd12 bytes) ?_
  rfl

end Strings

end PostQuantum.MLKEM
