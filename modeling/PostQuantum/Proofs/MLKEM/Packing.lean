/-
Packing, bit by bit.

Value i of a packing takes bits d i to d i + d - 1 of the byte string, lowest bit first.
- `bit_byteEncode`: this is what packing writes, for values of at most d bits.
- `getLsbD_rawValue`, `val_byteDecode`: this is what unpacking reads, and it then reduces modulo q.
- `byteDecode_byteEncode`: unpacking undoes packing.
- `byteEncode_byteDecode_iff`: packing undoes unpacking exactly if no value is reduced by it, which fails for twelve
  bits only.
Widths go up to sixteen bits for packing and up to twelve for unpacking.
-/
import Mathlib.Tactic
import PostQuantum.MLKEM.Packing
import PostQuantum.Proofs.Bits
import PostQuantum.Proofs.PrimeField.Residue

namespace PostQuantum.MLKEM

open PrimeField Word

variable {d : ℕ} {v : Vector Coeff 256}

/-- every value has at most `d` bits -/
def FitsBits (d : ℕ) (v : Vector Coeff 256) : Prop := ∀ i, (v.get i).val < 2 ^ d

theorem fitsBits_of_reduced (hv : ∀ i, (v.get i).Reduced) : FitsBits 12 v := by
  intro i
  have hq : z3329.q ≤ 2 ^ 12 := by decide
  exact lt_of_lt_of_le (hv i) hq

/-! ## Packing -/

theorem getLsbD_packGroup (hd : 0 < d) (hd16 : d ≤ 16) (hv : FitsBits d v) (g : Fin 32) {n : ℕ} (hn : n < 8 * d) :
    (packGroup d v g).getLsbD n =
      (v.get (inGroup g ⟨n / d, Nat.div_lt_of_lt_mul (by omega)⟩)).rep.getLsbD (n % d) := by
  have hwide : ∀ i, ((v.get i).rep.setWidth 128).toNat = (v.get i).val := fun i => by
    rw [BitVec.toNat_setWidth]
    exact Nat.mod_eq_of_lt ((v.get i).rep.isLt.trans (by decide))
  have hmod := Nat.mod_lt n hd
  have hsize : n < 128 := by omega
  unfold packGroup
  rw [getLsbD_packed (fun j => (v.get (inGroup g j)).rep.setWidth 128) hd (fun j => by
    rw [hwide]
    exact hv _) hsize (Nat.div_lt_of_lt_mul (by omega)), BitVec.getLsbD_setWidth]
  have hlt : n % d < 128 := by omega
  simp only [hlt, decide_true, Bool.true_and]

theorem byteEncode_get (d : ℕ) (v : Vector Coeff 256) (i : Fin (32 * d)) :
    (byteEncode d v).get i = ⟨narrow 8 (packGroup d v (groupOfByte d i) >>> (8 * (i.val % d)))⟩ := by
  unfold byteEncode
  rw [get_ofFn, get_ofFn]

theorem width_pos {m : ℕ} (hm : m < 8 * (32 * d)) : 0 < d := by
  rcases Nat.eq_zero_or_pos d with rfl | hd
  · omega
  · exact hd

theorem value_lt {m : ℕ} (hm : m < 8 * (32 * d)) : m / d < 256 :=
  Nat.div_lt_of_lt_mul (by omega)

/-- bit `t` of value `i` is a bit of the string -/
theorem bitPlace_lt (i : Fin 256) {t : ℕ} (ht : t < d) : d * i.val + t < 8 * (32 * d) :=
  calc d * i.val + t < d * i.val + d := Nat.add_lt_add_left ht _
    _ = d * (i.val + 1) := by ring
    _ ≤ d * 256 := Nat.mul_le_mul_left d (by omega)
    _ = 8 * (32 * d) := by ring

/-- **Packing writes the bits of its values one after the other.** -/
theorem bit_byteEncode (hd16 : d ≤ 16) (hv : FitsBits d v) {m : ℕ} (hm : m < 8 * (32 * d)) :
    (byteEncode d v).bit m = (v.get ⟨m / d, value_lt hm⟩).rep.getLsbD (m % d) := by
  have hd := width_pos hm
  -- bit m is bit t of byte i, and byte i is byte r of group g
  obtain ⟨i, t, ht, rfl⟩ : ∃ (i : Fin (32 * d)) (t : ℕ), t < 8 ∧ m = 8 * i.val + t :=
    ⟨⟨m / 8, by omega⟩, m % 8, by omega, by simp only; omega⟩
  have hi := Nat.div_add_mod i.val d
  have hr := Nat.mod_lt i.val hd
  have hn : 8 * (i.val % d) + t < 8 * d := by omega
  have hplace : 8 * i.val + t = d * (8 * (i.val / d)) + (8 * (i.val % d) + t) := by
    calc 8 * i.val + t = 8 * (d * (i.val / d) + i.val % d) + t := by rw [hi]
      _ = d * (8 * (i.val / d)) + (8 * (i.val % d) + t) := by ring
  have hdiv : (8 * i.val + t) / d = 8 * (i.val / d) + (8 * (i.val % d) + t) / d := by
    rw [hplace, Nat.mul_add_div hd]
  have hmod : (8 * i.val + t) % d = (8 * (i.val % d) + t) % d := by
    rw [hplace, Nat.mul_add_mod]
  have hbyte : (byteEncode d v).bit (8 * i.val + t) =
      (packGroup d v (groupOfByte d i)).getLsbD (8 * (i.val % d) + t) := by
    rw [Bytes.bit_of_byte _ i ht, byteEncode_get, narrow, BitVec.getLsbD_setWidth, BitVec.getLsbD_ushiftRight]
    simp only [ht, decide_true, Bool.true_and]
  rw [hbyte, getLsbD_packGroup hd hd16 hv _ hn, hmod]
  exact congrArg (fun k => (v.get k).rep.getLsbD _) (Fin.ext hdiv.symm)

/-! ## Unpacking -/

/-- the d bits that stand for value `i`, before they are reduced -/
def rawValue (d : ℕ) (bytes : Bytes (32 * d)) (i : Fin 256) : BitVec 16 :=
  narrow 16 ((bytesGroup d bytes (groupOf i) >>> (d * (i.val % 8))) &&& lowMask 128 d)

theorem byteDecode_get (d : ℕ) (bytes : Bytes (32 * d)) (i : Fin 256) :
    (byteDecode d bytes).get i = ⟨z3329.smallReduce (rawValue d bytes i)⟩ := by
  unfold byteDecode
  rw [get_ofFn, get_ofFn]
  rfl

theorem getLsbD_bytesGroup (hd16 : d ≤ 16) (bytes : Bytes (32 * d)) (g : Fin 32) {n : ℕ} (hn : n < 8 * d) :
    (bytesGroup d bytes g).getLsbD n = bytes.bit (8 * (d * g.val) + n) := by
  have hwide : ∀ j, ((bytes.get j).toBitVec.setWidth 128).toNat < 2 ^ 8 := fun j => by
    rw [BitVec.toNat_setWidth]
    exact (Nat.mod_le _ _).trans_lt (bytes.get j).toBitVec.isLt
  have hin : n / 8 < d := by omega
  have hsize : n < 128 := by omega
  have hlow : n % 8 < 8 := Nat.mod_lt n (by norm_num)
  have hplace : 8 * (d * g.val) + n = 8 * (Bytes.place g ⟨n / 8, hin⟩).val + n % 8 := by
    simp only [Bytes.place]
    have hcomm := Nat.mul_comm d g.val
    omega
  unfold bytesGroup
  rw [getLsbD_packed (fun j => (bytes.get (Bytes.place g j)).toBitVec.setWidth 128) (by norm_num)
    (fun j => hwide _) hsize hin, BitVec.getLsbD_setWidth, hplace, Bytes.bit_of_byte _ _ hlow]
  have hlt : n % 8 < 128 := by omega
  simp only [hlt, decide_true, Bool.true_and]

/-- **Unpacking reads d bits for each value.** -/
theorem getLsbD_rawValue (hd16 : d ≤ 16) (bytes : Bytes (32 * d)) (i : Fin 256) {t : ℕ} (ht : t < 16) :
    (rawValue d bytes i).getLsbD t = (decide (t < d) && bytes.bit (d * i.val + t)) := by
  unfold rawValue narrow
  rw [BitVec.getLsbD_setWidth, BitVec.getLsbD_and, getLsbD_lowMask (by omega), BitVec.getLsbD_ushiftRight]
  by_cases htd : t < d
  · have hn : d * (i.val % 8) + t < 8 * d := by
      calc d * (i.val % 8) + t < d * (i.val % 8) + d := Nat.add_lt_add_left htd _
        _ = d * (i.val % 8 + 1) := by ring
        _ ≤ d * 8 := Nat.mul_le_mul_left d (by omega)
        _ = 8 * d := Nat.mul_comm d 8
    have hi : d * i.val = 8 * (d * (groupOf i).val) + d * (i.val % 8) := by
      conv_lhs => rw [← Nat.div_add_mod i.val 8]
      simp only [groupOf]
      ring
    rw [getLsbD_bytesGroup hd16 bytes _ hn, ← Nat.add_assoc, ← hi]
    simp [ht, htd]
  · simp [htd]

theorem toNat_rawValue_lt (hd16 : d ≤ 16) (bytes : Bytes (32 * d)) (i : Fin 256) :
    (rawValue d bytes i).toNat < 2 ^ d := by
  refine Nat.lt_pow_two_of_testBit _ fun t ht => ?_
  rcases lt_or_ge t 16 with h | h
  · have hbit : (rawValue d bytes i).getLsbD t = false := by
      rw [getLsbD_rawValue hd16 bytes i h]
      simp [ht]
    exact hbit
  · exact BitVec.getLsbD_of_ge _ _ h

/-- a value is what its bits spell, modulo q -/
theorem val_byteDecode (hd12 : d ≤ 12) (bytes : Bytes (32 * d)) (i : Fin 256) :
    ((byteDecode d bytes).get i).val = (rawValue d bytes i).toNat % 3329 := by
  have hraw := toNat_rawValue_lt (by omega) bytes i
  have hpow : 2 ^ d ≤ 2 ^ 12 := Nat.pow_le_pow_right (by norm_num) hd12
  rw [byteDecode_get]
  refine Modulus.toNat_smallReduce (lt_of_lt_of_le (hraw.trans_le hpow) ?_)
  decide

theorem byteDecode_reduced (hd12 : d ≤ 12) (bytes : Bytes (32 * d)) (i : Fin 256) :
    ((byteDecode d bytes).get i).Reduced := by
  unfold Elem.Reduced
  rw [val_byteDecode hd12]
  exact Nat.mod_lt _ (by norm_num)

/-- a value that is reduced already is kept -/
theorem getLsbD_byteDecode (hd12 : d ≤ 12) {bytes : Bytes (32 * d)} {i : Fin 256}
    (h : (rawValue d bytes i).toNat < 3329) {t : ℕ} (ht : t < 16) :
    ((byteDecode d bytes).get i).rep.getLsbD t = (decide (t < d) && bytes.bit (d * i.val + t)) := by
  have hrep : ((byteDecode d bytes).get i).rep = rawValue d bytes i :=
    BitVec.eq_of_toNat_eq ((val_byteDecode hd12 bytes i).trans (Nat.mod_eq_of_lt h))
  rw [hrep]
  exact getLsbD_rawValue (by omega) bytes i ht

/-- fewer than twelve bits are reduced already -/
theorem rawValue_reduced (hd11 : d < 12) (bytes : Bytes (32 * d)) (i : Fin 256) :
    (rawValue d bytes i).toNat < 3329 := by
  have hraw := toNat_rawValue_lt (by omega) bytes i
  have hpow : 2 ^ d ≤ 2 ^ 11 := Nat.pow_le_pow_right (by norm_num) (by omega)
  omega

theorem byteDecode_fitsBits (hd12 : d ≤ 12) (bytes : Bytes (32 * d)) : FitsBits d (byteDecode d bytes) := by
  intro i
  rw [val_byteDecode hd12]
  exact (Nat.mod_le _ _).trans_lt (toNat_rawValue_lt (by omega) bytes i)

/-! ## Round trips -/

theorem rawValue_byteEncode (hd16 : d ≤ 16) (hv : FitsBits d v) (i : Fin 256) :
    rawValue d (byteEncode d v) i = (v.get i).rep := by
  refine BitVec.eq_of_getLsbD_eq fun t ht => ?_
  rw [getLsbD_rawValue hd16 _ i ht]
  by_cases htd : t < d
  · have hdiv : (d * i.val + t) / d = i.val := by
      rw [Nat.mul_add_div (by omega), Nat.div_eq_of_lt htd, Nat.add_zero]
    have hmod : (d * i.val + t) % d = t := by
      rw [Nat.mul_add_mod, Nat.mod_eq_of_lt htd]
    rw [bit_byteEncode hd16 hv (bitPlace_lt i htd), hmod]
    simp only [htd, decide_true, Bool.true_and]
    exact congrArg (fun k => (v.get k).rep.getLsbD t) (Fin.ext hdiv)
  · simp only [htd, decide_false, Bool.false_and]
    exact (getLsbD_of_lt_two_pow (hv i) (by omega)).symm

/-- **Unpacking undoes packing**, for reduced values of at most d bits. -/
theorem byteDecode_byteEncode (hd12 : d ≤ 12) (hv : FitsBits d v) (hred : ∀ i, (v.get i).Reduced) :
    byteDecode d (byteEncode d v) = v := by
  refine ext_get fun i => Elem.ext_val ?_
  rw [val_byteDecode hd12, rawValue_byteEncode (by omega) hv]
  exact Nat.mod_eq_of_lt (hred i)

/-- **Packing undoes unpacking** exactly if the reduction changes no value. -/
theorem byteEncode_byteDecode_iff (hd12 : d ≤ 12) (bytes : Bytes (32 * d)) :
    byteEncode d (byteDecode d bytes) = bytes ↔ ∀ i, (rawValue d bytes i).toNat < 3329 := by
  have hfits := byteDecode_fitsBits hd12 bytes
  constructor
  · intro h i
    have hraw : rawValue d bytes i = ((byteDecode d bytes).get i).rep := by
      conv_lhs => rw [← h]
      exact rawValue_byteEncode (by omega) hfits i
    rw [hraw]
    exact byteDecode_reduced hd12 bytes i
  · intro h
    refine Bytes.ext_bit fun m hm => ?_
    have hd := width_pos hm
    have hmod := Nat.mod_lt m hd
    rw [bit_byteEncode (by omega) hfits hm, getLsbD_byteDecode hd12 (h _) (by omega), Nat.div_add_mod]
    simp only [hmod, decide_true, Bool.true_and]

theorem byteEncode_byteDecode (hd11 : d < 12) (bytes : Bytes (32 * d)) : byteEncode d (byteDecode d bytes) = bytes :=
  (byteEncode_byteDecode_iff (by omega) bytes).2 (rawValue_reduced hd11 bytes)

/-! ## Vectors -/

section Vectors

variable {k : ℕ}

theorem decodeVec_get (k d : ℕ) (bytes : Bytes (k * (32 * d))) (i : Fin k) :
    (decodeVec k d bytes).polys.get i = ⟨byteDecode d (Bytes.chunk bytes i)⟩ :=
  get_ofFn _ i

theorem decodeNttVec_get (k d : ℕ) (bytes : Bytes (k * (32 * d))) (i : Fin k) :
    (decodeNttVec k d bytes).polys.get i = ⟨byteDecode d (Bytes.chunk bytes i)⟩ :=
  get_ofFn _ i

theorem decodeNttVec_reduced (hd12 : d ≤ 12) (bytes : Bytes (k * (32 * d))) : (decodeNttVec k d bytes).Reduced := by
  intro i
  rw [decodeNttVec_get]
  exact byteDecode_reduced hd12 _

theorem chunk_encodeVec (u : RqVec k) (i : Fin k) :
    Bytes.chunk (encodeVec d u) i = byteEncode d (u.polys.get i).coeffs := by
  rw [encodeVec, Bytes.chunk_join, get_map]

theorem chunk_encodeNttVec (u : TqVec k) (i : Fin k) :
    Bytes.chunk (encodeNttVec d u) i = byteEncode d (u.polys.get i).coeffs := by
  rw [encodeNttVec, Bytes.chunk_join, get_map]

theorem decodeVec_encodeVec (hd12 : d ≤ 12) {u : RqVec k} (hu : ∀ i, FitsBits d (u.polys.get i).coeffs)
    (hred : u.Reduced) : decodeVec k d (encodeVec d u) = u := by
  refine PolyVec.ext_get fun i => ?_
  rw [decodeVec_get, chunk_encodeVec, byteDecode_byteEncode hd12 (hu i) (hred i)]

theorem decodeNttVec_encodeNttVec (hd12 : d ≤ 12) {u : TqVec k} (hu : ∀ i, FitsBits d (u.polys.get i).coeffs)
    (hred : u.Reduced) : decodeNttVec k d (encodeNttVec d u) = u := by
  refine NttVec.ext_get fun i => ?_
  rw [decodeNttVec_get, chunk_encodeNttVec, byteDecode_byteEncode hd12 (hu i) (hred i)]

end Vectors

end PostQuantum.MLKEM
