/-
When decryption gives the message back.

A message bit stands for 0 or 1665, and one bit of compression tells the two apart in noise. The thresholds are not
symmetric: around 0 the noise may lie between -832 and 832, around 1665 between -832 and 831 (`compress_around_zero`,
`compress_around_half`). A message comes back exactly if all of its 256 bits do (`decrypt_encrypt`), so without noise it
always does (`decrypt_encrypt_of_noiseless`), and then the vector part of every ciphertext is zeros
(`bit_encrypt_of_noiseless`).
-/
import Mathlib.Tactic
import Mathlib.Data.ZMod.ValMinAbs
import PostQuantum.Proofs.MLKEM.Encryption

namespace PostQuantum.MLKEM

open PrimeField Word

variable {p : ParameterSet} {x : Coeff}

/-! ## One coefficient -/

theorem compress_one_eq_one_iff (hx : x.Reduced) : compress 1 x = 1 ↔ 833 ≤ x.val ∧ x.val ≤ 2496 := by
  have hx' : x.val ≤ 3328 := Nat.le_of_lt_succ hx
  have hval := val_compress (d := 1) (by norm_num) hx
  constructor
  · intro h
    rw [h] at hval
    change 1 = _ at hval
    omega
  · intro h
    refine Elem.ext_val (hval.trans ?_)
    change _ = 1
    omega

/-- the representation of a coefficient that is known modulo q -/
theorem val_of_residue_eq_intCast (hx : x.Reduced) {c : ℤ} (h : x.residue = (c : Zq)) : (x.val : ℤ) = c % 3329 := by
  have hcast : ((x.val : ℤ) : Zq) = (c : Zq) := by
    rw [← h]
    exact Int.cast_natCast _
  have hmod : (x.val : ℤ) % 3329 = c % 3329 := (ZMod.intCast_eq_intCast_iff ..).1 hcast
  have hlt : x.val < 3329 := hx
  omega

theorem centered_bounds (n : Zq) : -1664 ≤ n.valMinAbs ∧ n.valMinAbs ≤ 1664 := by
  obtain ⟨hlow, hhigh⟩ := ZMod.valMinAbs_mem_Ioc n
  change -(3329 : ℤ) < _ at hlow
  change _ ≤ (3329 : ℤ) at hhigh
  omega

/-- noise around 0 is told to be 0 up to 832 on either side -/
theorem compress_around_zero (hx : x.Reduced) {n : Zq} (h : x.residue = n) :
    compress 1 x = 0 ↔ -832 ≤ n.valMinAbs ∧ n.valMinAbs ≤ 832 := by
  obtain ⟨hlow, hhigh⟩ := centered_bounds n
  have hval := val_of_residue_eq_intCast (c := n.valMinAbs) hx (h.trans n.coe_valMinAbs.symm)
  rw [compress_one_eq_zero_iff hx]
  omega

/-- noise around 1665 is told to be 1665 up to 832 below and 831 above -/
theorem compress_around_half (hx : x.Reduced) {n : Zq} (h : x.residue = (1665 : ℕ) + n) :
    compress 1 x = 1 ↔ -832 ≤ n.valMinAbs ∧ n.valMinAbs ≤ 831 := by
  obtain ⟨hlow, hhigh⟩ := centered_bounds n
  have hcast : x.residue = ((1665 + n.valMinAbs : ℤ) : Zq) := by
    rw [h, Int.cast_add, n.coe_valMinAbs]
    rfl
  have hval := val_of_residue_eq_intCast hx hcast
  rw [compress_one_eq_one_iff hx]
  omega

/-- a bit in noise is told right exactly if the noise keeps to the bounds for the bit -/
theorem compress_bit_iff (hx : x.Reduced) (bit : Bool) {n : Zq}
    (h : x.residue = (if bit then Elem.ofNat z3329 1665 else 0 : Coeff).residue + n) :
    compress 1 x = (if bit then 1 else 0) ↔
      (bit = false → -832 ≤ n.valMinAbs ∧ n.valMinAbs ≤ 832) ∧
      (bit = true → -832 ≤ n.valMinAbs ∧ n.valMinAbs ≤ 831) := by
  cases bit with
  | false =>
    rw [if_neg Bool.false_ne_true, Elem.residue_zero, zero_add] at h
    simpa using compress_around_zero hx h
  | true =>
    rw [if_pos rfl, Elem.residue_ofNat (by decide)] at h
    simpa using compress_around_half hx h

/-! ## One message -/

/-- one value for each bit -/
theorem byteDecode_one_get (m : Bytes 32) (i : Fin 256) :
    (byteDecode 1 m).get i = if m.bit i.val then 1 else 0 := by
  have hlt : ((byteDecode 1 m).get i).val < 2 := byteDecode_fitsBits (d := 1) (by norm_num) m i
  have hbit : ((byteDecode 1 m).get i).val.testBit 0 = m.bit i.val := by
    have h := getLsbD_byteDecode (d := 1) (by norm_num) (rawValue_reduced (by norm_num) m i) (t := 0) (by norm_num)
    rw [Nat.one_mul, Nat.add_zero] at h
    exact h
  rw [Nat.testBit_zero] at hbit
  refine Elem.ext_val ?_
  cases h : m.bit i.val with
  | false =>
    rw [h, decide_eq_false_iff_not] at hbit
    change _ = 0
    omega
  | true =>
    rw [h, decide_eq_true_iff] at hbit
    change _ = 1
    omega

theorem messagePoly_get (m : Bytes 32) (i : Fin 256) :
    (messagePoly m).coeffs.get i = if m.bit i.val then Elem.ofNat z3329 1665 else 0 := by
  unfold messagePoly
  rw [decompressPoly_get, byteDecode_one_get]
  split
  · exact decompress_one_one
  · exact decompress_one_zero

theorem noisyMessage_reduced (dk : DecryptionKey p) (c : Bytes p.ciphertextSize) : (dk.noisyMessage c).Reduced :=
  Rq.reduced_sub (ciphertextParts_reduced p c).2 (nttInverse_reduced _)

/-- a ciphertext decrypts to a message exactly if each coefficient is told to be the bit of the message -/
theorem decrypt_eq_iff (dk : DecryptionKey p) (c : Bytes p.ciphertextSize) (m : Bytes 32) :
    dk.decrypt c = m ↔ ∀ i, compress 1 ((dk.noisyMessage c).coeffs.get i) = (byteDecode 1 m).get i := by
  set w := dk.noisyMessage c with hw
  have hdecode : byteDecode 1 (byteEncode 1 (compressPoly 1 w).coeffs) = (compressPoly 1 w).coeffs :=
    byteDecode_byteEncode (by norm_num) (compressPoly_fitsBits (by norm_num) w) (compressPoly_reduced (by norm_num) w)
  have hencode : byteEncode 1 (byteDecode 1 m) = m := byteEncode_byteDecode (d := 1) (by norm_num) m
  have hdecrypt : dk.decrypt c = byteEncode 1 (compressPoly 1 w).coeffs := rfl
  rw [hdecrypt]
  constructor
  · intro h i
    rw [← compressPoly_get, ← hdecode, h]
  · intro h
    have hcoeffs : (compressPoly 1 w).coeffs = byteDecode 1 m := ext_get fun i => by
      rw [compressPoly_get]
      exact h i
    rw [hcoeffs]
    exact hencode

/-! ## Without noise -/

/-- noise is drawn from zeros -/
def Hashes.Noiseless (H : Hashes) : Prop := ∀ eta seed nonce, H.prf eta seed nonce = Bytes.zeros (64 * eta)

/-- the functions of the standard, but for the noise, which is drawn from zeros -/
def Hashes.noiseless : Hashes := { Hashes.standard with prf := fun eta _ _ => Bytes.zeros (64 * eta) }

theorem Hashes.noiseless_noiseless : Hashes.noiseless.Noiseless := fun _ _ _ => rfl

theorem rawValue_zeros {d : ℕ} (hd16 : d ≤ 16) (i : Fin 256) : rawValue d (Bytes.zeros (32 * d)) i = 0#16 := by
  refine BitVec.eq_of_getLsbD_eq fun t ht => ?_
  have hbit : (Bytes.zeros (32 * d)).bit (d * i.val + t) = false := by
    unfold Bytes.bit Bytes.zeros
    split
    · rw [get_replicate]
      exact BitVec.getLsbD_zero
    · rfl
  rw [getLsbD_rawValue hd16 _ i ht, hbit, Bool.and_false, BitVec.getLsbD_zero]

theorem byteDecode_zeros {d : ℕ} (hd12 : d ≤ 12) (i : Fin 256) : (byteDecode d (Bytes.zeros (32 * d))).get i = 0 := by
  refine Elem.ext_val ?_
  rw [val_byteDecode hd12, rawValue_zeros (by omega)]
  rfl

theorem value_sampleNoise_zeros {eta : ℕ} (heta : 2 * eta ≤ 12) :
    value (sampleNoise eta (Bytes.zeros (64 * eta))) = 0 := by
  have hcast : (Bytes.zeros (64 * eta)).cast (by omega) = Bytes.zeros (32 * (2 * eta)) :=
    Vector.ext fun j hj => by simp [Bytes.zeros]
  have hcounts : (⟨(0#16 &&& lowMask 16 eta).cpop⟩ : Coeff) - ⟨(0#16 >>> eta).cpop⟩ = 0 := by
    rw [BitVec.zero_and, BitVec.zero_ushiftRight]
    decide
  funext i
  have hget : (sampleNoise eta (Bytes.zeros (64 * eta))).coeffs.get i = 0 := by
    unfold sampleNoise
    rw [get_ofFn, hcast, byteDecode_zeros heta]
    exact hcounts
  exact (congrArg Elem.residue hget).trans Elem.residue_zero

theorem lossy_messagePoly (p : ParameterSet) (m : Bytes 32) : lossy p.dv (messagePoly m) = messagePoly m := by
  have hbit : ∀ bit : Bool, decompress p.dv (compress p.dv (if bit then Elem.ofNat z3329 1665 else 0)) =
      if bit then Elem.ofNat z3329 1665 else 0 := by
    cases p <;> decide
  refine Poly.ext_get fun i => ?_
  unfold lossy
  rw [decompressPoly_get, compressPoly_get, messagePoly_get, hbit]

section Noiseless

variable {H : Hashes} (hH : H.Noiseless) (d m r : Bytes 32)
include hH

theorem value_noiseVec_of_noiseless {eta k : ℕ} (heta : 2 * eta ≤ 12) (seed : Bytes 32) (start : UInt8) (i : Fin k) :
    value ((H.noiseVec eta k seed start).polys.get i) = 0 := by
  unfold Hashes.noiseVec
  rw [get_ofFn, hH]
  exact value_sampleNoise_zeros heta

theorem decryptionNoise_of_noiseless : decryptionNoise H p d m r = 0 := by
  have heta1 : 2 * p.eta1 ≤ 12 := by cases p <;> decide
  have heta2 : 2 * p.eta2 ≤ 12 := by cases p <;> decide
  have hephemeral : ∀ i, value ((ephemeral H p r).polys.get i) = 0 := value_noiseVec_of_noiseless hH heta1 _ _
  have hsecret : ∀ i, value ((secret H p d).polys.get i) = 0 := value_noiseVec_of_noiseless hH heta1 _ _
  have hscalar : value (scalarError H p r) = 0 := by
    unfold scalarError
    rw [hH]
    exact value_sampleNoise_zeros heta2
  -- nothing is added to the message polynomial, and compression keeps it as it is
  have hmessage : ((keyPair H p d).2.noisyParts H m r).2 = messagePoly m := by
    refine eq_of_value_eq (noisyParts_reduced H p m r _).2 (messagePoly_reduced m) ?_
    rw [value_scalarPart H p m r (tHat_reduced H p d)]
    simp only [hephemeral, hscalar, mul_zero, Finset.sum_const_zero, zero_add]
  have hcompression : compressionError p.dv ((keyPair H p d).2.noisyParts H m r).2 = 0 := by
    unfold compressionError
    rw [hmessage, lossy_messagePoly, sub_self]
  unfold decryptionNoise
  simp only [hephemeral, hsecret, hscalar, hcompression, mul_zero, zero_mul, Finset.sum_const_zero, add_zero, sub_zero]

/-- without noise every message comes back -/
theorem decrypt_encrypt_of_noiseless : (keyPair H p d).1.decrypt ((keyPair H p d).2.encrypt H m r) = m := by
  rw [decrypt_eq_iff]
  intro i
  have hred := noisyMessage_reduced (keyPair H p d).1 ((keyPair H p d).2.encrypt H m r) i
  have hcoeff : (((keyPair H p d).1.noisyMessage ((keyPair H p d).2.encrypt H m r)).coeffs.get i).residue =
      ((messagePoly m).coeffs.get i).residue + 0 := by
    have h := congrFun (value_noisyMessage H p d m r) i
    rw [decryptionNoise_of_noiseless hH] at h
    exact h
  rw [messagePoly_get] at hcoeff
  rw [byteDecode_one_get]
  refine (compress_bit_iff hred _ hcoeff).2 ?_
  rw [ZMod.valMinAbs_zero]
  norm_num

theorem vectorPart_of_noiseless (ek : EncryptionKey p) (i : Fin p.k) (j : Fin 256) :
    ((ek.noisyParts H m r).1.polys.get i).coeffs.get j = 0 := by
  have heta1 : 2 * p.eta1 ≤ 12 := by cases p <;> decide
  have heta2 : 2 * p.eta2 ≤ 12 := by cases p <;> decide
  have hephemeral : ∀ i, value ((ephemeral H p r).polys.get i) = 0 := value_noiseVec_of_noiseless hH heta1 _ _
  have herror : value ((vectorErrors H p r).polys.get i) = 0 := value_noiseVec_of_noiseless hH heta2 _ _ i
  have hvalue := value_vectorPart H p m r ek i
  simp only [hephemeral, herror, mul_zero, Finset.sum_const_zero, add_zero] at hvalue
  have hresidue : (((ek.noisyParts H m r).1.polys.get i).coeffs.get j).residue = 0 := congrFun hvalue j
  exact Elem.eq_of_residue_eq ((noisyParts_reduced H p m r ek).1 i j) Elem.reduced_zero
    (hresidue.trans Elem.residue_zero.symm)

/-- without noise the vector part of every ciphertext is zeros -/
theorem bit_encrypt_of_noiseless (ek : EncryptionKey p) (i : Fin p.k) {n : ℕ} (hn : n < 8 * (32 * p.du)) :
    (Bytes.chunk (Bytes.split (ek.encrypt H m r)).1 i).bit n = false := by
  have hdu16 : p.du ≤ 16 := by cases p <;> decide
  have hzero : compress p.du 0 = 0 := by cases p <;> decide
  have hsplit : Bytes.split (ek.encrypt H m r) = (encodeVec p.du (compressVec p.du (ek.noisyParts H m r).1),
      byteEncode p.dv (compressPoly p.dv (ek.noisyParts H m r).2).coeffs) := Bytes.split_append _ _
  rw [hsplit, chunk_encodeVec, compressVec_get, bit_byteEncode hdu16 (compressPoly_fitsBits hdu16 _) hn,
    compressPoly_get, vectorPart_of_noiseless hH, hzero]
  exact BitVec.getLsbD_zero

end Noiseless

/-! ## In noise -/

/-- **Decryption of encryption.** For every seed, message and randomness, decryption forms the message polynomial in
noise, and it gives the message back exactly if the noise beside a clear bit lies between -832 and 832 and beside a set
bit between -832 and 831. -/
theorem decrypt_encrypt (H : Hashes) (p : ParameterSet) (d m r : Bytes 32) :
    let dk := (keyPair H p d).1
    let ek := (keyPair H p d).2
    let c := ek.encrypt H m r
    let n := decryptionNoise H p d m r
    value (dk.noisyMessage c) = value (messagePoly m) + n ∧
    (∀ i, -1664 ≤ (n i).valMinAbs ∧ (n i).valMinAbs ≤ 1664) ∧
    (dk.decrypt c = m ↔ ∀ i : Fin 256,
      (m.bit i.val = false → -832 ≤ (n i).valMinAbs ∧ (n i).valMinAbs ≤ 832) ∧
      (m.bit i.val = true → -832 ≤ (n i).valMinAbs ∧ (n i).valMinAbs ≤ 831)) := by
  have hvalue := value_noisyMessage H p d m r
  refine ⟨hvalue, fun i => centered_bounds _, ?_⟩
  rw [decrypt_eq_iff]
  refine forall_congr' fun i => ?_
  have hred := noisyMessage_reduced (keyPair H p d).1 ((keyPair H p d).2.encrypt H m r) i
  have hcoeff : (((keyPair H p d).1.noisyMessage ((keyPair H p d).2.encrypt H m r)).coeffs.get i).residue =
      ((messagePoly m).coeffs.get i).residue + decryptionNoise H p d m r i := congrFun hvalue i
  rw [messagePoly_get] at hcoeff
  rw [byteDecode_one_get]
  exact compress_bit_iff hred _ hcoeff

end PostQuantum.MLKEM
