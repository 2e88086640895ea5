/-
Noise, as it is written for strings of single bits.

Value i of the string takes 2 eta bits. The mask keeps the first eta of them and the shift the others, and each count of
set bits is a sum of bits, so a coefficient is the difference of two sums. A vector of noise is sampled through one
buffer, over the front of which the bytes of each polynomial are written in turn; what the buffer held before, of the
polynomial before or behind the front, is never read.
- `toNat_cpop_low`, `toNat_cpop_high`: the set bits in the two halves of a value, as sums.
- `val_sampleNoise`, `sampleNoise_bounds`: so a coefficient is a difference, and it is small or just below q.
- `Hashes.noiseRound?_eq`: one round through the buffer, whatever it holds.
- `Hashes.noiseRounds?_eq`: all rounds.
- `noise_sampling`: noise on bits, and vectors through the buffer.
-/
import Mathlib.Tactic
import PostQuantum.Proofs.MLKEM.Packing
import PostQuantum.Proofs.MLKEM.Exact.Sampling

namespace PostQuantum

/-! ## Set bits -/

namespace Word

variable {w n : ℕ}

/-- the number of set bits is the sum of the bits -/
theorem toNat_cpop_eq_sum (x : BitVec w) : x.cpop.toNat = ∑ j ∈ Finset.range w, (x.getLsbD j).toNat := by
  have hrun : ∀ n, x.cpopNatRec n 0 = ∑ j ∈ Finset.range n, (x.getLsbD j).toNat := by
    intro n
    induction n with
    | zero => rfl
    | succ n ih => rw [BitVec.cpopNatRec_succ, BitVec.cpopNatRec_eq, ih, Finset.sum_range_succ, Nat.zero_add]
  exact x.toNat_cpop.trans (hrun w)

/-- the bits below a bound of the word are all that there is to count -/
theorem toNat_cpop_of_lt {x : BitVec w} (hx : x.toNat < 2 ^ n) (hn : n ≤ w) :
    x.cpop.toNat = ∑ j ∈ Finset.range n, (x.getLsbD j).toNat := by
  rw [toNat_cpop_eq_sum]
  refine (Finset.sum_subset (Finset.range_mono hn) fun j _ hj => ?_).symm
  rw [getLsbD_of_lt_two_pow hx (by simpa using hj)]
  rfl

/-- the set bits among the first `n` -/
theorem toNat_cpop_low (x : BitVec w) (hn : n < w) :
    (x &&& lowMask w n).cpop.toNat = ∑ j ∈ Finset.range n, (x.getLsbD j).toNat := by
  rw [toNat_cpop_of_lt (and_lowMask_lt hn x) hn.le]
  refine Finset.sum_congr rfl fun j hj => ?_
  simp [getLsbD_lowMask hn, Finset.mem_range.1 hj]

/-- the set bits past the first `n`, in a word of `n` bits more -/
theorem toNat_cpop_high {x : BitVec w} (hx : x.toNat < 2 ^ (n + n)) (hn : n ≤ w) :
    (x >>> n).cpop.toNat = ∑ j ∈ Finset.range n, (x.getLsbD (n + j)).toNat := by
  rw [toNat_cpop_of_lt (ushiftRight_lt hx) hn]
  simp only [BitVec.getLsbD_ushiftRight]

end Word

namespace Bytes

variable {m n : ℕ}

theorem bit_cast (h : m = n) (bs : Bytes m) (t : ℕ) : Bytes.bit (bs.cast h) t = bs.bit t := by
  subst h
  rfl

/-- a sum of bits is at most their number -/
theorem sum_bits_le (bs : Bytes m) (place : ℕ → ℕ) (count : ℕ) :
    ∑ j ∈ Finset.range count, (bs.bit (place j)).toNat ≤ count := by
  have h := Finset.sum_le_card_nsmul (Finset.range count) (fun j => (bs.bit (place j)).toNat) 1 fun j _ =>
    Bool.toNat_le _
  simpa using h

end Bytes

namespace MLKEM

open PrimeField Word InRange

variable {eta : ℕ}

/-! ## Coefficients -/

theorem noiseSize_eq (eta : ℕ) : 64 * eta = 32 * (2 * eta) := by omega

/-- the 2 eta bits that stand for coefficient `i` -/
def noiseValue (eta : ℕ) (bytes : Bytes (64 * eta)) (i : Fin 256) : BitVec 16 :=
  ((byteDecode (2 * eta) (bytes.cast (noiseSize_eq eta))).get i).rep

theorem getLsbD_noiseValue (heta6 : eta < 6) (bytes : Bytes (64 * eta)) (i : Fin 256) {t : ℕ} (ht : t < 16) :
    (noiseValue eta bytes i).getLsbD t = (decide (t < 2 * eta) && bytes.bit (2 * i.val * eta + t)) := by
  have hplace : 2 * eta * i.val + t = 2 * i.val * eta + t := by ring
  refine (getLsbD_byteDecode (by omega) (rawValue_reduced (by omega) _ i) ht).trans ?_
  rw [Bytes.bit_cast, hplace]

theorem toNat_noiseValue_lt (heta6 : eta < 6) (bytes : Bytes (64 * eta)) (i : Fin 256) :
    (noiseValue eta bytes i).toNat < 2 ^ (eta + eta) := by
  rw [← two_mul]
  exact byteDecode_fitsBits (by omega) _ i

/-- **A coefficient of noise** is the set bits among eta less those among the next eta. -/
theorem val_sampleNoise (heta6 : eta < 6) (bytes : Bytes (64 * eta)) (i : Fin 256) :
    (((sampleNoise eta bytes).coeffs.get i).val : ℤ) =
      ((∑ j ∈ Finset.range eta, (bytes.bit (2 * i.val * eta + j)).toNat : ℕ) -
        (∑ j ∈ Finset.range eta, (bytes.bit (2 * i.val * eta + eta + j)).toNat : ℕ) : ℤ) % 3329 := by
  have hlow : (noiseValue eta bytes i &&& lowMask 16 eta).cpop.toNat =
      ∑ j ∈ Finset.range eta, (bytes.bit (2 * i.val * eta + j)).toNat := by
    rw [toNat_cpop_low _ (by omega)]
    refine Finset.sum_congr rfl fun j hj => ?_
    have hj := Finset.mem_range.1 hj
    rw [getLsbD_noiseValue heta6 bytes i (by omega), decide_eq_true (by omega), Bool.true_and]
  have hhigh : (noiseValue eta bytes i >>> eta).cpop.toNat =
      ∑ j ∈ Finset.range eta, (bytes.bit (2 * i.val * eta + eta + j)).toNat := by
    rw [toNat_cpop_high (toNat_noiseValue_lt heta6 bytes i) (by omega)]
    refine Finset.sum_congr rfl fun j hj => ?_
    have hj := Finset.mem_range.1 hj
    rw [getLsbD_noiseValue heta6 bytes i (by omega), decide_eq_true (by omega), Bool.true_and, Nat.add_assoc]
  have hdifference := (Elem.exact_sub (cpop_reduced (noiseValue eta bytes i &&& lowMask 16 eta))
    (cpop_reduced (noiseValue eta bytes i >>> eta))).2.2
  rw [← hlow, ← hhigh, sampleNoise, get_ofFn]
  exact hdifference

/-- **Noise is small**, on either side of zero. -/
theorem sampleNoise_bounds (heta6 : eta < 6) (bytes : Bytes (64 * eta)) (i : Fin 256) :
    ((sampleNoise eta bytes).coeffs.get i).val ≤ eta ∨
      3329 - eta ≤ ((sampleNoise eta bytes).coeffs.get i).val ∧
        ((sampleNoise eta bytes).coeffs.get i).val ≤ 3328 := by
  have hval := val_sampleNoise heta6 bytes i
  have hfirst := bytes.sum_bits_le (fun j => 2 * i.val * eta + j) eta
  have hnext := bytes.sum_bits_le (fun j => 2 * i.val * eta + eta + j) eta
  omega

/-! ## Through one buffer -/

/-- a string over the front of a buffer; what stands behind it stays -/
def overwrite? {n : ℕ} (buffer : List UInt8) (bytes : Bytes n) : Option (List UInt8) := do
  let (front, back) ← splitAt? n buffer
  let front ← fill? front bytes
  some (front ++ back)

theorem overwrite?_eq {n : ℕ} {buffer : List UInt8} (bytes : Bytes n) (h : n ≤ buffer.length) :
    overwrite? buffer bytes = some (bytes.toList ++ buffer.drop n) := by
  refine andThen (splitAt?_eq h) ?_
  refine andThen (fill?_eq (by simp [h])) ?_
  rfl

namespace Hashes

variable (H : Hashes) (seed : Bytes 32) {start : UInt8} {buffer : List UInt8}

/-- polynomial `place` of a noise vector, read from the front of the buffer, and the buffer after that -/
def noiseRound? (eta : ℕ) (seed : Bytes 32) (start : UInt8) (place : ℕ) (buffer : List UInt8) :
    Option (Rq × List UInt8) := do
  let offset ← byteOfIndex? place
  let nonce ← addByte? start offset
  let size ← index? (64 * eta)
  let buffer ← overwrite? buffer (H.prf eta seed nonce)
  let (front, _) ← splitAt? size buffer
  let noise ← sampleNoise? eta front
  some (noise, buffer)

/-- the polynomials of a noise vector at the given places, one after the other through the buffer -/
def noiseRounds? (eta : ℕ) (seed : Bytes 32) (start : UInt8) : (places : List ℕ) → (buffer : List UInt8) →
    Option (List Rq)
  | [], _ => some []
  | place :: places, buffer => do
    let (noise, buffer) ← H.noiseRound? eta seed start place buffer
    let rest ← noiseRounds? eta seed start places buffer
    some (noise :: rest)

/-- **One round** gives the polynomial of its nonce, whatever the buffer holds, and leaves it as long as it was. -/
theorem noiseRound?_eq (heta : 0 < eta) (heta3 : eta ≤ 3) {place : ℕ} (hplace : start.toNat + place < 256)
    (hbuffer : 64 * eta ≤ buffer.length) :
    ∃ after, H.noiseRound? eta seed start place buffer =
      some (sampleNoise eta (H.prf eta seed (start + UInt8.ofNat place)), after) ∧ after.length = buffer.length := by
  have hoffset : (UInt8.ofNat place).toNat = place := Nat.mod_eq_of_lt (by omega)
  set bytes := H.prf eta seed (start + UInt8.ofNat place)
  refine ⟨bytes.toList ++ buffer.drop (64 * eta), ?_, ?_⟩
  · refine andThen (byteOfIndex?_eq (by omega)) ?_
    refine andThen (addByte?_eq (by omega)) ?_
    refine andThen (index?_eq (by omega)) ?_
    refine andThen (overwrite?_eq bytes hbuffer) ?_
    refine andThen (splitAt?_eq (by simp)) ?_
    rw [List.take_left' (by simp)]
    exact andThen (sampleNoise?_eq heta (by omega) bytes) rfl
  · simp [hbuffer]

/-- **All rounds.** What one round leaves in the buffer does not show in the next. -/
theorem noiseRounds?_eq (heta : 0 < eta) (heta3 : eta ≤ 3) {places : List ℕ}
    (hplaces : ∀ place ∈ places, start.toNat + place < 256) (hbuffer : 64 * eta ≤ buffer.length) :
    H.noiseRounds? eta seed start places buffer =
      some (places.map fun place => sampleNoise eta (H.prf eta seed (start + UInt8.ofNat place))) := by
  induction places generalizing buffer with
  | nil => rfl
  | cons place places ih =>
    obtain ⟨after, hround, hafter⟩ := H.noiseRound?_eq seed heta heta3
      (hplaces place List.mem_cons_self) hbuffer
    refine andThen hround ?_
    refine andThen (ih (fun p hp => hplaces p (List.mem_cons_of_mem place hp)) (hafter ▸ hbuffer)) ?_
    rfl

theorem toList_noiseVec (eta k : ℕ) (seed : Bytes 32) (start : UInt8) :
    (H.noiseVec eta k seed start).polys.toList =
      (List.range k).map fun place => sampleNoise eta (H.prf eta seed (start + UInt8.ofNat place)) := by
  refine List.ext_getElem (by simp) fun i _ _ => ?_
  simp [noiseVec]

end Hashes

/-! ## Every string and every buffer -/

/-- **Noise on bits.** For eta from one to three: whatever the bytes, no step of sampling refuses, coefficient i is the
sum of eta bits from bit 2 i eta on less that of the eta bits after them, modulo q, and it is at most eta or at most eta
below q. Whatever the hash functions, the seed and a buffer hold, if the nonces do not wrap, a vector that is sampled
through the buffer refuses no step either, and polynomial i is that of the nonce `start + i`. -/
theorem noise_sampling (heta : 0 < eta) (heta3 : eta ≤ 3) :
    (∀ bytes : Bytes (64 * eta),
      sampleNoise? eta bytes.toList = some (sampleNoise eta bytes) ∧
      ∀ i : Fin 256,
        (((sampleNoise eta bytes).coeffs.get i).val : ℤ) =
          ((∑ j ∈ Finset.range eta, (bytes.bit (2 * i.val * eta + j)).toNat : ℕ) -
            (∑ j ∈ Finset.range eta, (bytes.bit (2 * i.val * eta + eta + j)).toNat : ℕ) : ℤ) % 3329 ∧
        (((sampleNoise eta bytes).coeffs.get i).val ≤ eta ∨
          3329 - eta ≤ ((sampleNoise eta bytes).coeffs.get i).val ∧
            ((sampleNoise eta bytes).coeffs.get i).val ≤ 3328)) ∧
    ∀ (H : Hashes) (k : ℕ) (seed : Bytes 32) (start : UInt8) (buffer : Bytes 192), start.toNat + k ≤ 256 →
      H.noiseRounds? eta seed start (List.range k) buffer.toList = some (H.noiseVec eta k seed start).polys.toList ∧
      ∀ i : Fin k, (H.noiseVec eta k seed start).polys.get i =
        sampleNoise eta (H.prf eta seed (UInt8.ofNat (start.toNat + i.val))) := by
  refine ⟨fun bytes => ⟨sampleNoise?_eq heta (by omega) bytes, fun i => ?_⟩, ?_⟩
  · exact ⟨val_sampleNoise (by omega) bytes i, sampleNoise_bounds (by omega) bytes i⟩
  · intro H k seed start buffer hstart
    constructor
    · rw [H.toList_noiseVec]
      refine H.noiseRounds?_eq seed heta heta3 (fun place hplace => ?_) (by simp; omega)
      have hlt := List.mem_range.1 hplace
      omega
    · intro i
      have hnonce : UInt8.ofNat (start.toNat + i.val) = start + UInt8.ofNat i.val := by
        rw [UInt8.ofNat_add, UInt8.ofNat_toNat]
      rw [hnonce]
      exact get_ofFn _ i

/-- bytes 0x38 have three set bits after three that are not set, so noise is -3; nonces 253, 254 and 255 do not wrap -/
theorem noise_sampling_three :
    let bytes : Bytes (64 * 3) := Vector.replicate (64 * 3) 0x38
    let H := Hashes.standard
    let seed := Bytes.zeros 32
    let buffer : Bytes 192 := Vector.replicate 192 0xff
    0 < 3 ∧ 3 ≤ 3 ∧ sampleNoise? 3 bytes.toList = some (sampleNoise 3 bytes) ∧
      ((sampleNoise 3 bytes).coeffs.get 0).val = 3326 ∧
      (253 : UInt8).toNat + 3 ≤ 256 ∧
      H.noiseRounds? 3 seed 253 (List.range 3) buffer.toList = some (H.noiseVec 3 3 seed 253).polys.toList ∧
      (H.noiseVec 3 3 seed 253).polys.get 2 = sampleNoise 3 (H.prf 3 seed 255) := by
  intro bytes H seed buffer
  obtain ⟨hbytes, hvectors⟩ := noise_sampling (show 0 < 3 by norm_num) le_rfl
  obtain ⟨hsample, hcoeffs⟩ := hbytes bytes
  have hcoeff := (hcoeffs 0).1
  have hbits : ((∑ j ∈ Finset.range 3, (bytes.bit (2 * 0 * 3 + j)).toNat : ℕ) -
      (∑ j ∈ Finset.range 3, (bytes.bit (2 * 0 * 3 + 3 + j)).toNat : ℕ) : ℤ) % 3329 = 3326 := by decide +kernel
  obtain ⟨hrounds, hpolys⟩ := hvectors H 3 seed 253 buffer (by decide)
  exact ⟨by norm_num, le_rfl, hsample, Int.ofNat_inj.1 (hcoeff.trans hbits), by decide, hrounds, hpolys 2⟩

end MLKEM

end PostQuantum
