/-
Sampling with steps that refuse to go wrong.

Rejection sampling writes into a vector of 256 coefficients, at a place that moves up with each one that is kept. Here
it has no value if a byte is read past its block or a coefficient is written past the vector, if one that is kept is not
reduced, or if it goes on after the blocks of its stream and three blocks of zeros. Noise refuses what unpacking and the
arithmetic refuse, and nonces that wrap.
- `Filling.sampler`: the state of the loop, as the loop that only lists what it accepts has it.
- `Filling.step?_eq`: one round refuses no step, and does what a round of that loop does.
- `Filling.rounds?_holds`, `sampleUniform?_eq`: so does the whole loop, and it ends.
- `sampleNoise?_eq`, `noiseVec?_eq`, `matrix?_eq`: noise polynomials and the matrix, for every hash function.
-/
import Mathlib.Tactic
import PostQuantum.Proofs.MLKEM.Exact.Packing
import PostQuantum.Proofs.MLKEM.Rejection
import PostQuantum.Proofs.MLKEM.Sampling

namespace PostQuantum.MLKEM

open PrimeField InRange
open Elem (onReduced reduced?_eq onReduced_sub?)

/-! ## Candidates -/

/-- the first candidate of three bytes -/
def lowCandidate? (b0 b1 : UInt8) : Option (BitVec 16) := do
  let low ← Word.resize? 16 b0.toBitVec
  let high ← Word.resize? 16 b1.toBitVec
  let placed ← shiftUp? (high &&& 0x0f) 8
  some (low ||| placed)

/-- the second candidate of three bytes -/
def highCandidate? (b1 b2 : UInt8) : Option (BitVec 16) := do
  let low ← Word.resize? 16 b1.toBitVec
  let moved ← shiftDown? low 4
  let high ← Word.resize? 16 b2.toBitVec
  let placed ← shiftUp? high 4
  some (moved ||| placed)

theorem widen_byte (b : UInt8) : Word.resize? 16 b.toBitVec = some (b.toBitVec.setWidth 16) :=
  Word.resize?_eq_some_iff.2 (toNat_widened_byte b)

theorem lowCandidate?_eq (b0 b1 : UInt8) : lowCandidate? b0 b1 = some (lowCandidate b0 b1).rep := by
  refine andThen (widen_byte b0) ?_
  refine andThen (widen_byte b1) ?_
  refine andThen (shiftUp?_eq (by norm_num) ?_) ?_
  · rw [toNat_low_half]
    omega
  · rfl

theorem highCandidate?_eq (b1 b2 : UInt8) : highCandidate? b1 b2 = some (highCandidate b1 b2).rep := by
  have hb2 : b2.toNat < 2 ^ 8 := b2.toNat_lt
  refine andThen (widen_byte b1) ?_
  refine andThen (shiftDown?_eq (by norm_num)) ?_
  refine andThen (widen_byte b2) ?_
  refine andThen (shiftUp?_eq (by norm_num) ?_) ?_
  · rw [toNat_widened_byte]
    omega
  · rfl

/-! ## Rejection sampling -/

/-- the loop between two groups: the coefficients written so far, how many, and where it is in the stream -/
structure Filling where
  out : Vector Coeff 256
  count : ℕ
  block : Block
  blocks : ℕ
  position : ℕ

namespace Filling

/-- nothing is written, and no block is at hand -/
def start : Filling := ⟨Vector.replicate 256 0, 0, Bytes.zeros 168, 0, 168⟩

/-- read a block if the one at hand is used up -/
def refill (stream : ℕ → UInt8) (t : Filling) : Filling :=
  if t.position = 168 then { t with block := blockAt stream t.blocks, blocks := t.blocks + 1, position := 0 } else t

/-- write a coefficient at the next place -/
def put? (t : Filling) (c : BitVec 16) : Option Filling := do
  let c ← Elem.reduced? (F := z3329) ⟨c⟩
  let out ← write? t.out t.count c
  let count ← index? (t.count + 1)
  some { t with out := out, count := count }

/-- write a candidate at the next place if it is below q -/
def keepFirst? (t : Filling) (c : BitVec 16) : Option Filling :=
  if c.toNat < 3329 then t.put? c else some t

/-- write a candidate at the next place if it is below q and there is room left -/
def keepSecond? (t : Filling) (c : BitVec 16) : Option Filling :=
  if c.toNat < 3329 ∧ t.count < 256 then t.put? c else some t

/-- one round on the block at hand -/
def readGroup? (t : Filling) : Option Filling := do
  let stop ← index? (t.position + 3)
  let b0 ← t.block[t.position]?
  let b1 ← t.block[t.position + 1]?
  let b2 ← t.block[t.position + 2]?
  let first ← lowCandidate? b0 b1
  let second ← highCandidate? b1 b2
  let t ← keepFirst? { t with position := stop } first
  t.keepSecond? second

/-- one round -/
def step? (stream : ℕ → UInt8) (t : Filling) : Option Filling := (t.refill stream).readGroup?

/-- round after round, as long as there is room, but no more than `fuel` -/
def rounds? (stream : ℕ → UInt8) : (fuel : ℕ) → Filling → Option Filling
  | 0, t => if t.count < 256 then none else some t
  | fuel + 1, t => if t.count < 256 then t.step? stream >>= rounds? stream fuel else some t

/-- the state with what has been written as a list -/
def sampler (t : Filling) : Sampler := ⟨t.out.toList.take t.count, t.block, t.blocks, t.position⟩

end Filling

/-- what is sampled from a stream, within its blocks and three more -/
def sampleUniform? (s : ByteStream) : Option Tq := do
  let t ← Filling.rounds? s.byte (56 * (s.count + 3)) .start
  some ⟨t.out⟩

namespace Filling

variable {stream : ℕ → UInt8} {t : Filling} {g last : ℕ}

theorem length_accepted (h : t.count ≤ 256) : t.sampler.accepted.length = t.count := by
  simp [sampler, h]

theorem refill_sampler (stream : ℕ → UInt8) (t : Filling) : (t.refill stream).sampler = t.sampler.refill stream := by
  unfold refill Sampler.refill
  by_cases hfull : t.position = 168
  · rw [if_pos hfull, if_pos (show t.sampler.position = 168 from hfull)]
    rfl
  · rw [if_neg hfull, if_neg (show ¬t.sampler.position = 168 from hfull)]

theorem refill_count (stream : ℕ → UInt8) (t : Filling) : (t.refill stream).count = t.count := by
  unfold refill
  split
  · rfl
  · rfl

/-- one more coefficient -/
theorem put?_eq {c : Coeff} (hc : c.Reduced) (hroom : t.count < 256) :
    ∃ t', t.put? c.rep = some t' ∧ t'.count = t.count + 1 ∧
      t'.sampler = { t.sampler with accepted := t.sampler.accepted ++ [c] } := by
  refine ⟨{ t with out := t.out.setIfInBounds t.count c, count := t.count + 1 }, ?_, rfl, ?_⟩
  · refine andThen (reduced?_eq hc) ?_
    refine andThen (write?_eq c hroom) ?_
    refine andThen (index?_eq (by omega)) ?_
    rfl
  · have hlist : (t.out.setIfInBounds t.count c).toList.take (t.count + 1) = t.out.toList.take t.count ++ [c] := by
      have hlength : t.count < (t.out.toList.set t.count c).length := by simpa using hroom
      rw [Vector.toList_setIfInBounds, List.take_add_one, List.getElem?_eq_getElem hlength, List.getElem_set_self,
        List.take_set_of_le le_rfl]
      rfl
    simp only [sampler, hlist]

theorem keepFirst?_eq (c : Coeff) (hroom : t.count < 256) :
    ∃ t', t.keepFirst? c.rep = some t' ∧ t'.count ≤ 256 ∧
      t'.sampler = { t.sampler with accepted := Sampler.keepFirst t.sampler.accepted c } := by
  unfold keepFirst? Sampler.keepFirst
  by_cases hc : c.Reduced
  · obtain ⟨t', hput, hcount, hsampler⟩ := put?_eq hc hroom
    exact ⟨t', (if_pos hc).trans hput, by omega, by rw [if_pos hc, hsampler]⟩
  · exact ⟨t, if_neg hc, hroom.le, by rw [if_neg hc]⟩

theorem keepSecond?_eq (c : Coeff) (hcount : t.count ≤ 256) :
    ∃ t', t.keepSecond? c.rep = some t' ∧ t'.count ≤ 256 ∧
      t'.sampler = { t.sampler with accepted := Sampler.keepSecond t.sampler.accepted c } := by
  unfold keepSecond? Sampler.keepSecond
  rw [length_accepted hcount]
  by_cases hboth : c.Reduced ∧ t.count < 256
  · obtain ⟨t', hput, hcount', hsampler⟩ := put?_eq hboth.1 hboth.2
    exact ⟨t', (if_pos hboth).trans hput, by omega, by rw [if_pos hboth, hsampler]⟩
  · exact ⟨t, if_neg hboth, hcount, by rw [if_neg hboth]⟩

/-- a round on block `b`, in which the next group lies at place `i` -/
theorem readGroup?_eq {i b : ℕ} (hblock : t.block = blockAt stream b) (hposition : t.position = i) (hi : i + 2 < 168)
    (hplace : 168 * b + i = 3 * g) (hroom : t.count < 256) :
    ∃ t', t.readGroup? = some t' ∧ t'.count ≤ 256 ∧ t'.sampler =
      ⟨Sampler.keepSecond (Sampler.keepFirst t.sampler.accepted (lowCandidate (stream (3 * g)) (stream (3 * g + 1))))
        (highCandidate (stream (3 * g + 1)) (stream (3 * g + 2))), t.block, t.blocks, i + 3⟩ := by
  obtain ⟨t1, ht1, hcount1, hsampler1⟩ := keepFirst?_eq (t := { t with position := i + 3 })
    (lowCandidate (stream (3 * g)) (stream (3 * g + 1))) hroom
  obtain ⟨t2, ht2, hcount2, hsampler2⟩ := keepSecond?_eq (t := t1)
    (highCandidate (stream (3 * g + 1)) (stream (3 * g + 2))) hcount1
  refine ⟨t2, ?_, hcount2, ?_⟩
  · have hbyte : ∀ j < 168, t.block[j]? = some (stream (168 * b + j)) := fun j hj => by
      rw [hblock]
      exact get_blockAt stream b hj
    have h0 := hbyte i (by omega)
    have h1 := hbyte (i + 1) (by omega)
    have h2 := hbyte (i + 2) hi
    rw [hplace] at h0
    rw [← Nat.add_assoc, hplace] at h1 h2
    subst hposition
    refine andThen (index?_eq (by omega)) ?_
    refine andThen h0 ?_
    refine andThen h1 ?_
    refine andThen h2 ?_
    refine andThen (lowCandidate?_eq _ _) ?_
    refine andThen (highCandidate?_eq _ _) ?_
    exact andThen ht1 ht2
  · rw [hsampler2, hsampler1]
    rfl

/-- **One round** refuses no step, and does what a round of the loop over a list does. -/
theorem step?_eq (h : t.sampler.Holds stream g) (hroom : t.count < 256) :
    ∃ t', t.step? stream = some t' ∧ t'.count ≤ 256 ∧ t'.sampler.Holds stream (g + 1) := by
  obtain ⟨i, b, hi, hplace, hrefill, hstep⟩ := Sampler.step?_eq h
  obtain ⟨s', hstep', hholds⟩ := Sampler.step_holds h (by rwa [length_accepted hroom.le])
  obtain rfl := Option.some.inj (hstep.symm.trans hstep')
  -- the block at hand after a block was read if it had to be
  obtain ⟨haccepted, hblock, hblocks, hposition⟩ := Sampler.mk.inj ((refill_sampler stream t).trans hrefill)
  obtain ⟨t', hread, hcount, hsampler⟩ := readGroup?_eq hblock hposition hi hplace
    ((refill_count stream t).trans_lt hroom)
  refine ⟨t', hread, hcount, ?_⟩
  have hbefore : (t.refill stream).sampler.accepted = t.sampler.accepted := haccepted
  rw [hsampler, hbefore, hblock, hblocks]
  exact hholds

theorem count_of_completes (hlast : Completes stream last) (hcount : t.count ≤ 256)
    (h : t.sampler.Holds stream (last / 2 + 1)) : t.count = 256 := by
  have hfull : 256 ≤ (acceptedAmong stream (2 * (last / 2 + 1))).length := hlast.le_length (by omega)
  rw [← length_accepted hcount, h.length]
  exact Nat.min_eq_left hfull

/-- **All rounds.** With fuel for them, the loop goes on to the group of the candidate that completes the list. -/
theorem rounds?_holds (fuel : ℕ) (hlast : Completes stream last) (hg : g ≤ last / 2 + 1)
    (hfuel : last / 2 + 1 ≤ g + fuel) (hcount : t.count ≤ 256) (h : t.sampler.Holds stream g) :
    ∃ t', rounds? stream fuel t = some t' ∧ t'.count = 256 ∧ t'.sampler.Holds stream (last / 2 + 1) := by
  -- the rounds that are left are what fuel there is for
  induction fuel generalizing t g with
  | zero =>
    obtain rfl : g = last / 2 + 1 := Nat.le_antisymm hg hfuel
    have hfull := count_of_completes hlast hcount h
    exact ⟨t, if_neg hfull.not_lt, hfull, h⟩
  | succ fuel ih =>
    rcases Nat.lt_or_ge g (last / 2 + 1) with hlt | hge
    · have hroom : t.count < 256 := by
        rw [← length_accepted hcount, h.length]
        exact (Nat.min_le_right _ _).trans_lt (hlast.length_lt (by omega))
      obtain ⟨t1, hstep, hcount1, h1⟩ := step?_eq h hroom
      obtain ⟨t', hrest, hend⟩ := ih hlt (by omega) hcount1 h1
      exact ⟨t', (if_pos hroom).trans (andThen hstep hrest), hend⟩
    · obtain rfl : g = last / 2 + 1 := Nat.le_antisymm hg hge
      have hfull := count_of_completes hlast hcount h
      exact ⟨t, if_neg hfull.not_lt, hfull, h⟩

end Filling

/-- **Rejection sampling** refuses no step, and it ends. -/
theorem sampleUniform?_eq (s : ByteStream) : sampleUniform? s = some (sampleUniform s) := by
  obtain ⟨last, hlast⟩ := s.exists_completes
  have hlt := s.completes_lt hlast
  obtain ⟨t, hrounds, hfull, h⟩ := Filling.rounds?_holds (g := 0) (t := .start) (56 * (s.count + 3)) hlast
    (Nat.zero_le _) (by omega) (Nat.zero_le _) (Sampler.start_holds s.byte)
  refine andThen hrounds (congrArg some (eq_of_map ?_))
  -- the coefficients that are accepted are all there are
  have hall : t.sampler.accepted = t.out.toList := by
    rw [Filling.sampler, hfull, List.take_of_length_le (by simp)]
  rw [map_sampleUniform s hlast, ← hlast.take (n := 2 * (last / 2 + 1)) (by omega), ← h.accepted, hall]

/-! ## Noise -/

/-- the number of bits set in a word, as an element -/
def countOnes? (v : BitVec 16) : Option Coeff := do
  let count ← Word.resize? 32 v.cpop
  let rep ← Word.resize? 16 count
  Elem.reduced? ⟨rep⟩

/-- the set bits of a word among those of `mask` less those past the lowest `eta` -/
def noiseCoeff? (eta : ℕ) (mask v : BitVec 16) : Option Coeff := do
  let x ← countOnes? (v &&& mask)
  let moved ← shiftDown? v eta
  let y ← countOnes? moved
  onReduced Elem.sub? x y

/-- coefficient by coefficient, the set bits among the first `eta` less those among the next `eta` -/
def sampleNoise? (eta : ℕ) (bytes : List UInt8) : Option Rq := do
  let mask ← lowMask? 16 eta
  let bytes ← Bytes.ofList? (32 * (2 * eta)) bytes
  let values ← byteDecode? (2 * eta) bytes
  let coeffs ← Vector.ofFnM fun i => noiseCoeff? eta mask (values.get i).rep
  some ⟨coeffs⟩

theorem countOnes?_eq (v : BitVec 16) : countOnes? v = some ⟨v.cpop⟩ := by
  have hwide : (v.cpop.setWidth 32).toNat = v.cpop.toNat := by
    rw [BitVec.toNat_setWidth]
    exact Nat.mod_eq_of_lt (v.cpop.isLt.trans (by norm_num))
  refine andThen (Word.resize?_eq_some_iff.2 hwide) ?_
  refine andThen (Word.resize?_eq_some_iff.2 hwide.symm) ?_
  exact reduced?_eq (cpop_reduced v)

theorem noiseCoeff?_eq {eta : ℕ} (heta : eta < 16) (mask v : BitVec 16) :
    noiseCoeff? eta mask v = some ((⟨(v &&& mask).cpop⟩ : Coeff) - ⟨(v >>> eta).cpop⟩) := by
  refine andThen (countOnes?_eq _) ?_
  refine andThen (shiftDown?_eq heta) ?_
  refine andThen (countOnes?_eq _) ?_
  exact onReduced_sub? (cpop_reduced _) (cpop_reduced _)

/-- **Noise** refuses no step, whatever the bytes. -/
theorem sampleNoise?_eq {eta : ℕ} (heta : 0 < eta) (heta6 : eta ≤ 6) (bytes : Bytes (64 * eta)) :
    sampleNoise? eta bytes.toList = some (sampleNoise eta bytes) := by
  have hsize : 64 * eta = 32 * (2 * eta) := by omega
  have hbytes : Bytes.ofList? (32 * (2 * eta)) bytes.toList = some (bytes.cast hsize) :=
    Bytes.ofList?_eq_some_iff.2 rfl
  refine andThen (lowMask?_eq (by omega)) ?_
  refine andThen hbytes ?_
  refine andThen (byteDecode?_eq (by omega) (by omega) _) ?_
  refine andThen (ofFnM_eq_some fun i => noiseCoeff?_eq (by omega) _ _) ?_
  rfl

/-! ## Vectors and matrices -/

namespace Hashes

variable (H : Hashes) {eta k : ℕ}

/-- the bytes of one noise polynomial, at the front of a buffer that holds the most there are -/
def prf? (eta : ℕ) (seed : Bytes 32) (nonce : UInt8) : Option (List UInt8) := do
  let size ← index? (64 * eta)
  let (front, _) ← splitAt? size (List.replicate 192 0)
  fill? front (H.prf eta seed nonce)

/-- `k` noise polynomials, from consecutive nonces -/
def noiseVec? (eta k : ℕ) (seed : Bytes 32) (start : UInt8) : Option (RqVec k) := do
  let polys ← Vector.ofFnM fun i : Fin k => do
    let place ← byteOfIndex? i.val
    let nonce ← addByte? start place
    let bytes ← H.prf? eta seed nonce
    sampleNoise? eta bytes
  some ⟨polys⟩

/-- entry (row, column) of the public matrix of a seed -/
def matrixEntry? (seed : Bytes 32) (row column : ℕ) : Option Tq := do
  let column ← byteOfIndex? column
  let row ← byteOfIndex? row
  sampleUniform? (H.xof seed column row)

/-- the public matrix of a seed, or its transpose -/
def matrix? (k : ℕ) (seed : Bytes 32) (transposed : Bool) : Option (TqMatrix k) :=
  Vector.ofFnM fun i => do
    let polys ← Vector.ofFnM fun j : Fin k =>
      if transposed then H.matrixEntry? seed j.val i.val else H.matrixEntry? seed i.val j.val
    some ⟨polys⟩

theorem prf?_eq (heta : eta ≤ 3) (seed : Bytes 32) (nonce : UInt8) :
    H.prf? eta seed nonce = some (H.prf eta seed nonce).toList := by
  refine andThen (index?_eq (by omega)) ?_
  refine andThen (splitAt?_eq (by rw [List.length_replicate]; omega)) ?_
  exact fill?_eq (by rw [List.length_take, List.length_replicate]; omega)

/-- **A noise vector** refuses no step if its nonces do not wrap. -/
theorem noiseVec?_eq (heta : 0 < eta) (heta3 : eta ≤ 3) (seed : Bytes 32) {start : UInt8}
    (hstart : start.toNat + k ≤ 256) : H.noiseVec? eta k seed start = some (H.noiseVec eta k seed start) := by
  refine andThen (ofFnM_eq_some fun i => ?_) rfl
  have hplace : (UInt8.ofNat i.val).toNat = i.val := Nat.mod_eq_of_lt (by omega)
  refine andThen (byteOfIndex?_eq (by omega)) ?_
  refine andThen (addByte?_eq (by omega)) ?_
  refine andThen (H.prf?_eq heta3 seed _) ?_
  exact sampleNoise?_eq heta (by omega) _

theorem matrixEntry?_eq (seed : Bytes 32) {row column : ℕ} (hrow : row < 256) (hcolumn : column < 256) :
    H.matrixEntry? seed row column = some (H.matrixEntry seed row column) := by
  refine andThen (byteOfIndex?_eq hcolumn) ?_
  refine andThen (byteOfIndex?_eq hrow) ?_
  exact sampleUniform?_eq _

/-- **The matrix** refuses no step, whatever the streams hold. -/
theorem matrix?_eq (hk : k ≤ 256) (seed : Bytes 32) (transposed : Bool) :
    H.matrix? k seed transposed = some (H.matrix k seed transposed) := by
  refine ofFnM_eq_some fun i => andThen (ofFnM_eq_some fun j => ?_) rfl
  split
  · exact H.matrixEntry?_eq seed (by omega) (by omega)
  · exact H.matrixEntry?_eq seed (by omega) (by omega)

end Hashes

end PostQuantum.MLKEM
