/-
The candidates of an endless stream.

Each three bytes of a stream give two candidates of twelve bits, numbered from zero on, and those below q are accepted.
- `candidate_even`, `candidate_odd`: a candidate is the coefficient that its bytes are put together to.
- `acceptedAmong`: what is accepted among the first n candidates; more candidates only add to it
  (`acceptedAmong_mono`).
- `exists_accepted`: where one more than k are accepted, there is a candidate that makes it so.
- `Completes`: a candidate is the 256th that is accepted, so `Completes.take` gives the first 256 of them.
-/
import Mathlib.Tactic
import PostQuantum.MLKEM.Sampling

namespace PostQuantum.MLKEM

open PrimeField Word

/-! ## Three bytes -/

/-- the first candidate of three bytes: the first byte, and the low half of the second above it -/
def lowCandidate (b0 b1 : UInt8) : Coeff :=
  let w0 : BitVec 16 := b0.toBitVec.setWidth 16
  let w1 : BitVec 16 := b1.toBitVec.setWidth 16
  ⟨w0 ||| ((w1 &&& 0x0f) <<< 8)⟩

/-- the second candidate of three bytes: the high half of the second, and the third above it -/
def highCandidate (b1 b2 : UInt8) : Coeff :=
  let w1 : BitVec 16 := b1.toBitVec.setWidth 16
  let w2 : BitVec 16 := b2.toBitVec.setWidth 16
  ⟨(w1 >>> 4) ||| (w2 <<< 4)⟩

theorem candidates_cons (b0 b1 b2 : UInt8) (rest : List UInt8) :
    candidates (b0 :: b1 :: b2 :: rest) = lowCandidate b0 b1 :: highCandidate b1 b2 :: candidates rest := rfl

theorem toNat_widened_byte (b : UInt8) : (b.toBitVec.setWidth 16).toNat = b.toNat := by
  rw [BitVec.toNat_setWidth]
  exact Nat.mod_eq_of_lt (b.toNat_lt.trans (by decide))

/-- a word above another that keeps below it is their sum -/
theorem toNat_or_shiftLeft {x y : BitVec 16} {s : ℕ} (hx : x.toNat < 2 ^ s) (hy : 2 ^ s * y.toNat < 2 ^ 16) :
    (x ||| (y <<< s)).toNat = x.toNat + 2 ^ s * y.toNat := by
  have hshift : (y <<< s).toNat = 2 ^ s * y.toNat := by
    rw [BitVec.toNat_shiftLeft, Nat.shiftLeft_eq, Nat.mul_comm]
    exact Nat.mod_eq_of_lt hy
  rw [BitVec.toNat_or, hshift, Nat.or_comm, ← Nat.two_pow_add_eq_or_of_lt hx]
  exact Nat.add_comm _ _

theorem toNat_low_half (b : UInt8) : (b.toBitVec.setWidth 16 &&& (0x0f : BitVec 16)).toNat = b.toNat % 16 := by
  rw [BitVec.toNat_and, toNat_widened_byte]
  exact Nat.and_two_pow_sub_one_eq_mod _ 4

theorem val_lowCandidate (b0 b1 : UInt8) : (lowCandidate b0 b1).val = b0.toNat + 256 * (b1.toNat % 16) := by
  have hb0 : (b0.toBitVec.setWidth 16).toNat < 2 ^ 8 := (toNat_widened_byte b0).trans_lt b0.toNat_lt
  refine (toNat_or_shiftLeft hb0 ?_).trans ?_
  · rw [toNat_low_half]
    omega
  · rw [toNat_low_half, toNat_widened_byte]
    rfl

theorem val_highCandidate (b1 b2 : UInt8) : (highCandidate b1 b2).val = b1.toNat / 16 + 16 * b2.toNat := by
  have hb1 : b1.toNat < 2 ^ 8 := b1.toNat_lt
  have hb2 : b2.toNat < 2 ^ 8 := b2.toNat_lt
  have hhigh : (b1.toBitVec.setWidth 16 >>> 4).toNat = b1.toNat / 16 := by
    rw [BitVec.toNat_ushiftRight, toNat_widened_byte, Nat.shiftRight_eq_div_pow]
  refine (toNat_or_shiftLeft ?_ ?_).trans ?_
  · rw [hhigh]
    omega
  · rw [toNat_widened_byte]
    omega
  · rw [hhigh, toNat_widened_byte]
    rfl

/-! ## Candidates of a stream -/

variable {stream : ℕ → UInt8} {k n last : ℕ}

/-- candidate `n` of a stream: each three bytes give two, the first for even `n` and the second for odd -/
def candidate (stream : ℕ → UInt8) (n : ℕ) : ℕ :=
  let start := 3 * (n / 2)
  if n % 2 = 0 then (stream start).toNat + 256 * ((stream (start + 1)).toNat % 16)
  else (stream (start + 1)).toNat / 16 + 16 * (stream (start + 2)).toNat

theorem candidate_even (stream : ℕ → UInt8) (g : ℕ) :
    candidate stream (2 * g) = (lowCandidate (stream (3 * g)) (stream (3 * g + 1))).val := by
  rw [val_lowCandidate, candidate, if_pos (Nat.mul_mod_right 2 g), Nat.mul_div_cancel_left g two_pos]

theorem candidate_odd (stream : ℕ → UInt8) (g : ℕ) :
    candidate stream (2 * g + 1) = (highCandidate (stream (3 * g + 1)) (stream (3 * g + 2))).val := by
  have hodd : (2 * g + 1) % 2 ≠ 0 := by omega
  have hhalf : (2 * g + 1) / 2 = g := by omega
  rw [val_highCandidate, candidate, if_neg hodd, hhalf]

/-- a candidate is of the three bytes of its group alone -/
theorem candidate_congr {other : ℕ → UInt8} (h : ∀ i < 3 * (n / 2 + 1), other i = stream i) :
    candidate other n = candidate stream n := by
  simp only [candidate]
  rw [h (3 * (n / 2)) (by omega), h (3 * (n / 2) + 1) (by omega), h (3 * (n / 2) + 2) (by omega)]

/-! ## What is accepted -/

/-- the candidates below q among the first `n` -/
def acceptedAmong (stream : ℕ → UInt8) (n : ℕ) : List ℕ :=
  ((List.range n).map (candidate stream)).filter (· < 3329)

@[simp] theorem acceptedAmong_zero (stream : ℕ → UInt8) : acceptedAmong stream 0 = [] := rfl

theorem acceptedAmong_add (stream : ℕ → UInt8) (m n : ℕ) :
    acceptedAmong stream (m + n) =
      acceptedAmong stream m ++ ((List.range' m n).map (candidate stream)).filter (· < 3329) := by
  unfold acceptedAmong
  rw [List.range_eq_range', List.range_eq_range', ← List.filter_append, ← List.map_append]
  have h : List.range' 0 (m + n) = List.range' 0 m ++ List.range' (0 + m) n := List.range'_append_1.symm
  rw [h, Nat.zero_add]

theorem acceptedAmong_succ (stream : ℕ → UInt8) (n : ℕ) :
    acceptedAmong stream (n + 1) =
      if candidate stream n < 3329 then acceptedAmong stream n ++ [candidate stream n] else acceptedAmong stream n := by
  rw [acceptedAmong_add]
  split <;> simp [*]

theorem acceptedAmong_mono {m : ℕ} (h : m ≤ n) : acceptedAmong stream m <+: acceptedAmong stream n := by
  obtain ⟨d, rfl⟩ := Nat.exists_eq_add_of_le h
  rw [acceptedAmong_add]
  exact List.prefix_append _ _

theorem acceptedAmong_congr {other : ℕ → UInt8} (h : ∀ m < n, candidate other m = candidate stream m) :
    acceptedAmong other n = acceptedAmong stream n := by
  unfold acceptedAmong
  rw [List.map_congr_left fun m hm => h m (List.mem_range.1 hm)]

/-- **Where the next one is accepted.** If more than `k` are accepted among `n` candidates, one of these was accepted
when there were `k`. -/
theorem exists_accepted (h : k < (acceptedAmong stream n).length) :
    ∃ last < n, candidate stream last < 3329 ∧ (acceptedAmong stream last).length = k := by
  induction n with
  | zero => exact absurd h (by simp)
  | succ n ih =>
    rcases Nat.lt_or_ge k (acceptedAmong stream n).length with hk | hk
    · obtain ⟨last, hlast, haccepted⟩ := ih hk
      exact ⟨last, Nat.lt_succ_of_lt hlast, haccepted⟩
    · rw [acceptedAmong_succ] at h
      split at h
      case isTrue hc =>
        rw [List.length_append, List.length_singleton] at h
        exact ⟨n, Nat.lt_succ_self n, hc, Nat.le_antisymm hk (Nat.le_of_lt_succ h)⟩
      case isFalse => exact absurd h (Nat.not_lt.2 hk)

/-- candidate `last` is the 256th that is accepted -/
structure Completes (stream : ℕ → UInt8) (last : ℕ) : Prop where
  below : candidate stream last < 3329
  before : (acceptedAmong stream last).length = 255

namespace Completes

theorem length_succ (h : Completes stream last) : (acceptedAmong stream (last + 1)).length = 256 := by
  rw [acceptedAmong_succ, if_pos h.below, List.length_append, h.before]
  rfl

theorem length_lt (h : Completes stream last) (hn : n ≤ last) : (acceptedAmong stream n).length < 256 := by
  have hle : (acceptedAmong stream n).length ≤ (acceptedAmong stream last).length := (acceptedAmong_mono hn).length_le
  rw [h.before] at hle
  exact Nat.lt_succ_of_le hle

theorem le_length (h : Completes stream last) (hn : last < n) : 256 ≤ (acceptedAmong stream n).length := by
  rw [← h.length_succ]
  exact (acceptedAmong_mono hn).length_le

theorem take (h : Completes stream last) (hn : last < n) :
    (acceptedAmong stream n).take 256 = acceptedAmong stream (last + 1) := by
  have hmono : acceptedAmong stream (last + 1) <+: acceptedAmong stream n := acceptedAmong_mono hn
  have htake := List.prefix_iff_eq_take.1 hmono
  rw [h.length_succ] at htake
  exact htake.symm

theorem congr {other : ℕ → UInt8} (h : Completes stream last)
    (heq : ∀ n ≤ last, candidate other n = candidate stream n) : Completes other last := by
  refine ⟨(heq last le_rfl).symm ▸ h.below, ?_⟩
  rw [acceptedAmong_congr fun n hn => heq n hn.le]
  exact h.before

end Completes

end PostQuantum.MLKEM
