/-
Rejection sampling, as a loop over an endless stream.

The sampler keeps the candidates below q until it has 256. `Sampler` is the loop that does so, one group of three bytes
after another: it reads a block when the one at hand is used up, and it may stop in the middle of a block and of a group.
No bound on the number of rounds is set: what is sampled is a partial value, and there is none if the loop goes on for
ever or reads beyond a block.
- `Sampler.Holds`: after g groups the first of the accepted among 2g candidates are kept, and the place in the stream is
  that of group g; `Sampler.step_holds` is one round, `Sampler.run_holds` all of them.
- `sampleLoop_eq`: the loop stops after the group in which the 256th candidate is accepted; `sampleLoop_dom_iff`: on
  a stream without that many it does not stop.
- `readBlocks_blockAt`: reading whole blocks stops after the same block, so it gives the same (`sampleLoop_byte`).
- `rejection_sampling`: so what is sampled is the first 256 accepted candidates, it takes the fewest blocks in which they
  are, and no later byte matters.
-/
import Mathlib.Data.PFun
import Mathlib.Tactic
import PostQuantum.Proofs.MLKEM.Candidates

namespace PostQuantum.MLKEM

open PrimeField Word

variable {stream : ℕ → UInt8} {n g last : ℕ}

/-! ## The loop -/

/-- block `i` of a stream -/
def blockAt (stream : ℕ → UInt8) (i : ℕ) : Block :=
  Vector.ofFn fun j => stream (168 * i + j.val)

/-- the loop between two groups: what has been accepted, the block at hand, the blocks read, and where in the block the
next group begins -/
structure Sampler where
  accepted : List Coeff
  block : Block
  blocks : ℕ
  position : ℕ

namespace Sampler

/-- nothing is accepted, and no block is at hand -/
def start : Sampler := ⟨[], Bytes.zeros 168, 0, 168⟩

/-- read a block if the one at hand is used up -/
def refill (stream : ℕ → UInt8) (s : Sampler) : Sampler :=
  if s.position = 168 then { s with block := blockAt stream s.blocks, blocks := s.blocks + 1, position := 0 } else s

/-- the first candidate is kept if it is below q; the loop has room for it -/
def keepFirst (accepted : List Coeff) (c : Coeff) : List Coeff :=
  if c.Reduced then accepted ++ [c] else accepted

/-- the second candidate is kept if it is below q and there is room left -/
def keepSecond (accepted : List Coeff) (c : Coeff) : List Coeff :=
  if c.Reduced ∧ accepted.length < 256 then accepted ++ [c] else accepted

/-- one round, if the three bytes lie in the block -/
def step? (stream : ℕ → UInt8) (s : Sampler) : Option Sampler := do
  let s := s.refill stream
  let b0 ← s.block[s.position]?
  let b1 ← s.block[s.position + 1]?
  let b2 ← s.block[s.position + 2]?
  let accepted := keepSecond (keepFirst s.accepted (lowCandidate b0 b1)) (highCandidate b1 b2)
  some { s with accepted := accepted, position := s.position + 3 }

/-- the loop ends when 256 coefficients are accepted, and goes round again before -/
def round (stream : ℕ → UInt8) : Sampler →. Sampler ⊕ Sampler := fun s =>
  if s.accepted.length < 256 then (Part.ofOption (s.step? stream)).map Sum.inr else .some (.inl s)

/-- round after round, as many as it takes -/
def run (stream : ℕ → UInt8) : Sampler →. Sampler := PFun.fix (round stream)

end Sampler

/-- the first 256 of a list of coefficients -/
def firstCoeffs (accepted : List Coeff) : Tq :=
  ⟨Vector.ofFn fun i => accepted.toArray.getD i.val 0⟩

/-- what is sampled from an endless stream, and the number of bytes read -/
def sampleLoop (stream : ℕ → UInt8) : Part (Tq × ℕ) :=
  (Sampler.run stream .start).map fun s => (firstCoeffs s.accepted, 168 * s.blocks)

theorem toList_firstCoeffs {accepted : List Coeff} (h : 256 ≤ accepted.length) :
    (firstCoeffs accepted).coeffs.toList = accepted.take 256 := by
  refine List.ext_getElem (by simp [h]) fun i hi hi' => ?_
  have hlt : i < accepted.length := List.length_take_le' _ _ |>.trans_lt' hi'
  simp [firstCoeffs, hlt]

theorem get_blockAt (stream : ℕ → UInt8) (i : ℕ) {j : ℕ} (hj : j < 168) :
    (blockAt stream i)[j]? = some (stream (168 * i + j)) := by
  rw [Vector.getElem?_eq_getElem hj]
  exact congrArg some (Vector.getElem_ofFn hj)

namespace Sampler

variable {s : Sampler}

/-- the loop after `g` groups: where it stands in the stream, and what it has accepted -/
structure Holds (stream : ℕ → UInt8) (g : ℕ) (s : Sampler) : Prop where
  accepted : s.accepted.map Elem.val = (acceptedAmong stream (2 * g)).take 256
  place : 168 * s.blocks + s.position = 3 * g + 168
  pos : 0 < s.position
  le : s.position ≤ 168
  block : s.position < 168 → s.block = blockAt stream (s.blocks - 1)

theorem start_holds (stream : ℕ → UInt8) : start.Holds stream 0 where
  accepted := rfl
  place := rfl
  pos := by decide
  le := by decide
  block h := absurd h (by decide)

/-- a block is at hand, and the next group lies in it -/
theorem refill_ready (h : s.Holds stream g) :
    ∃ i < 168, ∃ b, 168 * b + i = 3 * g ∧ s.refill stream = ⟨s.accepted, blockAt stream b, b + 1, i⟩ := by
  have hplace := h.place
  unfold refill
  split
  case isTrue hfull => exact ⟨0, by decide, s.blocks, by omega, rfl⟩
  case isFalse hfull =>
    have hlt : s.position < 168 := Nat.lt_of_le_of_ne h.le hfull
    have hblocks : s.blocks = s.blocks - 1 + 1 := by omega
    refine ⟨s.position, hlt, s.blocks - 1, by omega, ?_⟩
    rw [← h.block hlt, ← hblocks]

/-- what a further candidate adds to the first 256 accepted -/
theorem take_acceptedAmong_succ {c : Coeff} (hc : candidate stream n = c.val) :
    (acceptedAmong stream (n + 1)).take 256 =
      if c.Reduced ∧ ((acceptedAmong stream n).take 256).length < 256
      then (acceptedAmong stream n).take 256 ++ [c.val] else (acceptedAmong stream n).take 256 := by
  rw [acceptedAmong_succ, hc, List.length_take]
  split
  case isFalse hlt => rw [if_neg fun h => hlt h.1]
  case isTrue hlt =>
    rcases Nat.lt_or_ge (acceptedAmong stream n).length 256 with hroom | hfull
    · rw [if_pos ⟨hlt, by omega⟩, List.take_of_length_le hroom.le, List.take_of_length_le]
      rwa [List.length_append]
    · rw [if_neg fun h => by omega, List.take_append_of_le_length hfull]

theorem map_keepFirst {accepted : List Coeff} (h : accepted.map Elem.val = (acceptedAmong stream n).take 256)
    (hroom : accepted.length < 256) {c : Coeff} (hc : candidate stream n = c.val) :
    (keepFirst accepted c).map Elem.val = (acceptedAmong stream (n + 1)).take 256 := by
  rw [take_acceptedAmong_succ hc, ← h, List.length_map, keepFirst]
  by_cases hlt : c.Reduced
  · rw [if_pos hlt, if_pos ⟨hlt, hroom⟩, List.map_append]
    rfl
  · rw [if_neg hlt, if_neg fun hboth => hlt hboth.1]

theorem map_keepSecond {accepted : List Coeff} (h : accepted.map Elem.val = (acceptedAmong stream n).take 256)
    {c : Coeff} (hc : candidate stream n = c.val) :
    (keepSecond accepted c).map Elem.val = (acceptedAmong stream (n + 1)).take 256 := by
  rw [take_acceptedAmong_succ hc, ← h, List.length_map, keepSecond]
  by_cases hboth : c.Reduced ∧ accepted.length < 256
  · rw [if_pos hboth, if_pos hboth, List.map_append]
    rfl
  · rw [if_neg hboth, if_neg hboth]

theorem run_full (hfull : 256 ≤ s.accepted.length) : run stream s = .some s := by
  refine Part.eq_some_iff.2 (PFun.fix_stop ?_)
  rw [round, if_neg (Nat.not_lt.2 hfull)]
  exact Part.mem_some _

theorem mem_round {s' : Sampler} (hroom : s.accepted.length < 256) (hstep : s.step? stream = some s') :
    Sum.inr s' ∈ round stream s := by
  rw [round, if_pos hroom, hstep]
  exact Part.mem_map _ (Part.mem_some s')

theorem Holds.length (h : s.Holds stream g) : s.accepted.length = min 256 (acceptedAmong stream (2 * g)).length := by
  rw [← List.length_take, ← h.accepted, List.length_map]

/-- what one round does: the next group lies in block `b` at place `i` -/
theorem step?_eq (h : s.Holds stream g) :
    ∃ i b, i + 2 < 168 ∧ 168 * b + i = 3 * g ∧ s.refill stream = ⟨s.accepted, blockAt stream b, b + 1, i⟩ ∧
      s.step? stream = some
        ⟨keepSecond (keepFirst s.accepted (lowCandidate (stream (3 * g)) (stream (3 * g + 1))))
          (highCandidate (stream (3 * g + 1)) (stream (3 * g + 2))), blockAt stream b, b + 1, i + 3⟩ := by
  obtain ⟨i, hi, b, hplace, hrefill⟩ := refill_ready h
  -- blocks hold whole groups
  have hi3 : i + 2 < 168 := by omega
  refine ⟨i, b, hi3, hplace, hrefill, ?_⟩
  unfold step?
  rw [hrefill]
  simp only [get_blockAt stream b hi, get_blockAt stream b (Nat.lt_of_succ_lt hi3), get_blockAt stream b hi3,
    ← Nat.add_assoc, hplace]
  rfl

/-- **One round.** If there is room, the loop takes the next group and stays in the block. -/
theorem step_holds (h : s.Holds stream g) (hroom : s.accepted.length < 256) :
    ∃ s', s.step? stream = some s' ∧ s'.Holds stream (g + 1) := by
  obtain ⟨i, b, hi3, hplace, -, hstep⟩ := step?_eq h
  refine ⟨_, hstep, ?_⟩
  constructor
  · exact map_keepSecond (map_keepFirst h.accepted hroom (candidate_even stream g)) (candidate_odd stream g)
  · change 168 * (b + 1) + (i + 3) = _
    omega
  · exact Nat.succ_pos _
  · exact Nat.succ_le_of_lt hi3
  · intro _
    rfl

/-- **All rounds.** The loop goes on to the group of the candidate that completes the list. -/
theorem run_holds (hlast : Completes stream last) (hg : g ≤ last / 2 + 1) (h : s.Holds stream g) :
    ∃ s', run stream s = .some s' ∧ s'.Holds stream (last / 2 + 1) := by
  induction hg using Nat.decreasingInduction generalizing s with
  | self =>
    have hfull : 256 ≤ (acceptedAmong stream (2 * (last / 2 + 1))).length := hlast.le_length (by omega)
    have hlength : s.accepted.length = 256 := h.length.trans (Nat.min_eq_left hfull)
    exact ⟨s, run_full hlength.ge, h⟩
  | of_succ g hg ih =>
    have hroom : s.accepted.length < 256 := by
      rw [h.length]
      exact (Nat.min_le_right _ _).trans_lt (hlast.length_lt (by omega))
    obtain ⟨s', hstep, hs'⟩ := step_holds h hroom
    rw [run, PFun.fix_fwd_eq (mem_round hroom hstep)]
    exact ih hs'

/-- a loop that ends has accepted 256 candidates -/
theorem full_of_run {s' : Sampler} (hrun : s' ∈ run stream s) (h : s.Holds stream g) :
    ∃ g', 256 ≤ (acceptedAmong stream (2 * g')).length := by
  suffices hall : ∀ g, s.Holds stream g → ∃ g', 256 ≤ (acceptedAmong stream (2 * g')).length from hall g h
  -- along the rounds that the loop takes
  refine PFun.fixInduction hrun fun s _ ih g h => ?_
  rcases Nat.lt_or_ge s.accepted.length 256 with hroom | hfull
  · obtain ⟨t, hstep, ht⟩ := step_holds h hroom
    exact ih t (mem_round hroom hstep) (g + 1) ht
  · rw [h.length] at hfull
    exact ⟨g, hfull.trans (Nat.min_le_right _ _)⟩

end Sampler

/-! ## What the loop gives -/

/-- **Where the loop stops.** It stops after the group in which the 256th candidate is accepted: all that is accepted up
to that candidate is sampled, and each 112 candidates take a block. -/
theorem sampleLoop_eq (hlast : Completes stream last) :
    ∃ out, sampleLoop stream = .some (out, 168 * (last / 112 + 1)) ∧
      out.coeffs.toList.map Elem.val = acceptedAmong stream (last + 1) := by
  obtain ⟨s, hrun, hs⟩ := Sampler.run_holds hlast (Nat.zero_le _) (Sampler.start_holds stream)
  -- group last / 2 + 1 begins where the loop stands, and some of the block at hand is used
  have hplace := hs.place
  have hpos := hs.pos
  have hle := hs.le
  have hblocks : s.blocks = last / 112 + 1 := by omega
  have hfull : 256 ≤ (acceptedAmong stream (2 * (last / 2 + 1))).length := hlast.le_length (by omega)
  have hlength : s.accepted.length = 256 := hs.length.trans (Nat.min_eq_left hfull)
  refine ⟨firstCoeffs s.accepted, ?_, ?_⟩
  · unfold sampleLoop
    rw [hrun, ← hblocks]
    rfl
  · rw [toList_firstCoeffs hlength.ge, List.take_of_length_le hlength.le, hs.accepted]
    exact hlast.take (by omega)

/-- **When the loop ends.** It ends on exactly the streams that have 256 candidates below q. -/
theorem sampleLoop_dom_iff : (sampleLoop stream).Dom ↔ ∃ n, 256 ≤ (acceptedAmong stream n).length := by
  constructor
  · intro h
    have hrun : (Sampler.run stream .start).Dom := h
    obtain ⟨g, hfull⟩ := Sampler.full_of_run (Part.get_mem hrun) (Sampler.start_holds stream)
    exact ⟨2 * g, hfull⟩
  · rintro ⟨n, hfull⟩
    obtain ⟨last, -, hbelow, hbefore⟩ := exists_accepted hfull
    obtain ⟨out, hloop, -⟩ := sampleLoop_eq ⟨hbelow, hbefore⟩
    rw [hloop]
    trivial

theorem reduced_of_map {out : Tq} (h : out.coeffs.toList.map Elem.val = acceptedAmong stream n) : out.Reduced := by
  intro i
  have hmem : (out.coeffs.get i).val ∈ acceptedAmong stream n := by
    rw [← h]
    exact List.mem_map_of_mem (Vector.mem_toList_iff.2 (Vector.getElem_mem i.isLt))
  exact of_decide_eq_true (List.mem_filter.1 hmem).2

theorem eq_of_map {out out' : Tq} (h : out.coeffs.toList.map Elem.val = out'.coeffs.toList.map Elem.val) :
    out = out' := by
  have hinj : Function.Injective (Elem.val (F := z3329)) := fun a b hab => congrArg Elem.mk (BitVec.eq_of_toNat_eq hab)
  cases out
  cases out'
  exact congrArg NttPoly.mk (Vector.toList_inj.1 (List.map_injective_iff.2 hinj h))

/-- no byte matters beyond the blocks that are read -/
theorem sampleLoop_congr {other : ℕ → UInt8} (hlast : Completes stream last)
    (h : ∀ i < 168 * (last / 112 + 1), other i = stream i) : sampleLoop other = sampleLoop stream := by
  have hcandidate : ∀ n ≤ last, candidate other n = candidate stream n := fun n hn =>
    candidate_congr fun i hi => h i (by omega)
  obtain ⟨out, hloop, hout⟩ := sampleLoop_eq hlast
  obtain ⟨out', hloop', hout'⟩ := sampleLoop_eq (hlast.congr hcandidate)
  rw [acceptedAmong_congr fun n hn => hcandidate n (Nat.le_of_lt_succ hn), ← hout] at hout'
  rw [hloop, hloop', eq_of_map hout']

/-! ## Whole blocks -/

theorem toList_blockAt (stream : ℕ → UInt8) (b : ℕ) :
    (blockAt stream b).toList = (List.range' (168 * b) 168).map stream := by
  refine List.ext_getElem (by simp) fun i hi hi' => ?_
  simp [blockAt]

/-- the candidates of `g` groups of a stream, the first of them group `k` -/
theorem map_candidates (stream : ℕ → UInt8) (g k : ℕ) :
    (candidates ((List.range' (3 * k) (3 * g)).map stream)).map Elem.val =
      (List.range' (2 * k) (2 * g)).map (candidate stream) := by
  induction g generalizing k with
  | zero => rfl
  | succ g ih =>
    have h3 : List.range' (3 * k) (3 * (g + 1)) =
        3 * k :: (3 * k + 1) :: (3 * k + 2) :: List.range' (3 * (k + 1)) (3 * g) := rfl
    have h2 : List.range' (2 * k) (2 * (g + 1)) = 2 * k :: (2 * k + 1) :: List.range' (2 * (k + 1)) (2 * g) := rfl
    rw [h3, h2]
    simp only [List.map_cons, candidates_cons, ih, candidate_even, candidate_odd]

/-- the accepted of one block -/
theorem map_acceptedIn (stream : ℕ → UInt8) (b : ℕ) :
    (acceptedIn (blockAt stream b)).map Elem.val =
      ((List.range' (112 * b) 112).map (candidate stream)).filter (· < 3329) := by
  have hvals : (candidates (blockAt stream b).toList).map Elem.val =
      (List.range' (112 * b) 112).map (candidate stream) := by
    have h := map_candidates stream 56 (56 * b)
    rw [← Nat.mul_assoc, ← Nat.mul_assoc] at h
    rw [toList_blockAt]
    exact h
  rw [← hvals, List.filter_map]
  rfl

/-- **Reading whole blocks.** It stops after the block in which the 256th candidate is accepted. -/
theorem readBlocks_blockAt (hlast : Completes stream last) {fuel b : ℕ} {accepted : List Coeff}
    (hb : b ≤ last / 112 + 1) (hfuel : last / 112 + 1 ≤ b + fuel)
    (h : accepted.map Elem.val = acceptedAmong stream (112 * b)) :
    ∃ accepted', readBlocks (blockAt stream) fuel ⟨accepted, b⟩ = ⟨accepted', last / 112 + 1⟩ ∧
      accepted'.map Elem.val = acceptedAmong stream (112 * (last / 112 + 1)) := by
  induction fuel generalizing b accepted with
  | zero =>
    obtain rfl : b = last / 112 + 1 := Nat.le_antisymm hb hfuel
    exact ⟨accepted, rfl, h⟩
  | succ fuel ih =>
    have hlength : accepted.length = (acceptedAmong stream (112 * b)).length := by rw [← h, List.length_map]
    rw [readBlocks, hlength]
    rcases Nat.lt_or_ge b (last / 112 + 1) with hlt | hge
    · have hnext : (accepted ++ acceptedIn (blockAt stream b)).map Elem.val = acceptedAmong stream (112 * (b + 1)) := by
        rw [List.map_append, h, map_acceptedIn, Nat.mul_succ, acceptedAmong_add]
      rw [if_neg (Nat.not_le.2 (hlast.length_lt (by omega)))]
      exact ih (b := b + 1) hlt (by omega) hnext
    · obtain rfl : b = last / 112 + 1 := Nat.le_antisymm hb hge
      rw [if_pos (hlast.le_length (by omega))]
      exact ⟨accepted, rfl, h⟩

namespace ByteStream

/-- byte `i` of the stream -/
def byte (s : ByteStream) (i : ℕ) : UInt8 :=
  (s.get (i / 168)).toArray.getD (i % 168) 0

theorem get_eq_blockAt (s : ByteStream) : s.get = blockAt s.byte := by
  funext b
  refine ext_get fun j => ?_
  have hdiv : (168 * b + j.val) / 168 = b := by omega
  have hmod : (168 * b + j.val) % 168 = j.val := by omega
  rw [blockAt, get_ofFn, byte, hdiv, hmod]
  simp [Vector.get]

/-- past its blocks a stream has zeros -/
theorem byte_eq_zero (s : ByteStream) {i : ℕ} (hi : 168 * s.count ≤ i) : s.byte i = 0 := by
  have hget : s.get (i / 168) = Bytes.zeros 168 := if_neg (by omega)
  rw [byte, hget]
  simp [Bytes.zeros, Nat.mod_lt]

theorem byte_ofList (bytes : List UInt8) : (ofList bytes).byte = fun i => bytes.getD i 0 := by
  have hcount : (ofList bytes).count = (bytes.length + 167) / 168 := rfl
  funext i
  rcases Nat.lt_or_ge i (168 * (ofList bytes).count) with hi | hi
  · have hget : (ofList bytes).get (i / 168) = (ofList bytes).block (i / 168) := if_pos (by omega)
    have hplace : 168 * (i / 168) + i % 168 = i := Nat.div_add_mod i 168
    rw [byte, hget]
    simp [ofList, Nat.mod_lt, hplace]
  · rw [byte_eq_zero _ hi, List.getD_eq_getElem?_getD, List.getElem?_eq_none (by omega)]
    rfl

/-- every candidate past the blocks of a stream is accepted -/
theorem candidate_eq_zero (s : ByteStream) {n : ℕ} (hn : 112 * s.count ≤ n) : candidate s.byte n = 0 := by
  simp only [candidate]
  rw [s.byte_eq_zero (i := 3 * (n / 2)) (by omega), s.byte_eq_zero (i := 3 * (n / 2) + 1) (by omega),
    s.byte_eq_zero (i := 3 * (n / 2) + 2) (by omega)]
  split <;> rfl

theorem le_length_acceptedAmong (s : ByteStream) (m : ℕ) :
    m ≤ (acceptedAmong s.byte (112 * s.count + m)).length := by
  induction m with
  | zero => exact Nat.zero_le _
  | succ m ih =>
    rw [← Nat.add_assoc, acceptedAmong_succ, s.candidate_eq_zero (Nat.le_add_right _ m), if_pos (by decide),
      List.length_append]
    exact Nat.succ_le_succ ih

/-- some candidate completes the list -/
theorem exists_completes (s : ByteStream) : ∃ last, Completes s.byte last :=
  have ⟨last, _, hbelow, hbefore⟩ := exists_accepted (s.le_length_acceptedAmong 256)
  ⟨last, hbelow, hbefore⟩

/-- the candidate that completes the list is among the first 256 past the blocks of the stream -/
theorem completes_lt (s : ByteStream) (hlast : Completes s.byte last) : last < 112 * s.count + 256 := by
  by_contra h
  have hlength := hlast.length_lt (Nat.not_lt.1 h)
  exact absurd (s.le_length_acceptedAmong 256) (Nat.not_le.2 hlength)

/-- **What is read of a stream.** The blocks up to the one in which the 256th candidate is accepted, however much longer
the stream is. -/
theorem read_eq (s : ByteStream) (hlast : Completes s.byte last) :
    ∃ accepted, s.read = ⟨accepted, last / 112 + 1⟩ ∧
      accepted.map Elem.val = acceptedAmong s.byte (112 * (last / 112 + 1)) := by
  have hlt := s.completes_lt hlast
  unfold read
  rw [get_eq_blockAt]
  exact readBlocks_blockAt hlast (Nat.zero_le _) (by omega) rfl

end ByteStream

/-- the 256 coefficients that are sampled -/
theorem map_sampleUniform (s : ByteStream) (hlast : Completes s.byte last) :
    (sampleUniform s).coeffs.toList.map Elem.val = acceptedAmong s.byte (last + 1) := by
  have hlt : last < 112 * (last / 112 + 1) := by omega
  obtain ⟨accepted, hread, haccepted⟩ := s.read_eq hlast
  have hlength : 256 ≤ accepted.length := by
    rw [← List.length_map (f := Elem.val), haccepted]
    exact hlast.le_length hlt
  have hsample : sampleUniform s = firstCoeffs s.read.accepted := rfl
  rw [hsample, hread, toList_firstCoeffs hlength, List.map_take, haccepted]
  exact hlast.take hlt

/-- **Reading blocks is the loop.** On every stream that ends in zeros the loop ends too, with what is sampled block by
block and as many blocks read. -/
theorem sampleLoop_byte (s : ByteStream) : sampleLoop s.byte = .some (sampleUniform s, 168 * s.read.blocks) := by
  obtain ⟨last, hlast⟩ := s.exists_completes
  obtain ⟨out, hloop, hout⟩ := sampleLoop_eq hlast
  obtain ⟨accepted, hread, -⟩ := s.read_eq hlast
  have hsample : out = sampleUniform s := eq_of_map (hout.trans (map_sampleUniform s hlast).symm)
  rw [hloop, hsample, hread]

/-! ## Every stream -/

/-- whole blocks cover the groups up to that of a candidate when each takes 112 candidates -/
theorem isLeast_read (last : ℕ) :
    IsLeast {size | 168 ∣ size ∧ 3 * (last / 2 + 1) ≤ size} (168 * (last / 112 + 1)) := by
  constructor
  · exact ⟨Nat.dvd_mul_right _ _, by omega⟩
  · rintro _ ⟨⟨blocks, rfl⟩, hcovers⟩
    omega

/-- **Rejection sampling.** If 256 candidates below q stand among the first `n` of a stream, the loop ends: it gives the
first 256 of them in their order, and has read the least whole number of blocks that covers the group of the last. So
whatever else agrees with the stream that far gives the same. Bytes and zeros after them always end the loop. -/
theorem rejection_sampling :
    (∀ (stream : ℕ → UInt8) (n : ℕ), 256 ≤ (acceptedAmong stream n).length →
      ∃ out read last, sampleLoop stream = .some (out, read) ∧
        out.Reduced ∧ out.coeffs.toList.map Elem.val = (acceptedAmong stream n).take 256 ∧
        candidate stream last < 3329 ∧ (acceptedAmong stream last).length = 255 ∧
        IsLeast {size | 168 ∣ size ∧ 3 * (last / 2 + 1) ≤ size} read ∧
        (∀ other : ℕ → UInt8, (∀ i < read, other i = stream i) → sampleLoop other = .some (out, read)) ∧
        ∀ s : ByteStream, (∀ i < read, s.byte i = stream i) → sampleUniform s = out ∧ 168 * s.read.blocks = read) ∧
    ∀ bytes : List UInt8, ∃ out read, sampleLoop (fun i => bytes.getD i 0) = .some (out, read) ∧
      sampleUniform (.ofList bytes) = out ∧ 168 * (ByteStream.ofList bytes).read.blocks = read := by
  constructor
  · intro stream n h
    obtain ⟨last, hn, hbelow, hbefore⟩ := exists_accepted h
    have hlast : Completes stream last := ⟨hbelow, hbefore⟩
    obtain ⟨out, hloop, hout⟩ := sampleLoop_eq hlast
    have hother : ∀ other : ℕ → UInt8, (∀ i < 168 * (last / 112 + 1), other i = stream i) →
        sampleLoop other = .some (out, 168 * (last / 112 + 1)) := fun other heq =>
      (sampleLoop_congr hlast heq).trans hloop
    refine ⟨out, _, last, hloop, reduced_of_map hout, hout.trans (hlast.take hn).symm, hbelow, hbefore,
      isLeast_read last, hother, fun s heq => ?_⟩
    have hs := (sampleLoop_byte s).symm.trans (hother s.byte heq)
    exact Prod.mk.inj (Part.some_inj.1 hs)
  · intro bytes
    refine ⟨_, _, ?_, rfl, rfl⟩
    rw [← ByteStream.byte_ofList]
    exact sampleLoop_byte _

/-- one candidate is rejected and zeros follow: the last that is kept is the first of its group, three blocks are read,
and nothing after these matters -/
theorem rejection_sampling_one_rejected :
    let bytes : List UInt8 := [0x00, 0xf0, 0xff]
    let stream := fun i => bytes.getD i 0
    256 ≤ (acceptedAmong stream 257).length ∧ ∃ out, sampleLoop stream = .some (out, 504) ∧
      out.coeffs.toList.map Elem.val = List.replicate 256 0 ∧ sampleUniform (.ofList bytes) = out ∧
      ∀ other : ℕ → UInt8, (∀ i < 504, other i = stream i) → sampleLoop other = .some (out, 504) := by
  intro bytes stream
  have hfull : 256 ≤ (acceptedAmong stream 257).length := by decide +kernel
  have hfirst : (acceptedAmong stream 257).take 256 = List.replicate 256 0 := by decide +kernel
  have hblocks : (ByteStream.ofList bytes).read.blocks = 3 := by decide +kernel
  have hbyte : (ByteStream.ofList bytes).byte = stream := ByteStream.byte_ofList bytes
  obtain ⟨out, read, last, hloop, -, hout, -, -, -, hother, hsame⟩ := rejection_sampling.1 stream 257 hfull
  obtain ⟨hsample, hread⟩ := hsame (.ofList bytes) fun i _ => congrFun hbyte i
  rw [hblocks] at hread
  obtain rfl : 504 = read := hread
  exact ⟨hfull, out, hloop, hout.trans hfirst, hsample, hother⟩

end PostQuantum.MLKEM
