/-
What is sampled is reduced.

Reading a stream keeps only candidates below q, so every entry of a public matrix is reduced (`matrix_reduced`),
whatever the stream holds. A noise coefficient is the difference of two counts of at most sixteen bits, so noise is
reduced whatever the bytes are (`noiseVec_reduced`).
-/
import Mathlib.Tactic
import PostQuantum.MLKEM.Hashes
import PostQuantum.Proofs.MLKEM.Factors

namespace PostQuantum.MLKEM

open PrimeField Word

/-! ## Uniform residues -/

theorem acceptedIn_reduced {block : Block} {c : Coeff} (hc : c ∈ acceptedIn block) : c.Reduced := by
  unfold acceptedIn at hc
  exact of_decide_eq_true (List.mem_filter.1 hc).2

/-- every step of reading keeps the accepted coefficients reduced -/
theorem readBlocks_reduced {block : ℕ → Block} {fuel : ℕ} {r : Reading} (hr : ∀ c ∈ r.accepted, c.Reduced) :
    ∀ c ∈ (readBlocks block fuel r).accepted, c.Reduced := by
  induction fuel generalizing r with
  | zero => exact hr
  | succ fuel ih =>
    unfold readBlocks
    split
    case isTrue => exact hr
    case isFalse =>
      refine ih fun c hc => ?_
      rcases List.mem_append.1 hc with h | h
      · exact hr c h
      · exact acceptedIn_reduced h

theorem sampleUniform_reduced (s : ByteStream) : (sampleUniform s).Reduced := by
  have hread : ∀ c ∈ s.read.accepted, c.Reduced := readBlocks_reduced (by simp)
  intro i
  unfold sampleUniform
  rw [get_ofFn, Array.getD_eq_getD_getElem?, List.getElem?_toArray]
  rcases h : s.read.accepted[i.val]? with _ | c
  · exact Elem.reduced_zero
  · exact hread c (List.mem_of_getElem? h)

/-! ## Noise -/

theorem cpop_reduced (x : BitVec 16) : (⟨x.cpop⟩ : Coeff).Reduced := by
  have h : x.cpop.toNat ≤ 16 := BitVec.toNat_cpop_le x
  exact h.trans_lt (by decide)

theorem sampleNoise_reduced (eta : ℕ) (bytes : Bytes (64 * eta)) : (sampleNoise eta bytes).Reduced := by
  intro i
  unfold sampleNoise
  rw [get_ofFn]
  exact Elem.reduced_sub (cpop_reduced _) (cpop_reduced _)

/-! ## Vectors and matrices -/

namespace Hashes

variable (H : Hashes)

theorem noiseVec_reduced (eta k : ℕ) (seed : Bytes 32) (start : UInt8) : (H.noiseVec eta k seed start).Reduced := by
  intro i
  unfold noiseVec
  rw [get_ofFn]
  exact sampleNoise_reduced _ _

theorem matrix_get (k : ℕ) (seed : Bytes 32) (transposed : Bool) (i j : Fin k) :
    ((H.matrix k seed transposed).get i).polys.get j =
      if transposed then H.matrixEntry seed j.val i.val else H.matrixEntry seed i.val j.val := by
  unfold matrix
  rw [get_ofFn, get_ofFn]

theorem matrix_reduced (k : ℕ) (seed : Bytes 32) (transposed : Bool) (i : Fin k) :
    ((H.matrix k seed transposed).get i).Reduced := by
  intro j
  rw [matrix_get]
  split
  · exact sampleUniform_reduced _
  · exact sampleUniform_reduced _

end Hashes

end PostQuantum.MLKEM
