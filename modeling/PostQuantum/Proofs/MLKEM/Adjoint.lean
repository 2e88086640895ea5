/-
The public matrix and its transpose are adjoint.

Key generation multiplies the secret by the matrix of a seed, and encryption multiplies by the transpose, which is
sampled anew with the two indices of every entry exchanged.
- `dot_mulVec`: a matrix moves to the other side of a dot product as its transpose, whatever its entries are.
- `matrix_transposes`: the two matrices of a seed are the transposes of each other.
- `dot_mulVec_matrix`: so the two matrices of a seed are adjoint, for every rank.
The products in T_q are those of the program, with one reduction for each sum of two products.
-/
import Mathlib.Tactic
import PostQuantum.Proofs.MLKEM.Encryption

namespace PostQuantum.MLKEM

variable {k : ℕ} {a b : TqMatrix k} {s r : TqVec k}

/-- every row of one matrix is a column of the other -/
def Transposes (a b : TqMatrix k) : Prop := ∀ i j, (a.get i).polys.get j = (b.get j).polys.get i

/-- the residues of (a s) r, as a sum over the entries of the matrix -/
theorem pairs_dot_mulVec (ha : ∀ i, (a.get i).Reduced) (hs : s.Reduced) (hr : r.Reduced) :
    pairs (dot (mulVec a s) r) =
      ∑ i, ∑ j, pairs ((a.get i).polys.get j) * pairs (s.polys.get j) * pairs (r.polys.get i) := by
  rw [pairs_dot (mulVec_reduced ha hs) hr]
  refine Finset.sum_congr rfl fun i _ => ?_
  rw [mulVec_get, pairs_dot (ha i) hs, Finset.sum_mul]

theorem dot_comm (hs : s.Reduced) (hr : r.Reduced) : dot s r = dot r s := by
  refine eq_of_pairs_eq (Tq.reduced_dot hs hr) (Tq.reduced_dot hr hs) ?_
  rw [pairs_dot hs hr, pairs_dot hr hs]
  exact Finset.sum_congr rfl fun i _ => mul_comm _ _

/-- **Adjointness.** Both sides are the sum of a_ij s_j r_i over all entries, in one order and in the other. -/
theorem dot_mulVec (ha : ∀ i, (a.get i).Reduced) (hb : ∀ i, (b.get i).Reduced) (hab : Transposes a b)
    (hs : s.Reduced) (hr : r.Reduced) : dot (mulVec a s) r = dot s (mulVec b r) := by
  have has := mulVec_reduced ha hs
  have hbr := mulVec_reduced hb hr
  refine eq_of_pairs_eq (Tq.reduced_dot has hr) (Tq.reduced_dot hs hbr) ?_
  rw [dot_comm hs hbr, pairs_dot_mulVec ha hs hr, pairs_dot_mulVec hb hr hs, Finset.sum_comm]
  refine Finset.sum_congr rfl fun j _ => Finset.sum_congr rfl fun i _ => ?_
  rw [hab i j, mul_right_comm]

namespace Hashes

/-- the transposed matrix has the same entries, sampled with their indices exchanged -/
theorem matrix_transposes (H : Hashes) (k : ℕ) (seed : Bytes 32) :
    Transposes (H.matrix k seed false) (H.matrix k seed true) := by
  intro i j
  rw [matrix_get, matrix_get, if_neg Bool.false_ne_true, if_pos rfl]

/-- **The matrices of a seed are adjoint.** For every rank, every seed and all reduced vectors, moving the matrix to the
other side of a dot product and sampling it transposed changes no coefficient. -/
theorem dot_mulVec_matrix (H : Hashes) (k : ℕ) (seed : Bytes 32) (s r : TqVec k) (hs : s.Reduced) (hr : r.Reduced) :
    dot (mulVec (H.matrix k seed false) s) r = dot s (mulVec (H.matrix k seed true) r) :=
  dot_mulVec (H.matrix_reduced k seed false) (H.matrix_reduced k seed true) (H.matrix_transposes k seed) hs hr

/-- the largest coefficients against different small ones -/
theorem dot_mulVec_matrix_largest :
    let seed : Bytes 32 := Vector.replicate 32 7
    let s : TqVec 3 := ⟨Vector.replicate 3 ⟨Vector.replicate 256 (PrimeField.Elem.ofNat PrimeField.z3329 3328)⟩⟩
    let r : TqVec 3 := ⟨Vector.ofFn fun i =>
      ⟨Vector.ofFn fun j => PrimeField.Elem.ofNat PrimeField.z3329 (256 * i.val + j.val)⟩⟩
    s.Reduced ∧ r.Reduced ∧
      dot (mulVec (standard.matrix 3 seed false) s) r = dot s (mulVec (standard.matrix 3 seed true) r) := by
  intro seed s r
  have hs : s.Reduced := fun i j => by
    rw [get_replicate, get_replicate]
    decide
  have hr : r.Reduced := fun i j => by
    rw [get_ofFn, get_ofFn]
    refine PrimeField.Elem.reduced_ofNat ?_
    change _ < 3329
    omega
  exact ⟨hs, hr, dot_mulVec_matrix standard 3 seed s r hs hr⟩

end Hashes

end PostQuantum.MLKEM
