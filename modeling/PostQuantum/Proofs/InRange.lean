/-
Indices, slices and loops that refuse to leave their range.

What goes with words that refuse to lose bits (`Word.add?` and so on): numbers of the index type, shifts by less than a
width, entries that are written, strings that are cut and filled, and whole tables and loops of such steps. Indices are
numbers below 2^16 here; the index type of a machine holds at least those.
- `ofFnM_eq_some`: a table none of whose entries refuses.
- `foldlM_invariant`, `foldlM_eq_foldl`, `foldlM_finRange`: a loop with an invariant under which no step refuses.
-/
import Mathlib.Tactic
import PostQuantum.Bytes
import PostQuantum.Proofs.Checked

namespace PostQuantum.InRange

variable {α β : Type} {w n : ℕ}

/-- a computation goes on from a step that does not refuse -/
theorem andThen {x? : Option α} {x : α} {rest : α → Option β} {result : Option β} (hx : x? = some x)
    (hrest : rest x = result) : (x? >>= rest) = result := by
  rw [hx]
  exact hrest

/-! ## Numbers -/

/-- the number, if every index type holds it -/
def index? (n : ℕ) : Option ℕ := if n < 2 ^ 16 then some n else none

/-- the difference of two indices, if it is not negative -/
def indexSub? (m n : ℕ) : Option ℕ := if n ≤ m then some (m - n) else none

/-- the index as a byte, if it is one -/
def byteOfIndex? (n : ℕ) : Option UInt8 := if n < 256 then some (UInt8.ofNat n) else none

/-- the sum of two bytes, if it does not wrap -/
def addByte? (x y : UInt8) : Option UInt8 := (Word.add? x.toBitVec y.toBitVec).map UInt8.ofBitVec

/-- the product of two bytes, if it does not wrap -/
def mulByte? (x y : UInt8) : Option UInt8 := (Word.mul? x.toBitVec y.toBitVec).map UInt8.ofBitVec

/-- the word moved up by less than its width, if no bit that is set drops out -/
def shiftUp? (x : BitVec w) (k : ℕ) : Option (BitVec w) := if k < w then Word.shiftLeft? x k else none

/-- the word moved down by less than its width -/
def shiftDown? (x : BitVec w) (k : ℕ) : Option (BitVec w) := if k < w then some (x >>> k) else none

theorem index?_eq (h : n < 2 ^ 16) : index? n = some n := if_pos h

theorem indexSub?_eq {m : ℕ} (h : n ≤ m) : indexSub? m n = some (m - n) := if_pos h

theorem byteOfIndex?_eq (h : n < 256) : byteOfIndex? n = some (UInt8.ofNat n) := if_pos h

theorem addByte?_eq {x y : UInt8} (h : x.toNat + y.toNat < 256) : addByte? x y = some (x + y) := by
  have hsum : Word.add? x.toBitVec y.toBitVec = some (x.toBitVec + y.toBitVec) := by
    rw [Word.add?_eq_some_iff, BitVec.toNat_add]
    exact Nat.mod_eq_of_lt h
  unfold addByte?
  rw [hsum]
  rfl

theorem mulByte?_eq {x y : UInt8} (h : x.toNat * y.toNat < 256) : mulByte? x y = some (x * y) := by
  have hproduct : Word.mul? x.toBitVec y.toBitVec = some (x.toBitVec * y.toBitVec) := by
    rw [Word.mul?_eq_some_iff, BitVec.toNat_mul]
    exact Nat.mod_eq_of_lt h
  unfold mulByte?
  rw [hproduct]
  rfl

theorem shiftUp?_eq {x : BitVec w} {k : ℕ} (hk : k < w) (h : x.toNat * 2 ^ k < 2 ^ w) :
    shiftUp? x k = some (x <<< k) := by
  unfold shiftUp?
  rw [if_pos hk, Word.shiftLeft?_eq_some_iff, BitVec.toNat_shiftLeft, Nat.shiftLeft_eq]
  exact Nat.mod_eq_of_lt h

theorem narrow?_eq {m : ℕ} {x : BitVec w} (h : x.toNat < 2 ^ m) : Word.resize? m x = some (Word.narrow m x) := if_pos h

theorem shiftDown?_eq {x : BitVec w} {k : ℕ} (hk : k < w) : shiftDown? x k = some (x >>> k) := if_pos hk

/-! ## Strings and tables -/

/-- the table with entry `i` replaced, if it has one -/
def write? (v : Vector α n) (i : ℕ) (a : α) : Option (Vector α n) :=
  if i < n then some (v.setIfInBounds i a) else none

/-- the first `n` bytes and those after them, if there are as many -/
def splitAt? (n : ℕ) (bytes : List UInt8) : Option (List UInt8 × List UInt8) :=
  if n ≤ bytes.length then some (bytes.take n, bytes.drop n) else none

/-- the buffer filled with a string, if that is as long -/
def fill? (buffer : List UInt8) (bytes : Bytes n) : Option (List UInt8) :=
  if buffer.length = n then some bytes.toList else none

/-- two strings written into the two parts of a buffer of zeros -/
def concat? {m : ℕ} (a : Bytes m) (b : Bytes n) : Option (Bytes (m + n)) := do
  let size ← index? (m + n)
  let (front, back) ← splitAt? m (List.replicate size 0)
  let front ← fill? front a
  let back ← fill? back b
  Bytes.ofList? (m + n) (front ++ back)

theorem write?_eq {v : Vector α n} {i : ℕ} (a : α) (h : i < n) : write? v i a = some (v.setIfInBounds i a) := if_pos h

theorem splitAt?_eq {bytes : List UInt8} (h : n ≤ bytes.length) :
    splitAt? n bytes = some (bytes.take n, bytes.drop n) := if_pos h

theorem splitAt?_append {m : ℕ} (a : Bytes m) (b : Bytes n) :
    splitAt? m (Bytes.append a b).toList = some (a.toList, b.toList) := by
  rw [splitAt?_eq (by simp), Bytes.take_append, Bytes.drop_append]

theorem fill?_eq {buffer : List UInt8} {bytes : Bytes n} (h : buffer.length = n) :
    fill? buffer bytes = some bytes.toList := if_pos h

theorem concat?_eq {m : ℕ} (a : Bytes m) (b : Bytes n) (h : m + n < 2 ^ 16) :
    concat? a b = some (Bytes.append a b) := by
  have hfront : (List.take m (List.replicate (m + n) (0 : UInt8))).length = m := by simp
  have hback : (List.drop m (List.replicate (m + n) (0 : UInt8))).length = n := by simp
  refine andThen (index?_eq h) ?_
  refine andThen (splitAt?_eq (by simp)) ?_
  refine andThen (fill?_eq hfront) ?_
  refine andThen (fill?_eq hback) ?_
  rw [← Bytes.toList_append]
  exact Bytes.ofList?_toList _

/-- a table none of whose entries refuses -/
theorem ofFnM_eq_some {f? : Fin n → Option α} {f : Fin n → α} (h : ∀ i, f? i = some (f i)) :
    Vector.ofFnM f? = some (Vector.ofFn f) := by
  obtain rfl : f? = fun i => pure (f i) := funext h
  exact Vector.ofFnM_pure

/-- a step for each entry of a table -/
def map? (f? : α → Option β) (v : Vector α n) : Option (Vector β n) := Vector.ofFnM fun i => f? (v.get i)

/-- a step for each two entries with one index -/
def zip? (op? : α → α → Option β) (u v : Vector α n) : Option (Vector β n) :=
  Vector.ofFnM fun i => op? (u.get i) (v.get i)

theorem map?_eq {f? : α → Option β} {f : α → β} {v : Vector α n} (h : ∀ i, f? (v.get i) = some (f (v.get i))) :
    map? f? v = some (v.map f) := by
  unfold map?
  rw [ofFnM_eq_some h]
  refine congrArg some (ext_get fun i => ?_)
  rw [get_ofFn, get_map]

theorem zip?_eq {op? : α → α → Option β} {u v : Vector α n} {w : Vector β n}
    (h : ∀ i, op? (u.get i) (v.get i) = some (w.get i)) : zip? op? u v = some w := by
  unfold zip?
  rw [ofFnM_eq_some h]
  exact congrArg some (ext_get fun i => get_ofFn _ i)

theorem zip?_add [Add α] {op? : α → α → Option α} {u v : Vector α n}
    (h : ∀ i, op? (u.get i) (v.get i) = some (u.get i + v.get i)) : zip? op? u v = some (u + v) :=
  zip?_eq fun i => (h i).trans (congrArg some (get_add u v i).symm)

/-! ## Loops -/

variable (step? : β → α → Option β) (step : β → α → β) (items : List α) {s : β}

/-- **A loop with an invariant.** If no step refuses where the invariant holds and each step keeps it, the loop has a
result, and the invariant holds at the end. -/
theorem foldlM_invariant (I : ℕ → β → Prop) (hstart : I 0 s)
    (hstep : ∀ n (hn : n < items.length) s, I n s → ∃ s', step? s items[n] = some s' ∧ I (n + 1) s') :
    ∃ s', items.foldlM step? s = some s' ∧ I items.length s' := by
  induction items generalizing I s with
  | nil => exact ⟨s, rfl, hstart⟩
  | cons a items ih =>
    obtain ⟨t, ht, hI⟩ := hstep 0 (Nat.succ_pos _) s hstart
    obtain ⟨s', hs', hend⟩ := ih (fun n => I (n + 1)) hI fun n hn => hstep (n + 1) (Nat.succ_lt_succ hn)
    refine ⟨s', ?_, hend⟩
    rw [List.foldlM_cons]
    exact (congrArg (· >>= fun t => items.foldlM step? t) ht).trans hs'

/-- so it is the loop of plain steps, if they give the same -/
theorem foldlM_eq_foldl (I : ℕ → β → Prop) (hstart : I 0 s)
    (hstep : ∀ n (hn : n < items.length) s, I n s →
      step? s items[n] = some (step s items[n]) ∧ I (n + 1) (step s items[n])) :
    items.foldlM step? s = some (items.foldl step s) ∧ I items.length (items.foldl step s) := by
  obtain ⟨s', hs', hfold, hI⟩ := foldlM_invariant step? items (s := s)
    (fun n t => t = (items.take n).foldl step s ∧ I n t) ⟨rfl, hstart⟩ fun n hn t ⟨ht, hI⟩ => by
      obtain ⟨hnext, hI⟩ := hstep n hn t hI
      refine ⟨_, hnext, ?_, hI⟩
      rw [List.take_add_one, List.getElem?_eq_getElem hn, List.foldl_append, ← ht]
      rfl
  rw [List.take_length] at hfold
  rw [hfold] at hs' hI
  exact ⟨hs', hI⟩

/-- the same for a loop over the numbers below `n` -/
theorem foldlM_finRange (step? : β → Fin n → Option β) (step : β → Fin n → β) (I : ℕ → β → Prop) (hstart : I 0 s)
    (hstep : ∀ (i : Fin n) s, I i.val s → step? s i = some (step s i) ∧ I (i.val + 1) (step s i)) :
    (List.finRange n).foldlM step? s = some ((List.finRange n).foldl step s) ∧
      I n ((List.finRange n).foldl step s) := by
  have hloop := foldlM_eq_foldl step? step (List.finRange n) I hstart fun i hi s hI => by
    have hentry : (List.finRange n)[i] = ⟨i, List.length_finRange (n := n) ▸ hi⟩ := by simp
    rw [hentry]
    exact hstep _ s hI
  rwa [List.length_finRange] at hloop

end PostQuantum.InRange
