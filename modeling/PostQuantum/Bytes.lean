/-
Byte strings.

A `Bytes n` is a string of exactly n bytes, a `List UInt8` one of any length. Lengths are settled once, where a
string enters (`ofList?`), so nothing further in has to check them again.
- `ofList?_eq_some_iff`: reading a list as n bytes succeeds exactly when the list has n bytes, and keeps them.
- `sized_eq_error_iff`: where it fails, the error tells the length that was wanted and the one that was found.
- `split_append`, `append_split`: cutting a string in two undoes joining, and the other way round.
- `chunk_join`: a string made of equal chunks gives each chunk back.
-/
import PostQuantum.Indexed

namespace PostQuantum

/-- a string of exactly `n` bytes -/
abbrev Bytes (n : Nat) := Vector UInt8 n

namespace Bytes

variable {m n k : Nat}

/-- the bytes of a list, if there are exactly `n` of them -/
def ofList? (n : Nat) (bs : List UInt8) : Option (Bytes n) :=
  if h : bs.length = n then some ⟨bs.toArray, by simpa using h⟩ else none

/-- the bytes of a list if there are `n` of them, else an error that tells both lengths -/
def sized {ε : Type} (n : Nat) (error : (expected actual : Nat) → ε) (bs : List UInt8) : Except ε (Bytes n) :=
  match ofList? n bs with
  | some v => .ok v
  | none => .error (error n bs.length)

/-- the first `n` bytes of a list; zeros stand for bytes past its end -/
def fit (n : Nat) (bs : List UInt8) : Bytes n :=
  let a := bs.toArray
  Vector.ofFn fun i => a.getD i 0

/-- the bytes of `a`, then those of `b` -/
def append (a : Bytes m) (b : Bytes n) : Bytes (m + n) := Vector.append a b

/-- the first `m` bytes, and the `n` bytes after them -/
def split (bs : Bytes (m + n)) : Bytes m × Bytes n :=
  (Vector.ofFn fun i => bs.get (i.castAdd n), Vector.ofFn fun i => bs.get (i.natAdd m))

/-- a string of 64 bytes in halves -/
def halves (bs : Bytes 64) : Bytes 32 × Bytes 32 :=
  split (show Bytes (32 + 32) from bs)

/-- a string of `k` chunks of `n` bytes each -/
def join (chunks : Vector (Bytes n) k) : Bytes (k * n) :=
  chunks.flatten

theorem place_lt (i : Fin k) (j : Fin n) : i.val * n + j.val < k * n :=
  calc i.val * n + j.val < i.val * n + n := Nat.add_lt_add_left j.isLt _
    _ = (i.val + 1) * n := (Nat.succ_mul i.val n).symm
    _ ≤ k * n := Nat.mul_le_mul_right n i.isLt

/-- where byte `j` of chunk `i` stands -/
def place (i : Fin k) (j : Fin n) : Fin (k * n) := ⟨i.val * n + j.val, place_lt i j⟩

/-- chunk `i` of a string of `k` chunks -/
def chunk (bs : Bytes (k * n)) (i : Fin k) : Bytes n :=
  Vector.ofFn fun j => bs.get (place i j)

/-- all zeros -/
def zeros (n : Nat) : Bytes n := Vector.replicate n 0

/-- the number that the bytes spell, the first byte lowest -/
def toNat (bs : List UInt8) : Nat :=
  bs.foldr (fun b acc => b.toNat + 256 * acc) 0

/-- the lowest `n` bytes of a number, the lowest first -/
def ofNat (n x : Nat) : Bytes n :=
  Vector.ofFn fun i => UInt8.ofNat (x >>> (8 * i.val))

theorem ofList?_eq_some_iff {bs : List UInt8} {v : Bytes n} : ofList? n bs = some v ↔ v.toList = bs := by
  unfold ofList?
  constructor
  · intro h
    split at h
    · cases h; rfl
    · cases h
  · rintro rfl
    rw [dif_pos (Vector.length_toList ..)]
    exact congrArg some (Vector.toArray_inj.1 (Array.toArray_toList))

theorem ofList?_eq_none_iff {bs : List UInt8} : ofList? n bs = none ↔ bs.length ≠ n := by
  unfold ofList?
  split <;> simp_all

@[simp] theorem ofList?_toList (v : Bytes n) : ofList? n v.toList = some v :=
  ofList?_eq_some_iff.2 rfl

theorem sized_eq_ok_iff {ε : Type} {error : Nat → Nat → ε} {bs : List UInt8} {v : Bytes n} :
    sized n error bs = .ok v ↔ v.toList = bs := by
  rw [← ofList?_eq_some_iff]
  unfold sized
  cases ofList? n bs <;> simp

theorem sized_eq_error_iff {ε : Type} {error : Nat → Nat → ε} {bs : List UInt8} {e : ε} :
    sized n error bs = .error e ↔ bs.length ≠ n ∧ e = error n bs.length := by
  rw [← ofList?_eq_none_iff]
  unfold sized
  cases ofList? n bs with
  | some v => simp
  | none => simp [eq_comm]

@[simp] theorem toList_append (a : Bytes m) (b : Bytes n) : (append a b).toList = a.toList ++ b.toList :=
  Vector.toList_append

@[simp] theorem split_append (a : Bytes m) (b : Bytes n) : split (append a b) = (a, b) := by
  refine Prod.ext (ext_get fun i => ?_) (ext_get fun i => ?_)
  · exact (get_ofFn _ i).trans (get_append_castAdd a b i)
  · exact (get_ofFn _ i).trans (get_append_natAdd a b i)

@[simp] theorem append_split (bs : Bytes (m + n)) : append (split bs).1 (split bs).2 = bs := by
  refine ext_get fun i => ?_
  cases i using Fin.addCases with
  | left i => exact (get_append_castAdd _ _ i).trans (get_ofFn _ i)
  | right i => exact (get_append_natAdd _ _ i).trans (get_ofFn _ i)

/-- a string in two -/
theorem exists_append (bs : Bytes (m + n)) : ∃ (a : Bytes m) (b : Bytes n), bs = append a b :=
  ⟨_, _, (append_split bs).symm⟩

/-- a string of 64 bytes in halves -/
theorem exists_halves (bs : Bytes 64) : ∃ a b : Bytes 32, bs = append a b ∧ halves bs = (a, b) :=
  have ⟨a, b, h⟩ := exists_append (m := 32) (n := 32) bs
  ⟨a, b, h, h ▸ split_append a b⟩

theorem append_inj {a a' : Bytes m} {b b' : Bytes n} : append a b = append a' b' ↔ a = a' ∧ b = b' := by
  constructor
  · intro h
    have hsplit := congrArg split h
    rw [split_append, split_append] at hsplit
    exact Prod.mk.inj hsplit
  · rintro ⟨rfl, rfl⟩
    rfl

@[simp] theorem take_append (a : Bytes m) (b : Bytes n) : (append a b).toList.take m = a.toList := by
  rw [toList_append]
  exact List.take_left' (Vector.length_toList ..)

@[simp] theorem drop_append (a : Bytes m) (b : Bytes n) : (append a b).toList.drop m = b.toList := by
  rw [toList_append]
  exact List.drop_left' (Vector.length_toList ..)

theorem get_join (chunks : Vector (Bytes n) k) (i : Fin k) (j : Fin n) :
    (join chunks).get (place i j) = (chunks.get i).get j := by
  have hn : 0 < n := Nat.lt_of_le_of_lt (Nat.zero_le j.val) j.isLt
  have hq : (i.val * n + j.val) / n = i.val := by
    rw [Nat.mul_comm, Nat.mul_add_div hn, Nat.div_eq_of_lt j.isLt, Nat.add_zero]
  have hr : (i.val * n + j.val) % n = j.val := by
    rw [Nat.mul_comm, Nat.mul_add_mod, Nat.mod_eq_of_lt j.isLt]
  have hp := place_lt i j
  have h : chunks.flatten[i.val * n + j.val] = _ := Vector.getElem_flatten hp
  exact h.trans (congr (congrArg (fun c => Vector.get (chunks.get c)) (Fin.ext hq)) (Fin.ext hr))

@[simp] theorem chunk_join (chunks : Vector (Bytes n) k) (i : Fin k) : chunk (join chunks) i = chunks.get i :=
  ext_get fun j => (get_ofFn _ j).trans (get_join chunks i j)

theorem exists_place (p : Fin (k * n)) : ∃ (i : Fin k) (j : Fin n), place i j = p := by
  have hn : 0 < n := Nat.pos_of_ne_zero fun h => by
    have hp := p.isLt
    simp [h] at hp
  have hi : p.val / n < k := Nat.div_lt_of_lt_mul (Nat.mul_comm k n ▸ p.isLt)
  refine ⟨⟨p.val / n, hi⟩, ⟨p.val % n, Nat.mod_lt _ hn⟩, Fin.ext ?_⟩
  change p.val / n * n + p.val % n = p.val
  rw [Nat.mul_comm]
  exact Nat.div_add_mod p.val n

@[simp] theorem join_chunk (bs : Bytes (k * n)) : join (Vector.ofFn (chunk bs)) = bs := by
  refine ext_get fun p => ?_
  obtain ⟨i, j, rfl⟩ := exists_place p
  rw [get_join, get_ofFn]
  exact get_ofFn _ j

end Bytes

end PostQuantum
