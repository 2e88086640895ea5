/-
Bits of byte strings and of packed words.

`Bytes.bit` numbers the bits of a byte string from the lowest bit of its first byte on. A string is known by its bits
(`Bytes.ext_bit`), and so is the number that it spells (`Bytes.testBit_toNat_toList`, `Bytes.toNat_ofNat`);
`Bytes.group` is the number in d bits of it. A word that is put together from pieces of w bits each, side by side, has
bit n / w of the piece that bit n falls into (`getLsbD_packed`), provided that no piece is longer than w bits.
-/
import Mathlib.Tactic
import PostQuantum.Bytes
import PostQuantum.Word

namespace PostQuantum

/-! ## Byte strings -/

namespace Bytes

variable {n : ℕ} {a b : Bytes n}

/-- bit `m` of a byte string, the lowest bit of the first byte being bit 0 -/
def bit (bs : Bytes n) (m : ℕ) : Bool :=
  if h : m / 8 < n then (bs.get ⟨m / 8, h⟩).toBitVec.getLsbD (m % 8) else false

theorem bit_of_byte (bs : Bytes n) (i : Fin n) {t : ℕ} (ht : t < 8) :
    bs.bit (8 * i.val + t) = (bs.get i).toBitVec.getLsbD t := by
  obtain ⟨hdiv, hmod⟩ : (8 * i.val + t) / 8 = i.val ∧ (8 * i.val + t) % 8 = t := by omega
  unfold bit
  simp only [hdiv, hmod, i.isLt, dif_pos]

theorem ext_bit (h : ∀ m < 8 * n, a.bit m = b.bit m) : a = b := by
  refine ext_get fun i => UInt8.eq_of_toBitVec_eq (BitVec.eq_of_getLsbD_eq fun t ht => ?_)
  rw [← bit_of_byte a i ht, ← bit_of_byte b i ht]
  have hi := i.isLt
  exact h _ (by omega)

theorem bit_chunk {k : ℕ} (bs : Bytes (k * n)) (i : Fin k) {m : ℕ} (hm : m < 8 * n) :
    (chunk bs i).bit m = bs.bit (8 * (i.val * n) + m) := by
  obtain ⟨j, t, ht, rfl⟩ : ∃ (j : Fin n) (t : ℕ), t < 8 ∧ m = 8 * j.val + t :=
    ⟨⟨m / 8, by omega⟩, m % 8, by omega, by simp only; omega⟩
  have hplace : 8 * (i.val * n) + (8 * j.val + t) = 8 * (place i j).val + t := by
    simp only [place]
    ring
  rw [bit_of_byte _ j ht, hplace, bit_of_byte _ _ ht, chunk, get_ofFn]

/-! ### The number that a string spells -/

theorem testBit_toNat (bs : List UInt8) (m : ℕ) :
    (toNat bs).testBit m = (bs.getD (m / 8) 0).toBitVec.getLsbD (m % 8) := by
  induction bs generalizing m with
  | nil => simp [toNat]
  | cons b bs ih =>
    have hstep : toNat (b :: bs) = 2 ^ 8 * toNat bs + b.toNat := Nat.add_comm _ _
    have hb : b.toNat < 2 ^ 8 := b.toBitVec.isLt
    rw [hstep, Nat.testBit_two_pow_mul_add _ hb]
    split
    case isTrue h =>
      rw [Nat.div_eq_of_lt h, Nat.mod_eq_of_lt h]
      rfl
    case isFalse h =>
      obtain ⟨hdiv, hmod⟩ : m / 8 = (m - 8) / 8 + 1 ∧ m % 8 = (m - 8) % 8 := by omega
      rw [ih, hdiv, hmod, List.getD_cons_succ]

/-- a string as a number has the bits of the string -/
theorem testBit_toNat_toList (bs : Bytes n) (m : ℕ) : (toNat bs.toList).testBit m = bs.bit m := by
  rw [testBit_toNat, bit]
  split
  case isTrue h =>
    have hlen : m / 8 < bs.toList.length := by simpa using h
    rw [List.getD_eq_getElem?_getD, List.getElem?_eq_getElem hlen]
    rfl
  case isFalse h =>
    have hlen : bs.toList.length ≤ m / 8 := by simpa using h
    rw [List.getD_eq_getElem?_getD, List.getElem?_eq_none hlen]
    exact BitVec.getLsbD_zero

/-- strings of one length that spell one number are the same -/
theorem eq_of_toNat_eq (h : toNat a.toList = toNat b.toList) : a = b := by
  apply ext_bit
  intro m hm
  rw [← testBit_toNat_toList, h, testBit_toNat_toList]

/-- a number that is not too long is the one that its bytes spell -/
theorem toNat_ofNat {x : ℕ} (hx : x < 2 ^ (8 * n)) : toNat (ofNat n x).toList = x := by
  apply Nat.eq_of_testBit_eq
  intro m
  rw [testBit_toNat_toList, bit]
  split
  case isTrue h =>
    have hplace : 8 * (m / 8) + m % 8 = m := Nat.div_add_mod m 8
    have hbyte : ∀ y, (UInt8.ofNat y).toBitVec.getLsbD (m % 8) = y.testBit (m % 8) := by
      intro y
      change (BitVec.ofNat 8 y).getLsbD (m % 8) = _
      rw [BitVec.getLsbD_ofNat, decide_eq_true (Nat.mod_lt m (by norm_num)), Bool.true_and]
    rw [ofNat, get_ofFn, hbyte, Nat.testBit_shiftRight, hplace]
  case isFalse h =>
    have hlong : 2 ^ (8 * n) ≤ 2 ^ m := Nat.pow_le_pow_right Nat.two_pos (by omega)
    rw [Nat.testBit_lt_two_pow (hx.trans_le hlong)]

/-- the number in bits d i to d i + d - 1 of a string -/
def group (d : ℕ) (bs : List UInt8) (i : ℕ) : ℕ := toNat bs / 2 ^ (d * i) % 2 ^ d

theorem testBit_group (d : ℕ) (bs : List UInt8) (i t : ℕ) :
    (group d bs i).testBit t = (decide (t < d) && (toNat bs).testBit (d * i + t)) := by
  rw [group, Nat.testBit_mod_two_pow, Nat.testBit_div_two_pow, Nat.add_comm]

example : [0, 1].map (group 12 [0x01, 0x23, 0x45]) = [0x301, 0x452] := by decide

end Bytes

/-! ## Packed words -/

namespace Word

variable {size count w n : ℕ}

theorem toNat_lowMask {k : ℕ} (h : k < size) : (lowMask size k).toNat = 2 ^ k - 1 := by
  have hpow : 2 ^ k < 2 ^ size := Nat.pow_lt_pow_right (by norm_num) h
  have hone : (BitVec.ofNat size 1).toNat = 1 := BitVec.toNat_one (by omega)
  have hshift : (BitVec.ofNat size (1 <<< k)).toNat = 2 ^ k := by
    rw [BitVec.toNat_ofNat, Nat.shiftLeft_eq, Nat.one_mul]
    exact Nat.mod_eq_of_lt hpow
  have hle : BitVec.ofNat size 1 ≤ BitVec.ofNat size (1 <<< k) := by
    rw [BitVec.le_def, hshift, hone]
    exact Nat.one_le_two_pow
  change (BitVec.ofNat size (1 <<< k) - BitVec.ofNat size 1).toNat = _
  rw [BitVec.toNat_sub_of_le hle, hshift, hone]

theorem getLsbD_lowMask {k : ℕ} (h : k < size) (t : ℕ) : (lowMask size k).getLsbD t = decide (t < k) := by
  rw [BitVec.getLsbD, toNat_lowMask h, Nat.testBit_two_pow_sub_one]

theorem getLsbD_of_lt_two_pow {x : BitVec size} (hx : x.toNat < 2 ^ w) {t : ℕ} (ht : w ≤ t) : x.getLsbD t = false := by
  rw [BitVec.getLsbD]
  exact Nat.testBit_lt_two_pow (hx.trans_le (Nat.pow_le_pow_right Nat.two_pos ht))

/-- a mask bounds what it leaves -/
theorem and_lt {mask : BitVec size} (x : BitVec size) (hmask : mask.toNat < 2 ^ w) : (x &&& mask).toNat < 2 ^ w := by
  rw [BitVec.toNat_and]
  exact Nat.and_lt_two_pow _ hmask

theorem and_lowMask_lt {k : ℕ} (hk : k < size) (x : BitVec size) : (x &&& lowMask size k).toNat < 2 ^ k := by
  refine and_lt x ?_
  rw [toNat_lowMask hk]
  exact Nat.sub_lt (Nat.two_pow_pos k) Nat.one_pos

/-- a mask leaves a word that lies below it as it is -/
theorem and_lowMask_of_lt {x : BitVec size} {k : ℕ} (hk : k < size) (hx : x.toNat < 2 ^ k) : x &&& lowMask size k = x := by
  rw [BitVec.toNat_eq, BitVec.toNat_and, toNat_lowMask hk, Nat.and_two_pow_sub_one_eq_mod]
  exact Nat.mod_eq_of_lt hx

theorem ushiftRight_lt {x : BitVec size} {k : ℕ} (hx : x.toNat < 2 ^ (k + n)) : (x >>> k).toNat < 2 ^ n := by
  rw [BitVec.toNat_ushiftRight, Nat.shiftRight_eq_div_pow]
  exact Nat.div_lt_of_lt_mul (by rwa [← pow_add])

/-- a number without its lowest l bits is twice what it is without one more, and the bit at place l -/
theorem shiftRight_eq_two_mul_add (n l : ℕ) : n >>> l = 2 * (n >>> (l + 1)) + (n.testBit l).toNat := by
  have hbit := Nat.bit_testBit_zero_shiftRight_one (n >>> l)
  rw [Nat.bit_val, Nat.testBit_shiftRight, Nat.add_zero, ← Nat.shiftRight_add] at hbit
  exact hbit.symm

/-- a bit of a word, moved to the lowest place and taken alone -/
theorem shiftRight_and_one_eq_one_iff (hsize : 0 < size) (x : BitVec size) (i : ℕ) :
    (x >>> i) &&& 1 = 1 ↔ x.getLsbD i = true := by
  have hone : (1 : BitVec size).toNat = 1 := BitVec.toNat_one hsize
  rw [BitVec.toNat_eq, BitVec.toNat_and, hone, Nat.and_one_is_mod, BitVec.toNat_ushiftRight, Nat.shiftRight_eq_div_pow,
    BitVec.getLsbD, Nat.testBit_eq_decide_div_mod_eq, decide_eq_true_iff]

/-- a bit of a word put together by disjunctions is set where it is set in a part -/
theorem getLsbD_foldl_or {α : Type} (part : α → BitVec size) (parts : List α) (acc : BitVec size) (n : ℕ) :
    (parts.foldl (fun acc j => acc ||| part j) acc).getLsbD n =
      (acc.getLsbD n || parts.any fun j => (part j).getLsbD n) := by
  induction parts generalizing acc with
  | nil => simp
  | cons j parts ih => rw [List.foldl_cons, ih, BitVec.getLsbD_or, List.any_cons, Bool.or_assoc]

/-- **Packed words.** Of pieces of w bits side by side, bit n lies in piece n / w. -/
theorem getLsbD_packed (piece : Fin count → BitVec size) (hw : 0 < w) (hpiece : ∀ j, (piece j).toNat < 2 ^ w)
    (hn : n < size) (hin : n / w < count) :
    ((List.finRange count).foldl (fun acc j => acc ||| piece j <<< (w * j.val)) 0).getLsbD n =
      (piece ⟨n / w, hin⟩).getLsbD (n % w) := by
  have hsplit := Nat.div_add_mod n w
  have hother : ∀ j : Fin count, j ≠ ⟨n / w, hin⟩ → (piece j <<< (w * j.val)).getLsbD n = false := by
    intro j hj
    have hne : j.val ≠ n / w := fun h => hj (Fin.ext h)
    rw [BitVec.getLsbD_shiftLeft]
    rcases lt_or_gt_of_ne hne with hlt | hgt
    · have hle : w * j.val + w ≤ w * (n / w) := by
        calc w * j.val + w = w * (j.val + 1) := by ring
          _ ≤ w * (n / w) := Nat.mul_le_mul_left w hlt
      rw [getLsbD_of_lt_two_pow (hpiece j) (by omega), Bool.and_false]
    · have hle : w * (n / w) + w ≤ w * j.val := by
        calc w * (n / w) + w = w * (n / w + 1) := by ring
          _ ≤ w * j.val := Nat.mul_le_mul_left w hgt
      have hmod := Nat.mod_lt n hw
      have hbelow : n < w * j.val := by omega
      simp [hbelow]
  have hthis : (piece ⟨n / w, hin⟩ <<< (w * (n / w))).getLsbD n = (piece ⟨n / w, hin⟩).getLsbD (n % w) := by
    rw [BitVec.getLsbD_shiftLeft, show n - w * (n / w) = n % w by omega]
    have hle : ¬n < w * (n / w) := by omega
    simp [hn, hle]
  have hzero : (0 : BitVec size).getLsbD n = false := BitVec.getLsbD_zero
  rw [getLsbD_foldl_or, hzero, Bool.false_or, ← hthis, Bool.eq_iff_iff, List.any_eq_true]
  constructor
  · rintro ⟨j, -, hj⟩
    by_cases h : j = ⟨n / w, hin⟩
    · rw [h] at hj
      exact hj
    · rw [hother j h] at hj
      exact absurd hj Bool.false_ne_true
  · intro h
    exact ⟨⟨n / w, hin⟩, List.mem_finRange _, h⟩

end Word

end PostQuantum
