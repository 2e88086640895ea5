/-
Packing, as it is written for strings of single bits.

A byte string is a string of bits, eight for each byte with the lowest first. To pack values of d bits, the bits of one
value are taken off after those of the other, and the string is cut into bytes; to unpack, d bits at a time are put
together and reduced, modulo 2^d below twelve bits and modulo q for twelve.
- `BitLevel.bit_bitsToBytes`, `BitLevel.getD_bytesToBits`: bit strings and byte strings number their bits alike.
- `BitLevel.byteEncode_eq`: groups of eight through one word are packed as bit by bit.
- `BitLevel.valueOf_window`, `toNat_rawValue_eq_sum`: the d bits of a value, as the number they spell and as a sum.
- `BitLevel.val_byteDecode_eq`: so values are unpacked as bit by bit.
- `bit_level_packing`: so packing and unpacking are the conversions on bits, for every width up to twelve.
-/
import Mathlib.Tactic
import PostQuantum.Proofs.MLKEM.Packing

namespace PostQuantum.MLKEM

open PrimeField

variable {d : ℕ}

namespace BitLevel

/-! ## Strings of bits -/

/-- the lowest `d` bits of a number, taken off one after the other -/
def bitsOf : (d : ℕ) → ℕ → List Bool
  | 0, _ => []
  | d + 1, a => decide (a % 2 = 1) :: bitsOf d (a / 2)

/-- the number that bits spell, the first of them lowest -/
def valueOf : List Bool → ℕ
  | [] => 0
  | b :: bits => b.toNat + 2 * valueOf bits

/-- `n` bytes from a string of bits, eight for each -/
def bitsToBytes (n : ℕ) (bits : List Bool) : Bytes n :=
  Vector.ofFn fun i => UInt8.ofNat (valueOf ((bits.drop (8 * i.val)).take 8))

/-- the bits of all bytes -/
def bytesToBits {n : ℕ} (bytes : Bytes n) : List Bool :=
  bytes.toList.flatMap fun b => bitsOf 8 b.toNat

/-- the bits of all values, in bytes -/
def byteEncode (d : ℕ) (values : Vector Coeff 256) : Bytes (32 * d) :=
  bitsToBytes (32 * d) (values.toList.flatMap fun c => bitsOf d c.val)

/-- the value in bits d i to d i + d - 1, reduced -/
def byteDecode (d : ℕ) (bytes : Bytes (32 * d)) (i : Fin 256) : ℕ :=
  valueOf (((bytesToBits bytes).drop (d * i.val)).take d) % if d < 12 then 2 ^ d else 3329

/-! ## Bits by number -/

theorem length_bitsOf (d a : ℕ) : (bitsOf d a).length = d := by
  induction d generalizing a with
  | zero => rfl
  | succ d ih => exact congrArg Nat.succ (ih (a / 2))

theorem getElem?_bitsOf (a : ℕ) {j : ℕ} (hj : j < d) : (bitsOf d a)[j]? = some (a.testBit j) := by
  induction d generalizing a j with
  | zero => exact absurd hj (Nat.not_lt_zero j)
  | succ d ih =>
    cases j with
    | zero => exact congrArg some (Nat.testBit_zero a).symm
    | succ j =>
      rw [bitsOf, List.getElem?_cons_succ, ih (a / 2) (Nat.lt_of_succ_lt_succ hj), Nat.testBit_succ]

theorem testBit_valueOf (bits : List Bool) (j : ℕ) : (valueOf bits).testBit j = bits.getD j false := by
  induction bits generalizing j with
  | nil => simp [valueOf]
  | cons b bits ih =>
    have hstep : valueOf (b :: bits) = 2 ^ 1 * valueOf bits + b.toNat := Nat.add_comm _ _
    rw [hstep, Nat.testBit_two_pow_mul_add _ (Bool.toNat_lt b)]
    cases j with
    | zero => cases b <;> rfl
    | succ j => simpa using ih j

/-- in a string of pieces of length `d`, place d i + j is place j of piece i -/
theorem getElem?_flatMap {α : Type} {f : α → List Bool} (hf : ∀ a, (f a).length = d) (items : List α) (i : ℕ) {j : ℕ}
    (hj : j < d) : (items.flatMap f)[d * i + j]? = items[i]?.bind fun a => (f a)[j]? := by
  induction items generalizing i with
  | nil => rfl
  | cons a items ih =>
    rw [List.flatMap_cons]
    cases i with
    | zero =>
      rw [Nat.mul_zero, Nat.zero_add, List.getElem?_append_left (by rwa [hf])]
      rfl
    | succ i =>
      have hplace : d * (i + 1) + j - d = d * i + j := by
        rw [Nat.mul_succ]
        omega
      rw [List.getElem?_append_right (by rw [hf, Nat.mul_succ]; omega), hf, hplace, ih, List.getElem?_cons_succ]

theorem getD_window (bits : List Bool) (start : ℕ) {j : ℕ} (hj : j < d) :
    ((bits.drop start).take d).getD j false = bits.getD (start + j) false := by
  rw [List.getD_eq_getElem?_getD, List.getD_eq_getElem?_getD, List.getElem?_take_of_lt hj, List.getElem?_drop]

/-- **Bits into bytes.** The bytes have the bits of the string. -/
theorem bit_bitsToBytes {n : ℕ} (bits : List Bool) {m : ℕ} (hm : m < 8 * n) :
    (bitsToBytes n bits).bit m = bits.getD m false := by
  obtain ⟨i, t, ht, rfl⟩ : ∃ (i : Fin n) (t : ℕ), t < 8 ∧ m = 8 * i.val + t :=
    ⟨⟨m / 8, by omega⟩, m % 8, by omega, by simp only; omega⟩
  have hbyte : ∀ x : ℕ, (UInt8.ofNat x).toBitVec.getLsbD t = x.testBit t := fun x => by
    rw [BitVec.getLsbD]
    change (x % 2 ^ 8).testBit t = _
    rw [Nat.testBit_mod_two_pow, decide_eq_true ht, Bool.true_and]
  rw [Bytes.bit_of_byte _ i ht, bitsToBytes, get_ofFn, hbyte, testBit_valueOf, getD_window bits _ ht]

/-- **Bytes into bits.** The string has the bits of the bytes. -/
theorem getD_bytesToBits {n : ℕ} (bytes : Bytes n) {m : ℕ} (hm : m < 8 * n) :
    (bytesToBits bytes).getD m false = bytes.bit m := by
  obtain ⟨i, t, ht, rfl⟩ : ∃ (i : Fin n) (t : ℕ), t < 8 ∧ m = 8 * i.val + t :=
    ⟨⟨m / 8, by omega⟩, m % 8, by omega, by simp only; omega⟩
  have hget : bytes.toList[i.val]? = some (bytes.get i) := by
    rw [List.getElem?_eq_getElem (by simp)]
    rfl
  rw [List.getD_eq_getElem?_getD, bytesToBits, getElem?_flatMap (fun b : UInt8 => length_bitsOf 8 b.toNat) _ _ ht, hget,
    Option.bind_some, getElem?_bitsOf _ ht, Bytes.bit_of_byte _ i ht]
  rfl

/-! ## Packing -/

/-- **Packing bit by bit.** Values of at most d bits are packed in groups as they are bit by bit. -/
theorem byteEncode_eq (hd16 : d ≤ 16) {v : Vector Coeff 256} (hv : FitsBits d v) :
    MLKEM.byteEncode d v = byteEncode d v := by
  refine Bytes.ext_bit fun m hm => ?_
  have hd := width_pos hm
  have hmod := Nat.mod_lt m hd
  have hget : v.toList[m / d]? = some (v.get ⟨m / d, value_lt hm⟩) := by
    rw [List.getElem?_eq_getElem (by simpa using value_lt hm)]
    rfl
  have hbit := getElem?_flatMap (fun c : Coeff => length_bitsOf d c.val) v.toList (m / d) hmod
  rw [Nat.div_add_mod, hget, Option.bind_some, getElem?_bitsOf _ hmod] at hbit
  rw [bit_byteEncode hd16 hv hm, byteEncode, bit_bitsToBytes _ hm, List.getD_eq_getElem?_getD, hbit]
  rfl

/-- the bits that stand for a value spell the value that unpacking reads -/
theorem valueOf_window (hd16 : d ≤ 16) (bytes : Bytes (32 * d)) (i : Fin 256) :
    valueOf (((bytesToBits bytes).drop (d * i.val)).take d) = (rawValue d bytes i).toNat := by
  refine Nat.eq_of_testBit_eq fun t => ?_
  rw [testBit_valueOf, BitVec.testBit_toNat]
  rcases lt_or_ge t d with ht | ht
  · rw [getD_window _ _ ht, getD_bytesToBits bytes (bitPlace_lt i ht), getLsbD_rawValue hd16 bytes i (by omega)]
    simp only [ht, decide_true, Bool.true_and]
  · have hlength : (((bytesToBits bytes).drop (d * i.val)).take d).length ≤ t := (List.length_take_le _ _).trans ht
    rw [List.getD_eq_getElem?_getD, List.getElem?_eq_none hlength]
    exact (Word.getLsbD_of_lt_two_pow (toNat_rawValue_lt hd16 bytes i) ht).symm

/-- **Unpacking bit by bit.** The values that are unpacked in groups are those that the bits spell, reduced. -/
theorem val_byteDecode_eq (hd12 : d ≤ 12) (bytes : Bytes (32 * d)) (i : Fin 256) :
    ((MLKEM.byteDecode d bytes).get i).val = byteDecode d bytes i := by
  have hd16 : d ≤ 16 := hd12.trans (by norm_num)
  rw [val_byteDecode hd12, byteDecode, valueOf_window hd16]
  split
  case isTrue hd =>
    -- below twelve bits neither remainder changes the value
    have hlt := toNat_rawValue_lt hd16 bytes i
    rw [Nat.mod_eq_of_lt hlt, Nat.mod_eq_of_lt (rawValue_reduced hd bytes i)]
  case isFalse => rfl

end BitLevel

/-! ## Every width -/

/-- the low bits of a number as a sum -/
theorem mod_two_pow_eq_sum (x d : ℕ) : x % 2 ^ d = ∑ j ∈ Finset.range d, (x.testBit j).toNat * 2 ^ j := by
  induction d with
  | zero => simp [Nat.mod_one]
  | succ d ih => rw [Finset.sum_range_succ, ← ih, Nat.mod_pow_succ, Nat.toNat_testBit, Nat.mul_comm]

/-- the value that unpacking reads, before it is reduced -/
theorem toNat_rawValue_eq_sum (hd16 : d ≤ 16) (bytes : Bytes (32 * d)) (i : Fin 256) :
    (rawValue d bytes i).toNat = ∑ j ∈ Finset.range d, (bytes.bit (d * i.val + j)).toNat * 2 ^ j := by
  rw [← Nat.mod_eq_of_lt (toNat_rawValue_lt hd16 bytes i), mod_two_pow_eq_sum]
  refine Finset.sum_congr rfl fun j hj => ?_
  have hjd := Finset.mem_range.1 hj
  rw [BitVec.testBit_toNat, getLsbD_rawValue hd16 bytes i (by omega)]
  simp only [hjd, decide_true, Bool.true_and]

/-- **Packing on bits.** For every width d up to twelve: 256 values of at most d bits are packed in 32 d bytes, bit j of
value i being bit d i + j of the string; and any 32 d bytes are unpacked to the numbers that each d bits spell, modulo
q. Both are the conversions that go bit by bit. -/
theorem bit_level_packing (hd12 : d ≤ 12) :
    (∀ v : Vector Coeff 256, FitsBits d v →
      byteEncode d v = BitLevel.byteEncode d v ∧ (byteEncode d v).toList.length = 32 * d ∧
      ∀ (i : Fin 256) (j : ℕ), j < d → (byteEncode d v).bit (d * i.val + j) = (v.get i).val.testBit j) ∧
    ∀ (bytes : Bytes (32 * d)) (i : Fin 256),
      ((byteDecode d bytes).get i).val = BitLevel.byteDecode d bytes i ∧
      ((byteDecode d bytes).get i).val =
        (∑ j ∈ Finset.range d, (bytes.bit (d * i.val + j)).toNat * 2 ^ j) % 3329 := by
  have hd16 : d ≤ 16 := hd12.trans (by norm_num)
  constructor
  · intro v hv
    refine ⟨BitLevel.byteEncode_eq hd16 hv, Vector.length_toList .., fun i j hj => ?_⟩
    have hdiv : (d * i.val + j) / d = i.val := by
      rw [Nat.mul_add_div (by omega), Nat.div_eq_of_lt hj, Nat.add_zero]
    have hmod : (d * i.val + j) % d = j := by
      rw [Nat.mul_add_mod, Nat.mod_eq_of_lt hj]
    rw [bit_byteEncode hd16 hv (bitPlace_lt i hj), hmod]
    exact congrArg (fun k => (v.get k).rep.getLsbD j) (Fin.ext hdiv)
  · intro bytes i
    refine ⟨BitLevel.val_byteDecode_eq hd12 bytes i, ?_⟩
    exact (val_byteDecode hd12 bytes i).trans (congrArg (· % 3329) (toNat_rawValue_eq_sum hd16 bytes i))

/-- the largest coefficient in twelve bits, and a string of ones, of which each value is reduced -/
theorem bit_level_packing_largest :
    let v : Vector Coeff 256 := Vector.replicate 256 (Elem.ofNat z3329 3328)
    let ones : Bytes (32 * 12) := Vector.replicate (32 * 12) 0xff
    FitsBits 12 v ∧ byteEncode 12 v = BitLevel.byteEncode 12 v ∧ (byteEncode 12 v).bit (12 * 255 + 11) = true ∧
      ((byteDecode 12 ones).get 255).val = (∑ j ∈ Finset.range 12, (ones.bit (12 * 255 + j)).toNat * 2 ^ j) % 3329 ∧
      ((byteDecode 12 ones).get 255).val = 766 := by
  intro v ones
  have hv : FitsBits 12 v := fitsBits_of_reduced fun i => by
    rw [get_replicate]
    exact Elem.reduced_ofNat (by decide)
  obtain ⟨hpack, hunpack⟩ := bit_level_packing (d := 12) le_rfl
  obtain ⟨hencode, -, hbit⟩ := hpack v hv
  have hsum := (hunpack ones 255).2
  have htop : (v.get 255).val.testBit 11 = true := by decide +kernel
  have hvalue : (∑ j ∈ Finset.range 12, (ones.bit (12 * 255 + j)).toNat * 2 ^ j) % 3329 = 766 := by decide +kernel
  exact ⟨hv, hencode, (hbit 255 11 (by norm_num)).trans htop, hsum, hsum.trans hvalue⟩

end PostQuantum.MLKEM
