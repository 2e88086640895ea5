/-
Two elements in a byte, for lists and buffers of any two lengths.

Writing goes over the front of a buffer as far as both reach, and the rest of the buffer stays (`overwrite`). What is
written are the bytes of the pairs of a list, a last element without a partner having zero for one (`packed`), or the two
halves of each byte of a string (`unpacked`).
- `toNat_pair`, `toNat_lowElem`, `toNat_highElem`: one byte as two digits to the base sixteen.
- `encode_eq_overwrite`, `decode_eq_overwrite`: both ways are an overwriting.
- `getElem?_packed`, `getElem?_unpacked`: what stands at each place.
- `prefix_unpacked_packed`, `packed_unpacked`: halving the bytes of pairs gives the elements back, and pairing halves the
  bytes.
- `two_per_byte`: all this for the buffers, with both round trips.
-/
import Mathlib.Tactic
import PostQuantum.BinaryField.Nibble

namespace PostQuantum.BinaryField.Nibble

open Word

variable {α : Type}

/-! ## One byte -/

theorem elem_lt (x : Gf16) : x.bits.toNat < 16 := x.bits.isLt

/-- a byte has its two elements as digits -/
theorem toNat_pair (lo hi : Gf16) : (pair lo hi).toNat = lo.bits.toNat + 16 * hi.bits.toNat := by
  have hlo := elem_lt lo
  have hhi := elem_lt hi
  have hwordLo : lo.toWord.toNat = lo.bits.toNat := by
    unfold Elem.toWord
    rw [BitVec.toNat_setWidth]
    omega
  have hwordHi : (hi.toWord <<< 4).toNat = hi.bits.toNat <<< 4 := by
    unfold Elem.toWord
    rw [BitVec.toNat_shiftLeft, BitVec.toNat_setWidth, Nat.shiftLeft_eq, Nat.shiftLeft_eq]
    omega
  change (narrow 8 (lo.toWord ||| (hi.toWord <<< 4))).toNat = _
  unfold narrow
  rw [BitVec.toNat_setWidth, BitVec.toNat_or, hwordLo, hwordHi, Nat.or_comm, ← Nat.shiftLeft_add_eq_or_of_lt hlo,
    Nat.shiftLeft_eq]
  omega

/-- of a byte that is read as an element the low digit is left -/
theorem toNat_ofByte (b : UInt8) : (Elem.ofWord gf16 (b.toBitVec.setWidth 16)).bits.toNat = b.toNat % 16 := by
  have hb : b.toBitVec.toNat < 256 := b.toNat_lt
  change ((b.toBitVec.setWidth 16).setWidth 4).toNat = b.toBitVec.toNat % 16
  rw [BitVec.toNat_setWidth, BitVec.toNat_setWidth]
  omega

theorem toNat_lowElem (b : UInt8) : (lowElem b).bits.toNat = b.toNat % 16 := by
  have hmask : (b &&& 0x0f).toNat = b.toNat % 16 := by
    rw [UInt8.toNat_and]
    exact Nat.and_two_pow_sub_one_eq_mod b.toNat 4
  calc (lowElem b).bits.toNat = (b &&& 0x0f).toNat % 16 := toNat_ofByte _
    _ = b.toNat % 16 := by rw [hmask, Nat.mod_mod]

theorem toNat_highElem (b : UInt8) : (highElem b).bits.toNat = b.toNat / 16 := by
  have hb := b.toNat_lt
  have hshift : (b >>> 4).toNat = b.toNat / 16 := by
    rw [UInt8.toNat_shiftRight, Nat.shiftRight_eq_div_pow]
    rfl
  calc (highElem b).bits.toNat = (b >>> 4).toNat % 16 := toNat_ofByte _
    _ = b.toNat / 16 := by rw [hshift, Nat.mod_eq_of_lt (by omega)]

@[simp] theorem lowElem_pair (lo hi : Gf16) : lowElem (pair lo hi) = lo := by
  have hlo := elem_lt lo
  refine Elem.ext_toNat ?_
  rw [toNat_lowElem, toNat_pair]
  omega

@[simp] theorem highElem_pair (lo hi : Gf16) : highElem (pair lo hi) = hi := by
  have hlo := elem_lt lo
  refine Elem.ext_toNat ?_
  rw [toNat_highElem, toNat_pair]
  omega

@[simp] theorem pair_lowElem_highElem (b : UInt8) : pair (lowElem b) (highElem b) = b := by
  refine UInt8.toNat_inj.1 ?_
  rw [toNat_pair, toNat_lowElem, toNat_highElem]
  omega

/-! ## Over the front of a buffer -/

/-- values over the front of a buffer, as far as both reach -/
def overwrite (values buffer : List α) : List α := values.take buffer.length ++ buffer.drop values.length

theorem getElem?_overwrite (values buffer : List α) (i : ℕ) :
    (overwrite values buffer)[i]? = if i < min buffer.length values.length then values[i]? else buffer[i]? := by
  have hfront : (values.take buffer.length).length = min buffer.length values.length := List.length_take
  unfold overwrite
  split
  case isTrue h =>
    rw [List.getElem?_append_left (by omega), List.getElem?_take_of_lt (by omega)]
  case isFalse h =>
    rw [List.getElem?_append_right (by omega), List.getElem?_drop, hfront]
    rcases Nat.le_total values.length buffer.length with hle | hle
    · rw [Nat.min_eq_right hle] at h ⊢
      rw [Nat.add_sub_cancel' (Nat.le_of_not_lt h)]
    · rw [Nat.min_eq_left hle] at h ⊢
      rw [List.getElem?_eq_none (by omega), List.getElem?_eq_none (by omega)]

/-- all the values, where the buffer has room for them -/
theorem overwrite_of_le {values buffer : List α} (h : values.length ≤ buffer.length) :
    overwrite values buffer = values ++ buffer.drop values.length := by
  rw [overwrite, List.take_of_length_le h]

/-- the first values alone, where they fill the buffer -/
theorem overwrite_of_ge {values buffer : List α} (h : buffer.length ≤ values.length) :
    overwrite values buffer = values.take buffer.length := by
  rw [overwrite, List.drop_of_length_le h, List.append_nil]

theorem drop_overwrite (values buffer : List α) :
    (overwrite values buffer).drop (min buffer.length values.length) = buffer.drop (min buffer.length values.length) := by
  refine List.ext_getElem? fun i => ?_
  rw [List.getElem?_drop, List.getElem?_drop, getElem?_overwrite, if_neg (by omega)]

/-! ## Whole lists -/

/-- the bytes of the pairs, a last element without a partner having zero for one -/
def packed : List Gf16 → List UInt8
  | [] => []
  | [x] => [pair x 0]
  | x :: y :: elems => pair x y :: packed elems

/-- the two halves of each byte -/
def unpacked (bytes : List UInt8) : List Gf16 := bytes.flatMap fun b => [lowElem b, highElem b]

theorem length_packed (elems : List Gf16) : (packed elems).length = (elems.length + 1) / 2 := by
  fun_induction packed elems with
  | case1 => rfl
  | case2 x => simp
  | case3 x y elems ih =>
    rw [List.length_cons, ih, List.length_cons, List.length_cons]
    omega

theorem unpacked_cons (b : UInt8) (bytes : List UInt8) :
    unpacked (b :: bytes) = lowElem b :: highElem b :: unpacked bytes := rfl

theorem length_unpacked (bytes : List UInt8) : (unpacked bytes).length = 2 * bytes.length := by
  induction bytes with
  | nil => rfl
  | cons b bytes ih =>
    rw [unpacked_cons, List.length_cons, List.length_cons, ih, List.length_cons]
    omega

/-- **Writing pairs** is an overwriting. -/
theorem encode_eq_overwrite (elems : List Gf16) (out : List UInt8) : encode elems out = overwrite (packed elems) out := by
  fun_induction encode elems out with
  | case1 out => simp [overwrite, packed]
  | case2 elems => simp [overwrite]
  | case3 x old out => simp [overwrite, packed]
  | case4 x y elems old out ih =>
    rw [ih]
    rfl

/-- **Writing halves** is an overwriting. -/
theorem decode_eq_overwrite (bytes : List UInt8) (out : List Gf16) : decode bytes out = overwrite (unpacked bytes) out := by
  fun_induction decode bytes out with
  | case1 out => simp [overwrite, unpacked]
  | case2 bytes => simp [overwrite]
  | case3 b bytes old => simp [overwrite, unpacked_cons]
  | case4 b bytes old old' out ih =>
    rw [ih]
    rfl

/-! ## What stands where -/

theorem getElem?_packed (elems : List Gf16) (i : ℕ) :
    (packed elems)[i]? =
      if 2 * i < elems.length then some (pair (elems.getD (2 * i) 0) (elems.getD (2 * i + 1) 0)) else none := by
  fun_induction packed elems generalizing i with
  | case1 => simp
  | case2 x =>
    rcases i with _ | i
    · simp
    · simp
  | case3 x y elems ih =>
    rcases i with _ | i
    · simp
    · rw [List.getElem?_cons_succ, ih, show 2 * (i + 1) = 2 * i + 1 + 1 by ring]
      simp

theorem getElem?_unpacked (bytes : List UInt8) (j : ℕ) :
    (unpacked bytes)[j]? =
      if j < 2 * bytes.length then
        some (if j % 2 = 0 then lowElem (bytes.getD (j / 2) 0) else highElem (bytes.getD (j / 2) 0))
      else none := by
  induction bytes generalizing j with
  | nil => simp [unpacked]
  | cons b bytes ih =>
    rw [unpacked_cons]
    rcases j with _ | _ | j
    · simp
    · simp [Nat.mul_succ]
    · rw [List.getElem?_cons_succ, List.getElem?_cons_succ, ih, show (j + 1 + 1) / 2 = j / 2 + 1 by omega,
        show (j + 1 + 1) % 2 = j % 2 by omega, List.getD_cons_succ, List.length_cons]
      simp [Nat.mul_succ]

section Written

variable {elems : List Gf16} {bytes out : List UInt8} {entries : List Gf16} {i j : ℕ}

/-- a byte that is written holds two elements, or one and zero -/
theorem toNat_getElem?_encode (hi : i < min out.length ((elems.length + 1) / 2)) :
    (encode elems out)[i]?.map UInt8.toNat =
      some ((elems.getD (2 * i) 0).bits.toNat + 16 * (elems.getD (2 * i + 1) 0).bits.toNat) := by
  have hin : 2 * i < elems.length := by omega
  rw [encode_eq_overwrite, getElem?_overwrite, length_packed, if_pos hi, getElem?_packed, if_pos hin,
    Option.map_some, toNat_pair]

/-- an entry that is written is a digit of a byte -/
theorem toNat_getElem?_decode (hj : j < min entries.length (2 * bytes.length)) :
    (decode bytes entries)[j]?.map (fun x => x.bits.toNat) =
      some ((bytes.getD (j / 2) 0).toNat / 16 ^ (j % 2) % 16) := by
  have hin : j < 2 * bytes.length := by omega
  have hb := (bytes.getD (j / 2) 0).toNat_lt
  rw [decode_eq_overwrite, getElem?_overwrite, length_unpacked, if_pos hj, getElem?_unpacked, if_pos hin,
    Option.map_some]
  rcases Nat.mod_two_eq_zero_or_one j with hmod | hmod
  · rw [hmod, if_pos rfl, toNat_lowElem, Nat.pow_zero, Nat.div_one]
  · rw [hmod, if_neg Nat.one_ne_zero, toNat_highElem, Nat.pow_one, Nat.mod_eq_of_lt (by omega)]

theorem drop_encode (elems : List Gf16) (out : List UInt8) :
    (encode elems out).drop (min out.length ((elems.length + 1) / 2)) =
      out.drop (min out.length ((elems.length + 1) / 2)) := by
  rw [encode_eq_overwrite, ← length_packed, drop_overwrite]

theorem drop_decode (bytes : List UInt8) (entries : List Gf16) :
    (decode bytes entries).drop (min entries.length (2 * bytes.length)) =
      entries.drop (min entries.length (2 * bytes.length)) := by
  rw [decode_eq_overwrite, ← length_unpacked, drop_overwrite]

end Written

/-! ## There and back -/

/-- halving the bytes of pairs, with any bytes after them, gives the elements first -/
theorem prefix_unpacked_packed (elems : List Gf16) (rest : List UInt8) : elems <+: unpacked (packed elems ++ rest) := by
  fun_induction packed elems with
  | case1 => exact List.nil_prefix
  | case2 x =>
    rw [List.singleton_append, unpacked_cons, lowElem_pair]
    exact ⟨_, rfl⟩
  | case3 x y elems ih =>
    rw [List.cons_append, unpacked_cons, lowElem_pair, highElem_pair, List.cons_prefix_cons, List.cons_prefix_cons]
    exact ⟨rfl, rfl, ih⟩

theorem packed_unpacked (bytes : List UInt8) : packed (unpacked bytes) = bytes := by
  induction bytes with
  | nil => rfl
  | cons b bytes ih => rw [unpacked_cons, packed, ih, pair_lowElem_highElem]

theorem decode_encode {elems target : List Gf16} {out : List UInt8} (hroom : (elems.length + 1) / 2 ≤ out.length)
    (htarget : target.length = elems.length) : decode (encode elems out) target = elems := by
  have hpacked : (packed elems).length ≤ out.length := (length_packed elems).trans_le hroom
  obtain ⟨rest, hrest⟩ := prefix_unpacked_packed elems (out.drop (packed elems).length)
  rw [encode_eq_overwrite, overwrite_of_le hpacked, decode_eq_overwrite, ← hrest, overwrite_of_ge (by simp [htarget]),
    htarget, List.take_left]

theorem encode_decode {bytes buffer : List UInt8} {target : List Gf16} (htarget : target.length = 2 * bytes.length)
    (hbuffer : buffer.length = bytes.length) : encode (decode bytes target) buffer = bytes := by
  have hunpacked : target.length = (unpacked bytes).length := htarget.trans (length_unpacked bytes).symm
  rw [decode_eq_overwrite, overwrite_of_ge hunpacked.le, hunpacked, List.take_length, encode_eq_overwrite,
    packed_unpacked, overwrite_of_ge hbuffer.le, hbuffer, List.take_length]

/-! ## The buffers -/

/-- **Two elements in a byte.** Writing elements into a buffer changes its first bytes, one for two elements as far as
both reach, and nothing behind them: byte i becomes element 2 i plus sixteen times element 2 i + 1, or zero times where
there is none. Reading bytes into a list changes its first entries, two for a byte as far as both reach, and nothing
behind them: entry j becomes digit j % 2 of byte j / 2 to the base sixteen. If a buffer has room for all bytes, reading it
into a list that is as long as the elements gives them back, for odd lengths too; and a string that is read into twice as
many entries is written back as it was. -/
theorem two_per_byte :
    (∀ (elems : List Gf16) (out : List UInt8),
      let written := min out.length ((elems.length + 1) / 2)
      (encode elems out).length = out.length ∧
      (∀ i < written, (encode elems out)[i]?.map UInt8.toNat =
        some ((elems.getD (2 * i) 0).bits.toNat + 16 * (elems.getD (2 * i + 1) 0).bits.toNat)) ∧
      (encode elems out).drop written = out.drop written) ∧
    (∀ (bytes : List UInt8) (entries : List Gf16),
      let written := min entries.length (2 * bytes.length)
      (decode bytes entries).length = entries.length ∧
      (∀ j < written, (decode bytes entries)[j]?.map (fun x => x.bits.toNat) =
        some ((bytes.getD (j / 2) 0).toNat / 16 ^ (j % 2) % 16)) ∧
      (decode bytes entries).drop written = entries.drop written) ∧
    (∀ (elems target : List Gf16) (out : List UInt8), (elems.length + 1) / 2 ≤ out.length →
      target.length = elems.length → decode (encode elems out) target = elems) ∧
    ∀ (bytes buffer : List UInt8) (target : List Gf16), target.length = 2 * bytes.length →
      buffer.length = bytes.length → encode (decode bytes target) buffer = bytes := by
  refine ⟨fun elems out => ?_, fun bytes entries => ?_, fun elems target out => ?_, fun bytes buffer target => ?_⟩
  · exact ⟨length_encode elems out, fun i => toNat_getElem?_encode, drop_encode elems out⟩
  · exact ⟨length_decode bytes entries, fun j => toNat_getElem?_decode, drop_decode bytes entries⟩
  · exact decode_encode
  · exact encode_decode

/-- five elements in the first three bytes of four, and the digits of these four -/
theorem two_per_byte_five :
    let elems : List Gf16 := [⟨0x1⟩, ⟨0x2⟩, ⟨0x3⟩, ⟨0xf⟩, ⟨0xe⟩]
    let out : List UInt8 := [0xff, 0xff, 0xff, 0xff]
    let target : List Gf16 := List.replicate 5 0
    let entries : List Gf16 := List.replicate 8 0
    let buffer : List UInt8 := [0, 0, 0, 0]
    (elems.length + 1) / 2 ≤ out.length ∧ target.length = elems.length ∧
      entries.length = 2 * out.length ∧ buffer.length = out.length ∧
      encode elems out = [0x21, 0xf3, 0x0e, 0xff] ∧
      (∀ i < 3, (encode elems out)[i]?.map UInt8.toNat =
        some ((elems.getD (2 * i) 0).bits.toNat + 16 * (elems.getD (2 * i + 1) 0).bits.toNat)) ∧
      (∀ j < 8, (decode out entries)[j]?.map (fun x => x.bits.toNat) =
        some ((out.getD (j / 2) 0).toNat / 16 ^ (j % 2) % 16)) ∧
      decode (encode elems out) target = elems ∧
      encode (decode out entries) buffer = out := by
  intro elems out target entries buffer
  have hroom : (elems.length + 1) / 2 ≤ out.length := by decide
  have htarget : target.length = elems.length := by decide
  have hentries : entries.length = 2 * out.length := by decide
  have hbuffer : buffer.length = out.length := by decide
  obtain ⟨hwrite, hread, hback, hforth⟩ := two_per_byte
  refine ⟨hroom, htarget, hentries, hbuffer, by decide, fun i hi => ?_, fun j hj => ?_, ?_, ?_⟩
  · exact (hwrite elems out).2.1 i (hi.trans_le (by decide))
  · exact (hread out entries).2.1 j (hj.trans_le (by decide))
  · exact hback elems target out hroom htarget
  · exact hforth out buffer entries hentries hbuffer

end PostQuantum.BinaryField.Nibble
