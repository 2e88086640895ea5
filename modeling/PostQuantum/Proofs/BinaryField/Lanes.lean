/-
Eight products in one word.

A word of 64 bits holds eight elements of four bits, one in the low half of each byte. A factor below z^4 has room in
its byte for the shifts of a product, and what the reduction moves down from the high halves stays in the low ones, so
the steps on the whole word are steps on each byte (`byteAt`).
- `byteAt_shiftLeft`, `byteAt_ushiftRight`: shifts that take no bit across the border of a byte.
- `byteAt_product`, `byteAt_laneFold`: so byte i of the product is a carry-less product, and byte i of what is left after
  the reduction is its fold.
- `byteAt_mulLanes`: one fold is enough for z^4 + z + 1, so byte i ends as the product of the two elements.
- `lanes_multiply`: what this says of the elements, and that packing and unpacking undo each other.
-/
import Mathlib.Tactic
import PostQuantum.BinaryField.Nibble
import PostQuantum.Proofs.BinaryField.Ring

namespace PostQuantum.BinaryField.Nibble

open Word

variable {w x y : BitVec 64} {b : BitVec 32} {i k n width : ℕ}

/-! ## Bytes of a word -/

/-- byte `i` of a word, alone in a word that products are formed in -/
def byteAt (w : BitVec 64) (i : ℕ) : BitVec 32 := (narrow 8 (w >>> (8 * i))).setWidth 32

theorem getLsbD_byteAt (w : BitVec 64) (i t : ℕ) :
    (byteAt w i).getLsbD t = (decide (t < 8) && w.getLsbD (8 * i + t)) := by
  unfold byteAt narrow
  rw [BitVec.getLsbD_setWidth, BitVec.getLsbD_setWidth, BitVec.getLsbD_ushiftRight]
  by_cases ht : t < 8
  · simp [ht, show t < 32 by omega]
  · simp [ht]

theorem byteAt_lt (w : BitVec 64) (i : ℕ) : (byteAt w i).toNat < 2 ^ 8 := by
  rw [lt_two_pow_iff]
  intro t ht
  simp [getLsbD_byteAt, ht]

theorem byteAt_of_ge (hi : 8 ≤ i) : byteAt w i = 0 := by
  refine BitVec.eq_of_getLsbD_eq fun t _ => ?_
  rw [getLsbD_byteAt, BitVec.getLsbD_of_ge w _ (by omega)]
  simp

/-- a word is known by its bytes -/
theorem eq_of_byteAt_eq (h : ∀ i : Fin 8, byteAt x i = byteAt y i) : x = y := by
  refine BitVec.eq_of_getLsbD_eq fun t ht => ?_
  have hbyte := congrArg (fun b => b.getLsbD (t % 8)) (h ⟨t / 8, by omega⟩)
  simpa [getLsbD_byteAt, Nat.mod_lt, Nat.div_add_mod] using hbyte

theorem byteAt_zero (i : ℕ) : byteAt 0 i = 0 := by
  refine BitVec.eq_of_getLsbD_eq fun t _ => ?_
  simp [getLsbD_byteAt]

theorem byteAt_and (x y : BitVec 64) (i : ℕ) : byteAt (x &&& y) i = byteAt x i &&& byteAt y i := by
  refine BitVec.eq_of_getLsbD_eq fun t _ => ?_
  simp only [getLsbD_byteAt, BitVec.getLsbD_and]
  rcases decide (t < 8) <;> simp

theorem byteAt_xor (x y : BitVec 64) (i : ℕ) : byteAt (x ^^^ y) i = byteAt x i ^^^ byteAt y i := by
  refine BitVec.eq_of_getLsbD_eq fun t _ => ?_
  simp only [getLsbD_byteAt, BitVec.getLsbD_xor]
  rcases decide (t < 8) <;> simp

/-- a mask that is the same in all bytes -/
theorem byteAt_and_mask {mask : BitVec 64} (hmask : ∀ j : Fin 8, byteAt mask j = b) (w : BitVec 64) (i : ℕ) :
    byteAt (w &&& mask) i = byteAt w i &&& b := by
  rw [byteAt_and]
  rcases Nat.lt_or_ge i 8 with hi | hi
  · rw [hmask ⟨i, hi⟩]
  · simp [byteAt_of_ge hi]

/-! ## Shifts that cross no border -/

/-- a byte below 2^n has no bits from place n on -/
theorem getLsbD_of_byteAt_lt (hw : (byteAt w i).toNat < 2 ^ n) {t : ℕ} (hn : n ≤ t) (ht : t < 8) :
    w.getLsbD (8 * i + t) = false := by
  have hbit := getLsbD_of_lt_two_pow hw hn
  simpa [getLsbD_byteAt, ht] using hbit

/-- bytes of n bits move up by k bits inside their bytes -/
theorem byteAt_shiftLeft (hw : ∀ j, (byteAt w j).toNat < 2 ^ n) (hk : n + k ≤ 8) (i : ℕ) :
    byteAt (w <<< k) i = byteAt w i <<< k := by
  rcases Nat.lt_or_ge i 8 with hi | hi
  case inr => simp [byteAt_of_ge hi]
  refine BitVec.eq_of_getLsbD_eq fun t ht => ?_
  rw [getLsbD_byteAt, BitVec.getLsbD_shiftLeft, BitVec.getLsbD_shiftLeft, getLsbD_byteAt]
  rcases Nat.lt_or_ge t k with htk | htk
  case inl =>
    -- what comes in at the bottom was at the top of the byte below
    have hin : 8 * i + t < k ∨ w.getLsbD (8 * i + t - k) = false := by
      rcases i with _ | i
      · left
        omega
      · right
        rw [show 8 * (i + 1) + t - k = 8 * i + (8 + t - k) by omega]
        exact getLsbD_of_byteAt_lt (hw i) (by omega) (by omega)
    rcases hin with hin | hin <;> simp [htk, hin]
  case inr =>
    rw [show 8 * i + t - k = 8 * i + (t - k) by omega]
    by_cases htop : t < 8
    · have hfits : 8 * i + t < 64 := by omega
      have hbelow : ¬8 * i + t < k := by omega
      simp [ht, htop, hfits, hbelow, Nat.not_lt.2 htk, show t - k < 8 by omega]
    · -- what would go out at the top is not there
      have hout : (decide (t - k < 8) && w.getLsbD (8 * i + (t - k))) = false := by
        by_cases hlast : t - k < 8
        · simp [getLsbD_of_byteAt_lt (hw i) (show n ≤ t - k by omega) hlast]
        · simp [hlast]
      simp [htop, hout]

/-- bytes whose lowest k bits are clear move down by k bits inside their bytes -/
theorem byteAt_ushiftRight (hw : ∀ j, ∀ t < k, (byteAt w j).getLsbD t = false) (hk : k ≤ 8) (i : ℕ) :
    byteAt (w >>> k) i = byteAt w i >>> k := by
  refine BitVec.eq_of_getLsbD_eq fun t _ => ?_
  rw [getLsbD_byteAt, BitVec.getLsbD_ushiftRight, BitVec.getLsbD_ushiftRight, getLsbD_byteAt]
  rw [show k + (8 * i + t) = 8 * i + (k + t) by omega]
  by_cases hin : k + t < 8
  · simp [hin, show t < 8 by omega]
  · by_cases ht : t < 8
    · -- what comes in at the top was at the bottom of the byte above
      have habove := hw (i + 1) (k + t - 8) (by omega)
      rw [getLsbD_byteAt, show 8 * (i + 1) + (k + t - 8) = 8 * i + (k + t) by omega] at habove
      simpa [hin, ht, show k + t - 8 < 8 by omega] using habove
    · simp [hin, ht]

/-! ## Halves of bytes -/

/-- the low halves, byte by byte -/
theorem byteAt_low (w : BitVec 64) (i : ℕ) : byteAt (w &&& lowHalves) i = byteAt w i &&& gf16.mask :=
  byteAt_and_mask (by decide) w i

/-- the high halves, byte by byte -/
theorem byteAt_high (w : BitVec 64) (i : ℕ) : byteAt (w &&& highHalves) i = byteAt w i &&& 0xf0#32 :=
  byteAt_and_mask (by decide) w i

theorem and_mask_lt (b : BitVec 32) : (b &&& gf16.mask).toNat < 2 ^ 4 := and_lowMask_lt (by decide) b

theorem and_mask_of_lt (hb : b.toNat < 2 ^ 4) : b &&& gf16.mask = b := and_lowMask_of_lt (by decide) hb

theorem getLsbD_highHalf (t : ℕ) : (0xf0#32).getLsbD t = (decide (4 ≤ t) && decide (t < 8)) := by
  rcases Nat.lt_or_ge t 32 with ht | ht
  · have hbits : ∀ t : Fin 32, (0xf0#32).getLsbD t = (decide (4 ≤ t.val) && decide (t.val < 8)) := by decide
    exact hbits ⟨t, ht⟩
  · rw [BitVec.getLsbD_of_ge _ _ ht]
    simp [show ¬t < 8 by omega]

/-- the high half of a byte, moved down by at most four bits -/
theorem highHalf_ushiftRight (hb : b.toNat < 2 ^ 8) (hk : k ≤ 4) :
    (b &&& 0xf0#32) >>> k = (b >>> 4) <<< (4 - k) := by
  refine BitVec.eq_of_getLsbD_eq fun t ht => ?_
  rw [BitVec.getLsbD_ushiftRight, BitVec.getLsbD_and, getLsbD_highHalf, BitVec.getLsbD_shiftLeft,
    BitVec.getLsbD_ushiftRight]
  rcases Nat.lt_or_ge t (4 - k) with hlow | hlow
  · simp [hlow, show ¬4 ≤ k + t by omega]
  · rw [show 4 + (t - (4 - k)) = k + t by omega]
    by_cases hin : k + t < 8
    · simp [ht, hin, Nat.not_lt.2 hlow, show 4 ≤ k + t by omega]
    · simp [hin, getLsbD_of_lt_two_pow hb (Nat.le_of_not_lt hin)]

/-! ## The product -/

/-- the word shifted by each of the lowest bits that are set in `a`, summed up -/
def product (a : Gf16) (lanes : BitVec 64) (width : ℕ) : BitVec 64 :=
  (List.range width).foldl (fun acc i => acc ^^^ if a.bits.getLsbD i then lanes <<< i else 0) 0

/-- the high halves moved down, and all but the low halves dropped -/
def laneFold (x : BitVec 64) : BitVec 64 :=
  (x ^^^ ((x &&& highHalves) >>> 4) ^^^ ((x &&& highHalves) >>> 3)) &&& lowHalves

theorem mulLanes_eq (a : Gf16) (lanes : BitVec 64) : mulLanes a lanes = laneFold (product a (lanes &&& lowHalves) 4) :=
  rfl

theorem product_succ (a : Gf16) (lanes : BitVec 64) (width : ℕ) :
    product a lanes (width + 1) = product a lanes width ^^^ if a.bits.getLsbD width then lanes <<< width else 0 := by
  unfold product
  rw [List.range_succ, List.foldl_append, List.foldl_cons, List.foldl_nil]

/-- **Each byte of the product** is a product of its own. -/
theorem byteAt_product (a : Gf16) (hw : ∀ j, (byteAt w j).toNat < 2 ^ 4) (hwidth : width ≤ 5) (i : ℕ) :
    byteAt (product a w width) i = carrylessMul (byteAt w i) a.wide width := by
  induction width with
  | zero => exact byteAt_zero i
  | succ width ih =>
    have hbit : a.wide.getLsbD width = a.bits.getLsbD width := by
      unfold Elem.wide
      rw [BitVec.getLsbD_setWidth]
      simp [show width < 32 by omega]
    rw [product_succ, carrylessMul_succ, byteAt_xor, ih (by omega), hbit]
    split
    · rw [byteAt_shiftLeft hw (by omega)]
    · rw [byteAt_zero]

/-! ## The reduction -/

theorem fold_gf16 (b : BitVec 32) : gf16.fold b = (b &&& gf16.mask) ^^^ ((b >>> 4) ^^^ (b >>> 4) <<< 1) := by
  have htail : carrylessMul (b >>> 4) gf16.tail 2 = b >>> 4 ^^^ (b >>> 4) <<< 1 := by
    rw [carrylessMul_succ, carrylessMul_succ]
    simp [carrylessMul, gf16]
  exact congrArg ((b &&& gf16.mask) ^^^ ·) htail

/-- **Each byte of the reduction** is a fold of its own. -/
theorem byteAt_laneFold (i : ℕ) (hx : (byteAt x i).toNat < 2 ^ 7) : byteAt (laneFold x) i = gf16.fold (byteAt x i) := by
  have hclear : ∀ j, ∀ t < 4, (byteAt (x &&& highHalves) j).getLsbD t = false := by
    intro j t ht
    rw [byteAt_high, BitVec.getLsbD_and, getLsbD_highHalf]
    simp [Nat.not_le.2 ht]
  have hfour : byteAt ((x &&& highHalves) >>> 4) i = byteAt x i >>> 4 := by
    rw [byteAt_ushiftRight hclear (by norm_num), byteAt_high, highHalf_ushiftRight (byteAt_lt x i) le_rfl]
    simp
  have hthree : byteAt ((x &&& highHalves) >>> 3) i = (byteAt x i >>> 4) <<< 1 := by
    rw [byteAt_ushiftRight (fun j t ht => hclear j t (by omega)) (by norm_num), byteAt_high,
      highHalf_ushiftRight (byteAt_lt x i) (by norm_num)]
  have hhigh : (byteAt x i >>> 4).toNat < 2 ^ 3 := ushiftRight_lt hx
  have hmoved : (byteAt x i >>> 4 ^^^ (byteAt x i >>> 4) <<< 1).toNat < 2 ^ 4 := by
    refine xor_lt (by omega) ?_
    rw [toNat_shiftLeft_of_fits (shiftLeft_fits hhigh (by norm_num))]
    omega
  unfold laneFold
  rw [byteAt_low, byteAt_xor, byteAt_xor, hfour, hthree, BitVec.xor_assoc, xor_and, and_mask_of_lt hmoved, fold_gf16]

/-! ## Products in all bytes at once -/

theorem get_unpackLanes (lanes : BitVec 64) (i : Fin 8) :
    ((unpackLanes lanes).get i).wide = byteAt lanes i &&& gf16.mask := by
  refine BitVec.eq_of_getLsbD_eq fun t ht => ?_
  have hget : (unpackLanes lanes).get i = Elem.ofWord gf16 ((narrow 8 (lanes >>> (8 * i.val))).setWidth 16) :=
    get_ofFn _ i
  have hmask : gf16.mask.getLsbD t = decide (t < 4) := getLsbD_lowMask (by decide) t
  have hdegree : gf16.degree = 4 := rfl
  rw [hget, BitVec.getLsbD_and, getLsbD_byteAt, hmask]
  unfold Elem.wide Elem.ofWord narrow
  simp only [BitVec.getLsbD_setWidth, BitVec.getLsbD_ushiftRight, hdegree]
  by_cases hlow : t < 4
  · simp [ht, hlow, show t < 8 by omega, show t < 16 by omega]
  · simp [hlow]

theorem byteAt_packLanes (elems : Vector Gf16 8) (i : Fin 8) : byteAt (packLanes elems) i = (elems.get i).wide := by
  have hpiece : ∀ j, ((elems.get j).bits.setWidth 64).toNat < 2 ^ 8 := by
    intro j
    have hbits : (elems.get j).bits.toNat < 2 ^ 4 := (elems.get j).bits.isLt
    rw [BitVec.toNat_setWidth]
    omega
  have hi := i.isLt
  refine BitVec.eq_of_getLsbD_eq fun t ht => ?_
  rw [getLsbD_byteAt]
  by_cases hbyte : t < 8
  · have hdiv : (8 * i.val + t) / 8 = i.val := by omega
    have hmod : (8 * i.val + t) % 8 = t := by omega
    have hpacked := getLsbD_packed (fun j => (elems.get j).bits.setWidth 64) (by norm_num) hpiece
      (show 8 * i.val + t < 64 by omega) (by omega)
    have hplace : (⟨(8 * i.val + t) / 8, by omega⟩ : Fin 8) = i := Fin.ext hdiv
    unfold packLanes lane Elem.wide
    rw [hpacked, hplace, hmod, BitVec.getLsbD_setWidth, BitVec.getLsbD_setWidth]
    simp [ht, hbyte, show t < 64 by omega]
  · have htop : (elems.get i).wide.getLsbD t = false :=
      getLsbD_of_lt_two_pow (elems.get i).wide_lt (show 4 ≤ t by omega)
    simp [hbyte, htop]

/-- **Byte i of the product of a word** is the product of the element there. -/
theorem byteAt_mulLanes (a : Gf16) (lanes : BitVec 64) (i : Fin 8) :
    byteAt (mulLanes a lanes) i = (a * (unpackLanes lanes).get i).wide := by
  have hlow : ∀ j, (byteAt (lanes &&& lowHalves) j).toNat < 2 ^ 4 := by
    intro j
    rw [byteAt_low]
    exact and_mask_lt _
  have hproduct : byteAt (product a (lanes &&& lowHalves) 4) i =
      carrylessMul ((unpackLanes lanes).get i).wide a.wide gf16.degree := by
    rw [byteAt_product a hlow (by norm_num), byteAt_low, ← get_unpackLanes]
    rfl
  have hshort : (byteAt (product a (lanes &&& lowHalves) 4) i).toNat < 2 ^ 7 := by
    rw [hproduct]
    exact Elem.product_lt _ a
  rw [mulLanes_eq, byteAt_laneFold i hshort, hproduct, a.mul_comm, Elem.wide_mul_of_tailWidth_le _ a (by decide)]

theorem and_mask_wide (a : Gf16) : a.wide &&& gf16.mask = a.wide := and_mask_of_lt a.wide_lt

theorem unpackLanes_packLanes (elems : Vector Gf16 8) : unpackLanes (packLanes elems) = elems := by
  refine ext_get fun i => Elem.wide_injective ?_
  rw [get_unpackLanes, byteAt_packLanes, and_mask_wide]

theorem packLanes_unpackLanes (lanes : BitVec 64) : packLanes (unpackLanes lanes) = lanes &&& lowHalves := by
  refine eq_of_byteAt_eq fun i => ?_
  rw [byteAt_packLanes, get_unpackLanes, byteAt_low]

theorem get_unpackLanes_mulLanes (a : Gf16) (lanes : BitVec 64) (i : Fin 8) :
    (unpackLanes (mulLanes a lanes)).get i = a * (unpackLanes lanes).get i := by
  refine Elem.wide_injective ?_
  rw [get_unpackLanes, byteAt_mulLanes, and_mask_wide]

theorem mulLanes_eq_packLanes (a : Gf16) (lanes : BitVec 64) :
    mulLanes a lanes = packLanes ((unpackLanes lanes).map (a * ·)) := by
  refine eq_of_byteAt_eq fun i => ?_
  rw [byteAt_mulLanes, byteAt_packLanes, get_map]

theorem lowHalves_and_highHalves : lowHalves &&& highHalves = 0#64 := by decide

theorem mulLanes_and_highHalves (a : Gf16) (lanes : BitVec 64) : mulLanes a lanes &&& highHalves = 0 := by
  rw [mulLanes_eq, laneFold, BitVec.and_assoc, lowHalves_and_highHalves]
  exact BitVec.and_zero

/-- bits in the high halves of a word change nothing -/
theorem mulLanes_xor_highHalves (a : Gf16) (lanes noise : BitVec 64) :
    mulLanes a (lanes ^^^ (noise &&& highHalves)) = mulLanes a lanes := by
  have hnoise : noise &&& highHalves &&& lowHalves = 0#64 := by
    rw [BitVec.and_assoc, BitVec.and_comm highHalves, lowHalves_and_highHalves, BitVec.and_zero]
  rw [mulLanes_eq, mulLanes_eq, xor_and, hnoise, BitVec.xor_zero]

/-- **Eight products in one word.** The product of a word by an element has clear high halves, and the element in each
lane is the product of the one that was there, by the multiplication of the field. So it is the word that the products
pack, and no lane reads another, nor the high halves. A packed word has element i in byte i; unpacking gives the
elements back, and packing what was unpacked clears the high halves. -/
theorem lanes_multiply :
    (∀ (a : Gf16) (lanes : BitVec 64),
      mulLanes a lanes &&& highHalves = 0 ∧
      (∀ i, (unpackLanes (mulLanes a lanes)).get i = a * (unpackLanes lanes).get i) ∧
      mulLanes a lanes = packLanes ((unpackLanes lanes).map (a * ·)) ∧
      ∀ noise, mulLanes a (lanes ^^^ (noise &&& highHalves)) = mulLanes a lanes) ∧
    (∀ (elems : Vector Gf16 8) (i : Fin 8), byteAt (packLanes elems) i = (elems.get i).wide) ∧
    (∀ elems, unpackLanes (packLanes elems) = elems) ∧
    ∀ lanes, packLanes (unpackLanes lanes) = lanes &&& lowHalves := by
  refine ⟨fun a lanes => ?_, byteAt_packLanes, unpackLanes_packLanes, packLanes_unpackLanes⟩
  refine ⟨mulLanes_and_highHalves a lanes, get_unpackLanes_mulLanes a lanes, mulLanes_eq_packLanes a lanes, ?_⟩
  intro noise
  exact mulLanes_xor_highHalves a lanes noise

-- z times 1 to 8: only 8 z = z^4 has to be reduced
example : mulLanes ⟨0b0010⟩ 0x0807060504030201#64 = 0x030e0c0a08060402#64 := by decide

end PostQuantum.BinaryField.Nibble
