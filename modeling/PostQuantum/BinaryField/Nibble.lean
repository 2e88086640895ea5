/-
Vectors over GF(16).

Two layouts of four-bit elements. A 64-bit word holds eight of them, one in the low half of each byte, so one pass of
shifts multiplies all eight by a scalar. A byte string holds two per byte, the even index in the low half.
Elements and buffer may have any two lengths; writing stops at the shorter, and the rest of the buffer stays.
- `length_encode`, `length_decode`: writing into a buffer keeps its length.
-/
import PostQuantum.BinaryField

namespace PostQuantum.BinaryField.Nibble

open Word

/-- an element of GF(16) -/
abbrev Gf16 := Elem gf16

/-- `a` in the low half of byte `i`, zeros elsewhere -/
def lane (i : Nat) (a : Gf16) : BitVec 64 :=
  (a.bits.setWidth 64) <<< (8 * i)

/-- eight elements in one word, element i in the low half of byte i -/
def packLanes (elems : Vector Gf16 8) : BitVec 64 :=
  (List.finRange 8).foldl (fun acc i => acc ||| lane i.val (elems.get i)) 0

/-- the low halves of the eight bytes -/
def unpackLanes (lanes : BitVec 64) : Vector Gf16 8 :=
  Vector.ofFn fun i => Elem.ofWord gf16 ((narrow 8 (lanes >>> (8 * i.val))).setWidth 16)

def lowHalves : BitVec 64 := 0x0f0f0f0f0f0f0f0f#64

def highHalves : BitVec 64 := 0xf0f0f0f0f0f0f0f0#64

/-- each of the eight elements times `a`; the high halves of the bytes are ignored -/
def mulLanes (a : Gf16) (lanes : BitVec 64) : BitVec 64 :=
  let lanes := lanes &&& lowHalves
  let product := (List.range 4).foldl (fun acc i => acc ^^^ if a.bits.getLsbD i then lanes <<< i else 0) 0
  let top := product &&& highHalves
  (product ^^^ (top >>> 4) ^^^ (top >>> 3)) &&& lowHalves

/-- the byte of two elements, the first in the low half -/
def pair (lo hi : Gf16) : UInt8 :=
  ⟨narrow 8 (lo.toWord ||| (hi.toWord <<< 4))⟩

def lowElem (b : UInt8) : Gf16 :=
  Elem.ofWord gf16 ((b &&& 0x0f).toBitVec.setWidth 16)

def highElem (b : UInt8) : Gf16 :=
  Elem.ofWord gf16 ((b >>> 4).toBitVec.setWidth 16)

/-- write elements over the front of `out`, two per byte; a last element without a partner gets a zero one -/
def encode : List Gf16 → List UInt8 → List UInt8
  | [], out => out
  | _, [] => []
  | [x], _ :: out => pair x 0 :: out
  | x :: y :: elems, _ :: out => pair x y :: encode elems out

/-- write the two elements of each byte over the front of `out` -/
def decode : List UInt8 → List Gf16 → List Gf16
  | [], out => out
  | _, [] => []
  | b :: _, [_] => [lowElem b]
  | b :: bytes, _ :: _ :: out => lowElem b :: highElem b :: decode bytes out

theorem length_encode (elems : List Gf16) (out : List UInt8) : (encode elems out).length = out.length := by
  fun_induction encode elems out <;> simp_all

theorem length_decode (bytes : List UInt8) (out : List Gf16) : (decode bytes out).length = out.length := by
  fun_induction decode bytes out <;> simp_all

end PostQuantum.BinaryField.Nibble
