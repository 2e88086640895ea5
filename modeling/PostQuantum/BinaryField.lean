/-
Binary fields GF(2^m), for m up to 16.

An element is a polynomial over GF(2) of degree below m, held as m bits, bit i being the coefficient of z^i. A field
is given by its modulus z^m + tail(z). Products are carry-less products in 32-bit words; two folds of the high half
through the tail reduce them, which is enough because the tail is short (`Admissible.tail_short`).
- `square` spreads the bits apart instead of multiplying.
- `invert` is the power 2^m - 2 by an addition chain on m - 1; zero goes to zero, and so does a quotient by zero.
The modulus need not be irreducible: the same engine then computes in a ring.
-/
import PostQuantum.Word

namespace PostQuantum.BinaryField

open Word

/-- what the arithmetic needs of a modulus z^degree + tail(z) -/
structure Admissible (degree : Nat) (tail : BitVec 32) : Prop where
  two_le_degree : 2 ≤ degree
  degree_le : degree ≤ 16
  constant_term : tail.getLsbD 0 = true
  tail_lt : tail.toNat < 1 <<< degree
  /-- two folds reduce a product of two elements -/
  tail_short : 2 * tail.toNat.log2 ≤ degree + 1

theorem admissible_iff {degree : Nat} {tail : BitVec 32} : Admissible degree tail ↔
    2 ≤ degree ∧ degree ≤ 16 ∧ tail.getLsbD 0 = true ∧ tail.toNat < 1 <<< degree ∧
      2 * tail.toNat.log2 ≤ degree + 1 :=
  ⟨fun h => ⟨h.1, h.2, h.3, h.4, h.5⟩, fun ⟨h1, h2, h3, h4, h5⟩ => ⟨h1, h2, h3, h4, h5⟩⟩

instance (degree : Nat) (tail : BitVec 32) : Decidable (Admissible degree tail) :=
  decidable_of_iff' _ admissible_iff

/-- the modulus z^degree + tail(z); bit i of `tail` is the coefficient of z^i -/
structure Modulus where
  name : String
  degree : Nat
  tail : BitVec 32
  admissible : Admissible degree tail := by decide

namespace Modulus

/-- the number of bits of the tail -/
def tailWidth (m : Modulus) : Nat :=
  m.tail.toNat.log2 + 1

/-- the word with the bits below z^degree set -/
def mask (m : Modulus) : BitVec 32 :=
  lowMask 32 m.degree

end Modulus

/-- an element of the field of `m` -/
structure Elem (m : Modulus) where
  bits : BitVec m.degree
  deriving DecidableEq

/-- the carry-less product of `a` and the low `width` bits of `b` -/
def carrylessMul (a b : BitVec 32) (width : Nat) : BitVec 32 :=
  (List.range width).foldl (fun acc i => acc ^^^ if b.getLsbD i then a <<< i else 0) 0

/-- the bits below z^degree, plus the bits above it times the tail -/
def Modulus.fold (m : Modulus) (x : BitVec 32) : BitVec 32 :=
  (x &&& m.mask) ^^^ carrylessMul (x >>> m.degree) m.tail m.tailWidth

/-- bit i of the low 16 bits moved to bit 2i -/
def spread (x : BitVec 32) : BitVec 32 :=
  let x := (x ||| (x <<< 8)) &&& 0x00ff00ff#32
  let x := (x ||| (x <<< 4)) &&& 0x0f0f0f0f#32
  let x := (x ||| (x <<< 2)) &&& 0x33333333#32
  (x ||| (x <<< 1)) &&& 0x55555555#32

namespace Elem

variable {m : Modulus}

/-- the element with the low bits of `x`; bits from z^degree up are dropped -/
def ofWord (m : Modulus) (x : BitVec 16) : Elem m :=
  ⟨narrow m.degree x⟩

/-- the bits of the element as a word -/
def toWord (a : Elem m) : BitVec 16 :=
  a.bits.setWidth 16

/-- the bits of the element as the word that products are formed in -/
def wide (a : Elem m) : BitVec 32 :=
  a.bits.setWidth 32

/-- the residue of a polynomial of degree at most 2 * degree - 2 -/
def reduce (x : BitVec 32) : Elem m :=
  ⟨narrow m.degree (m.fold (m.fold x))⟩

instance : Zero (Elem m) := ⟨⟨0⟩⟩
instance : One (Elem m) := ⟨ofWord m 1⟩
instance : Inhabited (Elem m) := ⟨0⟩
instance : Add (Elem m) := ⟨fun a b => ⟨a.bits ^^^ b.bits⟩⟩
instance : Neg (Elem m) := ⟨id⟩
instance : Sub (Elem m) := ⟨fun a b => a + b⟩
instance : Mul (Elem m) := ⟨fun a b => reduce (carrylessMul a.wide b.wide m.degree)⟩

/-- `a * a` -/
def square (a : Elem m) : Elem m :=
  reduce (spread a.wide)

/-- `a` squared `k` times -/
def squareN (a : Elem m) : Nat → Elem m
  | 0 => a
  | k + 1 => a.square.squareN k

/-- one step of the inversion chain. From `a^(2^k - 1)` it doubles `k`, and adds one to it where `bit` is set -/
def chainStep (a : Elem m) (s : Elem m × Nat) (bit : Bool) : Elem m × Nat :=
  let doubled := s.1.squareN s.2 * s.1
  if bit then (doubled.square * a, 2 * s.2 + 1) else (doubled, 2 * s.2)

/-- the inversion chain along the bits of `degree - 1` below the highest, with the exponent count it ends at -/
def chain (a : Elem m) : Elem m × Nat :=
  let n := m.degree - 1
  ((List.range n.log2).reverse.map n.testBit).foldl (chainStep a) (a, 1)

/-- the power 2^degree - 2 -/
def invert (a : Elem m) : Elem m :=
  (chain a).1.square

instance : Div (Elem m) := ⟨fun a b => b.invert * a⟩

/-- equality read off the sum of the two representations -/
def sameBits (a b : Elem m) : Bool :=
  (a.bits ^^^ b.bits) == 0

/-- `b` where `choice` is set, else `a` -/
def select (a b : Elem m) (choice : Bool) : Elem m :=
  if choice then b else a

/-- the name of the field and the bits in hexadecimal -/
def text (a : Elem m) : String :=
  m.name ++ "(0x" ++ String.ofList (Nat.toDigits 16 a.bits.toNat) ++ ")"

/-- elements are known by their bits as a number -/
theorem ext_toNat {a b : Elem m} (h : a.bits.toNat = b.bits.toNat) : a = b := by
  cases a
  cases b
  exact congrArg mk (BitVec.eq_of_toNat_eq h)

theorem sameBits_iff (a b : Elem m) : a.sameBits b = true ↔ a = b := by
  cases a
  cases b
  simp [sameBits]

end Elem

/-! ## The moduli in use -/

/-- z^12 + z^3 + 1, the field of the code-based schemes -/
def gf4096 : Modulus := { name := "Gf4096", degree := 12, tail := 0b1001 }

/-- z^13 + z^4 + z^3 + z + 1 -/
def gf8192 : Modulus := { name := "Gf8192", degree := 13, tail := 0b11011 }

/-- z^4 + z + 1, the field of the multivariate schemes -/
def gf16 : Modulus := { name := "Gf16", degree := 4, tail := 0b11 }

/-- the three fields of the schemes, an irreducible modulus of each other degree, and the ring `R8` that is no field -/
def moduli : List Modulus :=
  [gf4096, gf8192, gf16,
    { name := "B2", degree := 2, tail := 0b11 },
    { name := "B3", degree := 3, tail := 0b101 },
    { name := "B5", degree := 5, tail := 0b1001 },
    { name := "B6", degree := 6, tail := 0b11 },
    { name := "B7", degree := 7, tail := 0b11 },
    { name := "B8", degree := 8, tail := 0x1b },
    { name := "B9", degree := 9, tail := 0x11 },
    { name := "B10", degree := 10, tail := 0b1001 },
    { name := "B11", degree := 11, tail := 0b101 },
    { name := "B14", degree := 14, tail := 0x21 },
    { name := "B15", degree := 15, tail := 0x101 },
    { name := "B16", degree := 16, tail := 0x2b },
    { name := "R8", degree := 8, tail := 1 }]

/-- the modulus called `name` -/
def modulus? (name : String) : Option Modulus :=
  moduli.find? fun m => m.name == name

end PostQuantum.BinaryField
