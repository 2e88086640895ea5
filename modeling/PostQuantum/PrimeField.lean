/-
Prime fields Z_q, in machine words.

Three word widths belong to a modulus: one holds an element and twice the modulus, one the product of two elements,
one the product of such a product with the reciprocal of q. The reductions divide by q without a division:
- `smallReduce` subtracts q once and adds it back if the difference wrapped, which shows in its top bit;
- `barrettReduce` takes the quotient from a reciprocal scaled by the width of the product.
Representations are kept as they are given. `Elem.Reduced` says that one lies below q, and the operations on reduced
elements give reduced ones. Inverses are the power q - 2, so zero goes to zero if q is greater than two.
-/
import PostQuantum.Word

namespace PostQuantum.PrimeField

open Word

/-- what the arithmetic needs of a modulus and the three widths -/
structure Admissible (q intBits longBits wideBits : Nat) : Prop where
  two_le_q : 2 ≤ q
  double_lt : 2 * q < 1 <<< intBits
  int_le_long : intBits ≤ longBits
  product_lt : (q - 1) * (q - 1) < 1 <<< longBits
  quotient_lt : ((1 <<< longBits) - 1) * ((1 <<< longBits) / q) < 1 <<< wideBits

theorem admissible_iff {q intBits longBits wideBits : Nat} : Admissible q intBits longBits wideBits ↔
    2 ≤ q ∧ 2 * q < 1 <<< intBits ∧ intBits ≤ longBits ∧ (q - 1) * (q - 1) < 1 <<< longBits ∧
      ((1 <<< longBits) - 1) * ((1 <<< longBits) / q) < 1 <<< wideBits :=
  ⟨fun h => ⟨h.1, h.2, h.3, h.4, h.5⟩, fun ⟨h1, h2, h3, h4, h5⟩ => ⟨h1, h2, h3, h4, h5⟩⟩

instance (q intBits longBits wideBits : Nat) : Decidable (Admissible q intBits longBits wideBits) :=
  decidable_of_iff' _ admissible_iff

/-- a modulus and the widths of the words that hold an element, a product, and a product times the reciprocal -/
structure Modulus where
  q : Nat
  intBits : Nat
  longBits : Nat
  wideBits : Nat
  admissible : Admissible q intBits longBits wideBits := by decide

namespace Modulus

/-- the modulus as a word that holds an element -/
def qInt (F : Modulus) : BitVec F.intBits := BitVec.ofNat F.intBits F.q

/-- the modulus as a word that holds a product times the reciprocal -/
def qWide (F : Modulus) : BitVec F.wideBits := BitVec.ofNat F.wideBits F.q

/-- the reciprocal of q, scaled by the width of a product -/
def reciprocal (F : Modulus) : BitVec F.wideBits := BitVec.ofNat F.wideBits ((1 <<< F.longBits) / F.q)

/-- raising to this power inverts -/
def inversionExponent (F : Modulus) : Nat := F.q - 2

/-- `x` modulo q, for `x` below 2q -/
def smallReduce (F : Modulus) (x : BitVec F.intBits) : BitVec F.intBits :=
  let diff := x - F.qInt
  if diff.msb then diff + F.qInt else diff

/-- `x` modulo q -/
def barrettReduce (F : Modulus) (x : BitVec F.longBits) : BitVec F.intBits :=
  let x := x.setWidth F.wideBits
  let quotient := (x * F.reciprocal) >>> F.longBits
  F.smallReduce (narrow F.intBits (x - quotient * F.qWide))

end Modulus

/-- an element of Z_q, by a representation that need not be reduced -/
structure Elem (F : Modulus) where
  rep : BitVec F.intBits
  deriving DecidableEq

namespace Elem

variable {F : Modulus}

/-- the element represented by the low bits of `n` -/
def ofNat (F : Modulus) (n : Nat) : Elem F := ⟨BitVec.ofNat F.intBits n⟩

/-- the representation as a number -/
def val (a : Elem F) : Nat := a.rep.toNat

/-- the representation lies below q -/
def Reduced (a : Elem F) : Prop := a.val < F.q

instance (a : Elem F) : Decidable a.Reduced := inferInstanceAs (Decidable (a.val < F.q))

/-- the representation as a word that holds a product -/
def long (a : Elem F) : BitVec F.longBits := a.rep.setWidth F.longBits

instance : Zero (Elem F) := ⟨ofNat F 0⟩
instance : One (Elem F) := ⟨ofNat F 1⟩
instance : Inhabited (Elem F) := ⟨0⟩
instance : Add (Elem F) := ⟨fun a b => ⟨F.smallReduce (a.rep + b.rep)⟩⟩
instance : Sub (Elem F) := ⟨fun a b => ⟨F.smallReduce (a.rep + F.qInt - b.rep)⟩⟩
instance : Neg (Elem F) := ⟨fun a => 0 - a⟩
instance : Mul (Elem F) := ⟨fun a b => ⟨F.barrettReduce (a.long * b.long)⟩⟩

/-- the bits of `n`, the highest first -/
def bitsFromTop (n : Nat) : List Bool :=
  if n = 0 then [] else (List.range (n.log2 + 1)).reverse.map n.testBit

/-- `a` to the power `e`: a square for each bit of `e` from the top, and a product with `a` where it is set -/
def pow (a : Elem F) (e : Nat) : Elem F :=
  (bitsFromTop e).foldl (fun acc bit => let acc := acc * acc; if bit then acc * a else acc) 1

/-- the power q - 2 -/
def invert (a : Elem F) : Elem F := a.pow F.inversionExponent

instance : Div (Elem F) := ⟨fun a b => a * b.invert⟩

/-- equality read off the sum of the two representations -/
def sameBits (a b : Elem F) : Bool := (a.rep ^^^ b.rep) == 0

/-- `b` where `choice` is set, else `a` -/
def select (a b : Elem F) (choice : Bool) : Elem F := if choice then b else a

/-- the representation in decimal -/
def text (a : Elem F) : String := "Elem(" ++ toString a.val ++ ")"

theorem sameBits_iff (a b : Elem F) : a.sameBits b = true ↔ a = b := by
  cases a
  cases b
  simp [sameBits]

end Elem

/-! ## The moduli in use -/

/-- the modulus of the lattice schemes -/
def z3329 : Modulus := { q := 3329, intBits := 16, longBits := 32, wideBits := 64 }

/-- moduli of one byte, two bytes and four bytes, up to the largest that fits each width -/
def moduli : List Modulus :=
  [{ q := 2, intBits := 8, longBits := 16, wideBits := 32 },
    { q := 127, intBits := 8, longBits := 16, wideBits := 32 },
    { q := 257, intBits := 16, longBits := 32, wideBits := 64 },
    z3329,
    { q := 7681, intBits := 16, longBits := 32, wideBits := 64 },
    { q := 12289, intBits := 16, longBits := 32, wideBits := 64 },
    { q := 32749, intBits := 16, longBits := 32, wideBits := 64 },
    { q := 8380417, intBits := 32, longBits := 64, wideBits := 128 },
    { q := 2147483647, intBits := 32, longBits := 64, wideBits := 128 }]

/-- the modulus with the prime `q` -/
def modulus? (q : Nat) : Option Modulus :=
  moduli.find? fun F => F.q == q

end PostQuantum.PrimeField
