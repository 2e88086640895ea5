/-
Machine words.

A word of w bits is a `BitVec w`; its arithmetic wraps. Narrowing keeps the low bits of a word. Where a power of two is
meant as a number it is written as a shift of one, here and elsewhere.
-/
namespace PostQuantum.Word

/-- the low `m` bits of a word -/
def narrow {n : Nat} (m : Nat) (x : BitVec n) : BitVec m :=
  x.setWidth m

/-- the word with its low `k` bits set -/
def lowMask (n k : Nat) : BitVec n :=
  (1 <<< k) - 1

end PostQuantum.Word
