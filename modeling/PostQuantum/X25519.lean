/-
Diffie-Hellman on the Montgomery curve y^2 = x^3 + 486662 x^2 + x over the integers modulo 2^255 - 19.

A point is given by its u-coordinate, 32 bytes with the lowest first. Bit 255 of a coordinate is ignored and a value
from the modulus up is taken modulo it, so several byte strings may name one coordinate (`coordinate`). Any coordinate
is multiplied, also one of small order; the result may be zero.
-/
import PostQuantum.Bytes

namespace PostQuantum.X25519

def prime : Nat := (1 <<< 255) - 19

def add (a b : Nat) : Nat := (a + b) % prime

def sub (a b : Nat) : Nat := (a + prime - b) % prime

def mul (a b : Nat) : Nat := (a * b) % prime

/-- `a` to the power `e`, over the low `bits` bits of `e` -/
def power (a e bits : Nat) : Nat :=
  (List.range bits).reverse.foldl
    (fun acc i => let acc := mul acc acc; if e.testBit i then mul acc a else acc) 1

def inverse (a : Nat) : Nat := power a (prime - 2) 255

/-- the coordinate that 32 bytes name -/
def coordinate (bytes : Bytes 32) : Nat :=
  Bytes.toNat bytes.toList % (1 <<< 255) % prime

/-- a secret as a scalar: a multiple of eight with bit 254 its highest -/
def clamp (secret : Bytes 32) : Nat :=
  Bytes.toNat secret.toList % (1 <<< 254) / 8 * 8 + (1 <<< 254)

/-- two points that differ by the base point, each as a fraction -/
structure Ladder where
  x2 : Nat
  z2 : Nat
  x3 : Nat
  z3 : Nat

def Ladder.swap (l : Ladder) : Ladder := ⟨l.x3, l.z3, l.x2, l.z2⟩

/-- double the first point and add the second to it; `x1` is the coordinate of their difference -/
def Ladder.double (x1 : Nat) (l : Ladder) : Ladder :=
  let a := add l.x2 l.z2
  let aa := mul a a
  let b := sub l.x2 l.z2
  let bb := mul b b
  let e := sub aa bb
  let da := mul (sub l.x3 l.z3) a
  let cb := mul (add l.x3 l.z3) b
  let s := add da cb
  let d := sub da cb
  { x2 := mul aa bb
    z2 := mul e (add aa (mul 121665 e))
    x3 := mul s s
    z3 := mul x1 (mul d d) }

/-- the step for one bit of the scalar -/
def Ladder.step (x1 : Nat) (l : Ladder) (bit : Bool) : Ladder :=
  if bit then (l.swap.double x1).swap else l.double x1

/-- the coordinate of `scalar` times the point with coordinate `u`, over the low 255 bits -/
def multiply (scalar u : Nat) : Nat :=
  let l := (List.range 255).reverse.foldl (fun (l : Ladder) i => l.step u (scalar.testBit i)) ⟨1, 0, u, 1⟩
  mul l.x2 (inverse l.z2)

/-- the point that `secret` and `point` agree on -/
def x25519 (secret point : Bytes 32) : Bytes 32 :=
  Bytes.ofNat 32 (multiply (clamp secret) (coordinate point))

/-- the point with coordinate nine -/
def basePoint : Bytes 32 := Bytes.ofNat 32 9

end PostQuantum.X25519
