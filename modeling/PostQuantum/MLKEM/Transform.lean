/-
The number-theoretic transform of R_q = Z_q[X]/(X^256 + 1) for q = 3329.

17 is a primitive 256th root of unity modulo q, so X^256 + 1 splits into 128 quadratic factors X^2 - gammas[i], and a
polynomial is given by its 128 residues of degree one. Seven layers of butterflies split the factors: layer l works on
2^l blocks of equal length, each with a root of its own. The inverse undoes the layers in turn up to a factor of two
each, so it ends with a scale by 1/128. Products of residues are taken factor by factor (`multiply`), their sums of
products being formed in 32-bit words before one reduction.
-/
import PostQuantum.Poly

namespace PostQuantum.MLKEM

open PrimeField

/-- an integer modulo 3329 -/
abbrev Coeff := Elem z3329

/-- an element of R_q -/
abbrev Rq := Poly z3329

/-- an element of T_q, the image of R_q under the transform -/
abbrev Tq := NttPoly z3329

/-- `k` elements of R_q -/
abbrev RqVec (k : Nat) := PolyVec z3329 k

/-- `k` elements of T_q -/
abbrev TqVec (k : Nat) := NttVec z3329 k

/-- the root of unity to the power `e` -/
def zeta (e : Nat) : Coeff := Elem.ofNat z3329 (Nat.pow 17 e % 3329)

/-- the low `width` bits of `i` in the opposite order -/
def bitRev : (width : Nat) → (i : Nat) → Nat
  | 0, _ => 0
  | width + 1, i => (i % 2) <<< width + bitRev width (i / 2)

/-- the roots of the layers: those of layer l from index 2^l on -/
def zetas : Vector Coeff 128 := Vector.ofFn fun i => zeta (bitRev 7 i.val)

/-- the constants of the quadratic factors X^2 - gamma -/
def gammas : Vector Coeff 128 := Vector.ofFn fun i => zeta (2 * bitRev 7 i.val + 1)

/-- the inverse of 128 -/
def inverse128 : Coeff := Elem.ofNat z3329 3303

/-! ## Blocks of a layer -/

/-- the number of blocks of layer `l` -/
def blocks (l : Fin 7) : Nat := 1 <<< l.val

/-- half the length of a block of layer `l` -/
def half (l : Fin 7) : Nat := 128 >>> l.val

/-- the block of layer `l` that index `i` lies in -/
def blockOf (l : Fin 7) (i : Nat) : Nat := i / (2 * half l)

/-- index `i` lies in the lower half of its block -/
def InLower (l : Fin 7) (i : Nat) : Prop := i % (2 * half l) < half l

instance (l : Fin 7) (i : Nat) : Decidable (InLower l i) :=
  inferInstanceAs (Decidable (i % (2 * half l) < half l))

theorem blocks_mul_half (l : Fin 7) : blocks l * half l = 128 := by
  revert l
  decide

theorem blocks_le (l : Fin 7) : blocks l ≤ 64 := by
  revert l
  decide

theorem half_pos (l : Fin 7) : 0 < half l := by
  revert l
  decide

theorem blockOf_lt (l : Fin 7) {i : Nat} (hi : i < 256) : blockOf l i < blocks l := by
  apply Nat.div_lt_of_lt_mul
  have h := blocks_mul_half l
  calc i < 2 * (blocks l * half l) := by omega
    _ = 2 * half l * blocks l := by rw [Nat.mul_comm (blocks l), Nat.mul_assoc]

theorem partner_lt (l : Fin 7) (i : Fin 256) :
    (if InLower l i.val then i.val + half l else i.val - half l) < 256 := by
  have hi := i.isLt
  split
  case isFalse => omega
  case isTrue h =>
    have hb : blockOf l i.val + 1 ≤ blocks l := blockOf_lt l hi
    have hm := Nat.mul_le_mul_left (2 * half l) hb
    have he : 2 * half l * blocks l = 256 := by
      rw [Nat.mul_assoc, Nat.mul_comm (half l), blocks_mul_half]
    have hd : 2 * half l * blockOf l i.val + i.val % (2 * half l) = i.val := Nat.div_add_mod i.val _
    rw [Nat.mul_add, he] at hm
    unfold InLower at h
    omega

/-- the index with the place of `i` in the other half of its block -/
def partner (l : Fin 7) (i : Fin 256) : Fin 256 :=
  ⟨if InLower l i.val then i.val + half l else i.val - half l, partner_lt l i⟩

theorem root_lt (l : Fin 7) (i : Fin 256) : blocks l + blockOf l i.val < 128 := by
  have h := blockOf_lt l i.isLt
  have hb := blocks_le l
  omega

theorem opposite_lt (l : Fin 7) (i : Fin 256) : 2 * blocks l - 1 - blockOf l i.val < 128 := by
  have hb := blocks_le l
  omega

/-- the root of the block that `i` lies in -/
def root (l : Fin 7) (i : Fin 256) : Coeff := zetas.get ⟨blocks l + blockOf l i.val, root_lt l i⟩

/-- the root of the block as far from the end of the layer; it is the inverse of the root, but for the sign -/
def opposite (l : Fin 7) (i : Fin 256) : Coeff :=
  zetas.get ⟨2 * blocks l - 1 - blockOf l i.val, opposite_lt l i⟩

/-! ## The transform -/

/-- the upper half of each block of layer `l` times the root of the block -/
def twist (l : Fin 7) (f : Vector Coeff 256) : Vector Coeff 256 :=
  Vector.ofFn fun i => if InLower l i.val then f.get i else root l i * f.get i

/-- one layer: sums of the two halves of each block below their differences, after the upper half was twisted -/
def layer (l : Fin 7) (f : Vector Coeff 256) : Vector Coeff 256 :=
  let t := twist l f
  Vector.ofFn fun i =>
    if InLower l i.val then t.get i + t.get (partner l i) else t.get (partner l i) - t.get i

/-- one layer undone, up to a factor of two: the differences are twisted after they are formed -/
def unlayer (l : Fin 7) (f : Vector Coeff 256) : Vector Coeff 256 :=
  Vector.ofFn fun i =>
    if InLower l i.val then f.get i + f.get (partner l i) else opposite l i * (f.get i - f.get (partner l i))

/-- the residues of `f` modulo the quadratic factors -/
def ntt (f : Rq) : Tq :=
  ⟨(List.finRange 7).foldl (fun v l => layer l v) f.coeffs⟩

/-- the polynomial with the residues `f` -/
def nttInverse (f : Tq) : Rq :=
  Poly.scale inverse128 ⟨(List.finRange 7).reverse.foldl (fun v l => unlayer l v) f.coeffs⟩

def nttVec {k : Nat} (v : RqVec k) : TqVec k := ⟨v.polys.map ntt⟩

def nttInverseVec {k : Nat} (v : TqVec k) : RqVec k := ⟨v.polys.map nttInverse⟩

/-! ## Products -/

/-- the constant term of (a0 + a1 X)(b0 + b1 X) modulo X^2 - gamma -/
def baseConstant (a0 a1 b0 b1 gamma : Coeff) : Coeff :=
  let b1gamma : Coeff := b1 * gamma
  ⟨z3329.barrettReduce (a0.long * b0.long + a1.long * b1gamma.long)⟩

/-- the linear term of (a0 + a1 X)(b0 + b1 X) -/
def baseLinear (a0 a1 b0 b1 : Coeff) : Coeff :=
  ⟨z3329.barrettReduce (a0.long * b1.long + a1.long * b0.long)⟩

theorem factor_lt (i : Fin 256) : i.val / 2 < 128 := by omega

/-- the quadratic factor that entry `i` is a residue of -/
def factor (i : Fin 256) : Fin 128 := ⟨i.val / 2, factor_lt i⟩

theorem constant_lt (p : Fin 128) : 2 * p.val < 256 := by omega

theorem linear_lt (p : Fin 128) : 2 * p.val + 1 < 256 := by omega

/-- the constant term of the residue for factor `p` -/
def Tq.constant (f : Tq) (p : Fin 128) : Coeff := f.coeffs.get ⟨2 * p.val, constant_lt p⟩

/-- the linear term of the residue for factor `p` -/
def Tq.linear (f : Tq) (p : Fin 128) : Coeff := f.coeffs.get ⟨2 * p.val + 1, linear_lt p⟩

/-- the product in T_q, factor by factor -/
def multiply (f g : Tq) : Tq :=
  ⟨Vector.ofFn fun i =>
    let p := factor i
    let a0 := Tq.constant f p
    let a1 := Tq.linear f p
    let b0 := Tq.constant g p
    let b1 := Tq.linear g p
    if i.val % 2 = 0 then baseConstant a0 a1 b0 b1 (gammas.get p) else baseLinear a0 a1 b0 b1⟩

/-- the sum of the products of entries with the same index -/
def dot {k : Nat} (u v : TqVec k) : Tq :=
  (List.finRange k).foldl (fun acc i => acc + multiply (u.polys.get i) (v.polys.get i)) 0

/-- a matrix over T_q, by rows -/
abbrev TqMatrix (k : Nat) := Vector (TqVec k) k

def mulVec {k : Nat} (a : TqMatrix k) (v : TqVec k) : TqVec k :=
  ⟨a.map fun row => dot row v⟩

end PostQuantum.MLKEM
