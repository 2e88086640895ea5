/-
Polynomials of degree below 256 over a prime field, and vectors of them.

A `Poly` lists coefficients, constant term first; it stands for an element of R_q = Z_q[X]/(X^256 + 1). An `NttPoly`
lists the residues that the number-theoretic transform of R_q gives. The two have the same operations but for
products, and are kept apart by type. All operations act on coefficients one by one, reduced or not, and equal
coefficients make equal polynomials and vectors (`Poly.ext_get` and the lemmas of that name).
-/
import PostQuantum.Indexed
import PostQuantum.PrimeField

namespace PostQuantum

open PrimeField

/-- a polynomial by its coefficients, constant term first -/
structure Poly (F : Modulus) where
  coeffs : Vector (Elem F) 256
  deriving DecidableEq

/-- a polynomial by its residues under the number-theoretic transform -/
structure NttPoly (F : Modulus) where
  coeffs : Vector (Elem F) 256
  deriving DecidableEq

/-- `k` polynomials -/
structure PolyVec (F : Modulus) (k : Nat) where
  polys : Vector (Poly F) k
  deriving DecidableEq

/-- `k` polynomials by their residues -/
structure NttVec (F : Modulus) (k : Nat) where
  polys : Vector (NttPoly F) k
  deriving DecidableEq

/-- `items` in brackets, with a comma between neighbours -/
def bracketed (items : List String) : String :=
  "[" ++ ", ".intercalate items ++ "]"

namespace Poly

variable {F : Modulus}

instance : Zero (Poly F) := ⟨⟨0⟩⟩
instance : Inhabited (Poly F) := ⟨0⟩
instance : Add (Poly F) := ⟨fun f g => ⟨f.coeffs + g.coeffs⟩⟩
instance : Sub (Poly F) := ⟨fun f g => ⟨f.coeffs - g.coeffs⟩⟩
instance : Neg (Poly F) := ⟨fun f => ⟨-f.coeffs⟩⟩

/-- `c` times each coefficient -/
def scale (c : Elem F) (f : Poly F) : Poly F := ⟨f.coeffs.map (c * ·)⟩

theorem ext_get {u v : Poly F} (h : ∀ i, u.coeffs.get i = v.coeffs.get i) : u = v := by
  cases u
  cases v
  exact congrArg mk (PostQuantum.ext_get h)

/-- every coefficient is reduced -/
def Reduced (f : Poly F) : Prop := ∀ i : Fin 256, (f.coeffs.get i).Reduced

def text (f : Poly F) : String :=
  "Polynomial(Array(" ++ bracketed (f.coeffs.toList.map Elem.text) ++ "))"

end Poly

namespace NttPoly

variable {F : Modulus}

instance : Zero (NttPoly F) := ⟨⟨0⟩⟩
instance : Inhabited (NttPoly F) := ⟨0⟩
instance : Add (NttPoly F) := ⟨fun f g => ⟨f.coeffs + g.coeffs⟩⟩
instance : Sub (NttPoly F) := ⟨fun f g => ⟨f.coeffs - g.coeffs⟩⟩

theorem ext_get {u v : NttPoly F} (h : ∀ i, u.coeffs.get i = v.coeffs.get i) : u = v := by
  cases u
  cases v
  exact congrArg mk (PostQuantum.ext_get h)

/-- every residue is reduced -/
def Reduced (f : NttPoly F) : Prop := ∀ i : Fin 256, (f.coeffs.get i).Reduced

def text (f : NttPoly F) : String :=
  "NttPolynomial(Array(" ++ bracketed (f.coeffs.toList.map Elem.text) ++ "))"

end NttPoly

namespace PolyVec

variable {F : Modulus} {k : Nat}

instance : Add (PolyVec F k) := ⟨fun u v => ⟨u.polys + v.polys⟩⟩

theorem ext_get {u v : PolyVec F k} (h : ∀ i, u.polys.get i = v.polys.get i) : u = v := by
  cases u
  cases v
  exact congrArg mk (PostQuantum.ext_get h)

/-- every polynomial is reduced -/
def Reduced (v : PolyVec F k) : Prop := ∀ i : Fin k, (v.polys.get i).Reduced

def text (v : PolyVec F k) : String :=
  "Vector(" ++ bracketed (v.polys.toList.map Poly.text) ++ ")"

end PolyVec

namespace NttVec

variable {F : Modulus} {k : Nat}

instance : Add (NttVec F k) := ⟨fun u v => ⟨u.polys + v.polys⟩⟩

theorem ext_get {u v : NttVec F k} (h : ∀ i, u.polys.get i = v.polys.get i) : u = v := by
  cases u
  cases v
  exact congrArg mk (PostQuantum.ext_get h)

/-- every polynomial is reduced -/
def Reduced (v : NttVec F k) : Prop := ∀ i : Fin k, (v.polys.get i).Reduced

def text (v : NttVec F k) : String :=
  "NttVector(" ++ bracketed (v.polys.toList.map NttPoly.text) ++ ")"

end NttVec

end PostQuantum
