/-
The transforms and the products in T_q with steps that refuse to go wrong.

The loops are written again so that they have no value if an operation on coefficients is given one that is not reduced
or gives one, if a word loses bits, or if an index is out of range, be it of the coefficients or of the table of roots.
- `Elem.onReduced_eq`: an operation on reduced elements that gives a reduced one.
- `transformLoop?_eq`, `inverseLoop?_eq`: on reduced coefficients the loops over one vector refuse no step.
- `ntt?_eq`, `nttInverse?_eq`, `multiply?_eq`, `dot?_eq`, `mulVec?_eq`: so they are the functions on words.
-/
import Mathlib.Tactic
import PostQuantum.Proofs.InRange
import PostQuantum.Proofs.MLKEM.Homomorphism
import PostQuantum.Proofs.MLKEM.InPlace
import PostQuantum.Proofs.PrimeField.Exact

namespace PostQuantum

open PrimeField InRange

/-! ## Operations on reduced elements -/

namespace PrimeField.Elem

variable {F : Modulus} {a b r : Elem F}

/-- the element, if it is reduced -/
def reduced? (a : Elem F) : Option (Elem F) := if a.Reduced then some a else none

/-- an operation that takes and gives reduced elements only -/
def onReduced (op? : Elem F → Elem F → Option (Elem F)) (a b : Elem F) : Option (Elem F) := do
  let a ← a.reduced?
  let b ← b.reduced?
  let result ← op? a b
  result.reduced?

theorem reduced?_eq (h : a.Reduced) : a.reduced? = some a := if_pos h

theorem onReduced_eq {op? : Elem F → Elem F → Option (Elem F)} (ha : a.Reduced) (hb : b.Reduced)
    (hop : op? a b = some r) (hr : r.Reduced) : onReduced op? a b = some r := by
  refine andThen (reduced?_eq ha) ?_
  refine andThen (reduced?_eq hb) ?_
  refine andThen hop ?_
  exact reduced?_eq hr

theorem onReduced_add? (ha : a.Reduced) (hb : b.Reduced) : onReduced add? a b = some (a + b) :=
  onReduced_eq ha hb (add?_eq ha hb) (reduced_add ha hb)

example : onReduced add? (⟨3329⟩ : Elem z3329) ⟨0⟩ = none := by decide

theorem onReduced_sub? (ha : a.Reduced) (hb : b.Reduced) : onReduced sub? a b = some (a - b) :=
  onReduced_eq ha hb (sub?_eq ha hb) (reduced_sub ha hb)

theorem onReduced_mul? (ha : a.Reduced) (hb : b.Reduced) : onReduced mul? a b = some (a * b) :=
  onReduced_eq ha hb (mul?_eq ha hb) (reduced_mul a b)

end PrimeField.Elem

namespace MLKEM

open Elem (onReduced reduced?_eq onReduced_add? onReduced_sub? onReduced_mul?)

/-! ## Butterflies -/

/-- the butterfly of the transform -/
def forward? (zeta lower upper : Coeff) : Option (Coeff × Coeff) := do
  let t ← onReduced Elem.mul? zeta upper
  let difference ← onReduced Elem.sub? lower t
  let sum ← onReduced Elem.add? lower t
  some (sum, difference)

/-- the butterfly of the inverse -/
def backward? (zeta lower upper : Coeff) : Option (Coeff × Coeff) := do
  let sum ← onReduced Elem.add? lower upper
  let difference ← onReduced Elem.sub? upper lower
  let product ← onReduced Elem.mul? zeta difference
  some (sum, product)

/-- on reduced coefficients the butterfly refuses no step, and it gives reduced ones -/
def ExactPair (op? : Coeff → Coeff → Option (Coeff × Coeff)) (op : Coeff → Coeff → Coeff × Coeff) : Prop :=
  ∀ lower upper : Coeff, lower.Reduced → upper.Reduced →
    op? lower upper = some (op lower upper) ∧ (op lower upper).1.Reduced ∧ (op lower upper).2.Reduced

variable {zeta : Coeff} {f : Vector Coeff 256}

theorem forward?_exact (hzeta : zeta.Reduced) : ExactPair (forward? zeta) (forward zeta) := by
  intro lower upper hlower hupper
  have ht := Elem.reduced_mul zeta upper
  refine ⟨?_, Elem.reduced_add hlower ht, Elem.reduced_sub hlower ht⟩
  refine andThen (onReduced_mul? hzeta hupper) ?_
  refine andThen (onReduced_sub? hlower ht) ?_
  refine andThen (onReduced_add? hlower ht) ?_
  rfl

theorem backward?_exact (hzeta : zeta.Reduced) : ExactPair (backward? zeta) (backward zeta) := by
  intro lower upper hlower hupper
  have hdifference := Elem.reduced_sub hupper hlower
  refine ⟨?_, Elem.reduced_add hlower hupper, Elem.reduced_mul _ _⟩
  refine andThen (onReduced_add? hlower hupper) ?_
  refine andThen (onReduced_sub? hupper hlower) ?_
  refine andThen (onReduced_mul? hzeta hdifference) ?_
  rfl

/-! ## Loops over one vector -/

/-- replace the coefficients at `j` and `j + len` -/
def updatePair? (op? : Coeff → Coeff → Option (Coeff × Coeff)) (len : ℕ) (f : Vector Coeff 256) (j : ℕ) :
    Option (Vector Coeff 256) := do
  let partner ← index? (j + len)
  let lower ← f[j]?
  let upper ← f[partner]?
  let (lower, upper) ← op? lower upper
  let f ← write? f partner upper
  write? f j lower

/-- replace all pairs of the block that begins at `start` -/
def updateBlock? (op? : Coeff → Coeff → Option (Coeff × Coeff)) (len : ℕ) (f : Vector Coeff 256) (start : ℕ) :
    Option (Vector Coeff 256) := do
  let stop ← index? (start + len)
  (List.range' start (stop - start)).foldlM (updatePair? op? len) f

/-- replace all pairs of all blocks, with the root at the counter for each block -/
def updateLayer? (op? : Coeff → Coeff → Coeff → Option (Coeff × Coeff)) (next? : ℕ → Option ℕ)
    (s : Vector Coeff 256 × ℕ) (len : ℕ) : Option (Vector Coeff 256 × ℕ) := do
  let stride ← index? (2 * len)
  (List.range' 0 ((256 + stride - 1) / stride) stride).foldlM
    (fun s start => do
      let zeta ← zetas[s.2]?
      let counter ← next? s.2
      let f ← updateBlock? (op? zeta) len s.1 start
      some (f, counter)) s

/-- the transform in place -/
def transformLoop? (f : Vector Coeff 256) : Option (Vector Coeff 256) := do
  let (f, _) ← [128, 64, 32, 16, 8, 4, 2].foldlM (updateLayer? forward? fun counter => index? (counter + 1)) (f, 1)
  some f

/-- the inverse in place, without the scale at the end -/
def inverseLoop? (f : Vector Coeff 256) : Option (Vector Coeff 256) := do
  let (f, _) ← [2, 4, 8, 16, 32, 64, 128].foldlM (updateLayer? backward? fun counter => indexSub? counter 1) (f, 127)
  some f

theorem getElem?_eq_getD {n i : ℕ} (v : Vector Coeff n) (hi : i < n) : v[i]? = some (v.getD i 0) := by
  rw [Vector.getElem?_eq_getElem hi, getD_of_lt v hi]
  rfl

theorem AllReduced.getD (hf : AllReduced f) {i : ℕ} (hi : i < 256) : (f.getD i 0).Reduced := by
  rw [getD_of_lt f hi]
  exact hf _

theorem AllReduced.write (hf : AllReduced f) {a : Coeff} (ha : a.Reduced) (i : ℕ) :
    AllReduced (f.setIfInBounds i a) := by
  intro j
  have hget : (f.setIfInBounds i a).get j = if i = j.val then a else f.get j := Vector.getElem_setIfInBounds j.isLt
  rw [hget]
  split
  · exact ha
  · exact hf j

section Loops

variable {op? : Coeff → Coeff → Option (Coeff × Coeff)} {op : Coeff → Coeff → Coeff × Coeff} {len start j : ℕ}

theorem updatePair?_eq (hop : ExactPair op? op) (hf : AllReduced f) (hj : j + len < 256) :
    updatePair? op? len f j = some (updatePair op len f j) ∧ AllReduced (updatePair op len f j) := by
  have hlow : j < 256 := by omega
  obtain ⟨hvalue, hlower, hupper⟩ := hop _ _ (hf.getD hlow) (hf.getD hj)
  refine ⟨?_, (hf.write hupper _).write hlower _⟩
  refine andThen (index?_eq (by omega)) ?_
  refine andThen (getElem?_eq_getD f hlow) ?_
  refine andThen (getElem?_eq_getD f hj) ?_
  refine andThen hvalue ?_
  refine andThen (write?_eq _ hj) ?_
  exact write?_eq _ hlow

theorem updateBlock?_eq (hop : ExactPair op? op) (hf : AllReduced f) (hstart : start + 2 * len ≤ 256) :
    updateBlock? op? len f start = some (updateBlock op len f start) ∧ AllReduced (updateBlock op len f start) := by
  have hloop := foldlM_eq_foldl (updatePair? op? len) (updatePair op len) (List.range' start len)
    (fun _ f => AllReduced f) hf fun n hn f hf => by
      rw [List.length_range'] at hn
      rw [List.getElem_range', Nat.one_mul]
      exact updatePair?_eq hop hf (by omega)
  refine ⟨?_, hloop.2⟩
  refine andThen (index?_eq (by omega)) ?_
  rw [Nat.add_sub_cancel_left]
  exact hloop.1

end Loops

theorem stride_facts (l : Fin 7) : half l ≤ 128 ∧ (256 + 2 * half l - 1) / (2 * half l) = 128 / half l := by
  revert l
  decide

/-- blocks end where the coefficients do -/
theorem block_end_le (l : Fin 7) {b : ℕ} (hb : b < 2 ^ l.val) : 2 * half l * b + 2 * half l ≤ 256 := by
  have hall := blocks_mul_half l
  have hle := Nat.mul_le_mul_left (2 * half l) (Nat.succ_le_of_lt hb)
  rw [blocks_eq] at hall
  rwa [Nat.mul_succ, Nat.mul_assoc 2 (half l) (2 ^ l.val), Nat.mul_comm (half l), hall] at hle

/-- a pass over reduced coefficients, with the counter as a function of the block -/
theorem updateLayer?_eq (counter : ℕ → ℕ) {op? : Coeff → Coeff → Coeff → Option (Coeff × Coeff)}
    {op : Coeff → Coeff → Coeff → Coeff × Coeff} (hop : ∀ zeta : Coeff, zeta.Reduced → ExactPair (op? zeta) (op zeta))
    {next? : ℕ → Option ℕ} {next : ℕ → ℕ} (l : Fin 7)
    (hnext : ∀ b < 2 ^ l.val, next? (counter b) = some (next (counter b)) ∧ next (counter b) = counter (b + 1))
    (htable : ∀ b < 2 ^ l.val, counter b < 128) (hf : AllReduced f) :
    updateLayer? op? next? (f, counter 0) (half l) = some (updateLayer op next (f, counter 0) (half l)) ∧
      AllReduced (updateLayer op next (f, counter 0) (half l)).1 := by
  obtain ⟨hhalf, hcount⟩ := stride_facts l
  have hloop := foldlM_eq_foldl
    (fun s start => do
      let zeta ← zetas[s.2]?
      let counter ← next? s.2
      let f ← updateBlock? (op? zeta) (half l) s.1 start
      some (f, counter))
    (fun s start => (updateBlock (op (zetas.getD s.2 0)) (half l) s.1 start, next s.2))
    (List.range' 0 (128 / half l) (2 * half l)) (s := (f, counter 0))
    (fun b s => AllReduced s.1 ∧ s.2 = counter b) ⟨hf, rfl⟩ fun b hb s ⟨hf, hcounter⟩ => by
      rw [List.length_range', count_eq] at hb
      obtain ⟨hvalue, hvalue'⟩ := hnext b hb
      have hzeta : (zetas.getD (counter b) 0).Reduced := by
        rw [getD_of_lt _ (htable b hb)]
        exact zetas_get_reduced _
      obtain ⟨hblock, hreduced⟩ := updateBlock?_eq (hop _ hzeta) hf (block_end_le l hb)
      rw [List.getElem_range', Nat.zero_add, hcounter]
      refine ⟨?_, hreduced, hvalue'⟩
      refine andThen (getElem?_eq_getD zetas (htable b hb)) ?_
      refine andThen hvalue ?_
      refine andThen hblock ?_
      rfl
  refine ⟨?_, hloop.2.1⟩
  refine andThen (index?_eq (by omega)) ?_
  rw [hcount]
  exact hloop.1

/-- a pass of the transform over reduced coefficients -/
theorem updateLayer?_forward (l : Fin 7) (hf : AllReduced f) :
    updateLayer? forward? (fun counter => index? (counter + 1)) (f, 2 ^ l.val) (half l) =
        some (updateLayer forward (· + 1) (f, 2 ^ l.val) (half l)) ∧
      AllReduced (updateLayer forward (· + 1) (f, 2 ^ l.val) (half l)).1 := by
  have hpow : 2 ^ l.val ≤ 2 ^ 6 := Nat.pow_le_pow_right (by norm_num) (by omega)
  refine updateLayer?_eq (2 ^ l.val + ·) (fun _ => forward?_exact) l (fun b hb => ⟨?_, rfl⟩)
    (fun b hb => ?_) hf
  · exact index?_eq (by omega)
  · omega

/-- a pass of the inverse over reduced coefficients -/
theorem updateLayer?_backward (l : Fin 7) (hf : AllReduced f) :
    updateLayer? backward? (fun counter => indexSub? counter 1) (f, 2 ^ (l.val + 1) - 1) (half l) =
        some (updateLayer backward (· - 1) (f, 2 ^ (l.val + 1) - 1) (half l)) ∧
      AllReduced (updateLayer backward (· - 1) (f, 2 ^ (l.val + 1) - 1) (half l)).1 := by
  have hpow : 2 ^ l.val ≤ 2 ^ 6 := Nat.pow_le_pow_right (by norm_num) (by omega)
  rw [pow_succ']
  refine updateLayer?_eq (2 * 2 ^ l.val - 1 - ·) (fun _ => backward?_exact) l
    (fun b hb => ⟨?_, Nat.sub_sub _ b 1⟩) (fun b hb => ?_) hf
  · exact indexSub?_eq (by omega)
  · omega

/-- **The loop of the transform** refuses no step on reduced coefficients. -/
theorem transformLoop?_eq (hf : AllReduced f) :
    transformLoop? f = some (transformLoop f) ∧ AllReduced (transformLoop f) := by
  have hlengths : [128, 64, 32, 16, 8, 4, 2] = (List.finRange 7).map half := by decide
  obtain ⟨hloop, hreduced, -⟩ := foldlM_finRange
    (fun s l => updateLayer? forward? (fun counter => index? (counter + 1)) s (half l))
    (fun s l => updateLayer forward (· + 1) s (half l)) (s := (f, 1))
    (fun n s => AllReduced s.1 ∧ s.2 = 2 ^ n) ⟨hf, rfl⟩ fun l s ⟨hf, hcounter⟩ => by
      obtain ⟨f, counter⟩ := s
      obtain rfl : counter = 2 ^ l.val := hcounter
      obtain ⟨hpass, hreduced⟩ := updateLayer?_forward l hf
      exact ⟨hpass, hreduced, congrArg Prod.snd (updateLayer_forward l f)⟩
  rw [transformLoop?, transformLoop, hlengths, List.foldlM_map, List.foldl_map, hloop]
  exact ⟨rfl, hreduced⟩

/-- **The loop of the inverse** refuses no step on reduced coefficients. -/
theorem inverseLoop?_eq (hf : AllReduced f) :
    inverseLoop? f = some (inverseLoop f) ∧ AllReduced (inverseLoop f) := by
  have hlengths : [2, 4, 8, 16, 32, 64, 128] = (List.finRange 7).map fun l => half l.rev := by decide
  obtain ⟨hloop, hreduced, -⟩ := foldlM_finRange
    (fun s l => updateLayer? backward? (fun counter => indexSub? counter 1) s (half l.rev))
    (fun s l => updateLayer backward (· - 1) s (half l.rev)) (s := (f, 127))
    (fun n s => AllReduced s.1 ∧ s.2 = 2 ^ (7 - n) - 1) ⟨hf, rfl⟩ fun l s ⟨hf, hcounter⟩ => by
      have hrev : l.rev.val = 7 - (l.val + 1) := Fin.val_rev l
      have hprevious : 7 - l.val = l.rev.val + 1 := by omega
      rw [hprevious] at hcounter
      obtain ⟨f, counter⟩ := s
      obtain rfl : counter = 2 ^ (l.rev.val + 1) - 1 := hcounter
      obtain ⟨hpass, hreduced⟩ := updateLayer?_backward l.rev hf
      refine ⟨hpass, hreduced, ?_⟩
      rw [← hrev]
      exact congrArg Prod.snd (updateLayer_backward l.rev f)
  rw [inverseLoop?, inverseLoop, hlengths, List.foldlM_map, List.foldl_map, hloop]
  exact ⟨rfl, hreduced⟩

/-! ## Transforms, sums and products -/

/-- the transform -/
def ntt? (f : Rq) : Option Tq := (transformLoop? f.coeffs).map NttPoly.mk

/-- `c` times each coefficient -/
def scale? (c : Coeff) (f : Rq) : Option Rq := (map? (onReduced Elem.mul? c) f.coeffs).map Poly.mk

/-- the inverse of the transform -/
def nttInverse? (f : Tq) : Option Rq := do
  let coeffs ← inverseLoop? f.coeffs
  scale? inverse128 ⟨coeffs⟩

/-- the sum of two polynomials -/
def Rq.add? (f g : Rq) : Option Rq := (zip? (onReduced Elem.add?) f.coeffs g.coeffs).map Poly.mk

/-- the difference of two polynomials -/
def Rq.sub? (f g : Rq) : Option Rq := (zip? (onReduced Elem.sub?) f.coeffs g.coeffs).map Poly.mk

/-- the sum in T_q -/
def Tq.add? (f g : Tq) : Option Tq := (zip? (onReduced Elem.add?) f.coeffs g.coeffs).map NttPoly.mk

/-- a reduced element in the word that holds products -/
def long? (a : Coeff) : Option (BitVec z3329.longBits) := do
  let a ← a.reduced?
  Word.resize? z3329.longBits a.rep

/-- a sum of two products, reduced once -/
def sumOfProducts? (a b c d : BitVec z3329.longBits) : Option Coeff := do
  let x ← Word.mul? a b
  let y ← Word.mul? c d
  let sum ← Word.add? x y
  let rep ← z3329.barrettReduce? sum
  Elem.reduced? ⟨rep⟩

/-- the product (a0 + a1 X)(b0 + b1 X) modulo X^2 - gamma -/
def baseCase? (a0 a1 b0 b1 gamma : Coeff) : Option (Coeff × Coeff) := do
  let a0 ← long? a0
  let a1 ← long? a1
  let b0 ← long? b0
  let b1 ← long? b1
  let gamma ← long? gamma
  let product ← Word.mul? b1 gamma
  let scaled ← z3329.barrettReduce? product
  let b1gamma ← Word.resize? z3329.longBits scaled
  let constant ← sumOfProducts? a0 b0 a1 b1gamma
  let linear ← sumOfProducts? a0 b1 a1 b0
  some (constant, linear)

/-- the entries for factor `i` of a product -/
def multiplyStep? (f g : Tq) (out : Vector Coeff 256) (i : Fin 128) : Option (Vector Coeff 256) := do
  let even ← index? (2 * i.val)
  let odd ← index? (even + 1)
  let a0 ← f.coeffs[even]?
  let a1 ← f.coeffs[odd]?
  let b0 ← g.coeffs[even]?
  let b1 ← g.coeffs[odd]?
  let (constant, linear) ← baseCase? a0 a1 b0 b1 (gammas.get i)
  let out ← write? out even constant
  write? out odd linear

/-- the product in T_q, factor by factor -/
def multiply? (f g : Tq) : Option Tq :=
  ((List.finRange 128).foldlM (multiplyStep? f g) (Vector.replicate 256 0)).map NttPoly.mk

section Vectors

variable {k : ℕ}

def nttVec? (v : RqVec k) : Option (TqVec k) := (map? ntt? v.polys).map NttVec.mk

def nttInverseVec? (v : TqVec k) : Option (RqVec k) := (map? nttInverse? v.polys).map PolyVec.mk

/-- the sum of two vectors of polynomials -/
def RqVec.add? (u v : RqVec k) : Option (RqVec k) := (zip? Rq.add? u.polys v.polys).map PolyVec.mk

/-- the sum of two vectors over T_q -/
def TqVec.add? (u v : TqVec k) : Option (TqVec k) := (zip? Tq.add? u.polys v.polys).map NttVec.mk

/-- the sum of the products of entries with the same index -/
def dot? (u v : TqVec k) : Option Tq :=
  (List.finRange k).foldlM (fun acc i => do
    let product ← multiply? (u.polys.get i) (v.polys.get i)
    Tq.add? acc product) 0

def mulVec? (a : TqMatrix k) (v : TqVec k) : Option (TqVec k) := (map? (fun row => dot? row v) a).map NttVec.mk

end Vectors

theorem inverse128_reduced : inverse128.Reduced := by decide

theorem scale?_eq {c : Coeff} {f : Rq} (hc : c.Reduced) (hf : f.Reduced) : scale? c f = some (Poly.scale c f) := by
  unfold scale?
  rw [map?_eq fun i => onReduced_mul? hc (hf i)]
  rfl

theorem ntt?_eq {f : Rq} (hf : f.Reduced) : ntt? f = some (ntt f) := by
  rw [ntt?, (transformLoop?_eq hf).1, ntt_eq_loop]
  rfl

theorem nttInverse?_eq {f : Tq} (hf : f.Reduced) : nttInverse? f = some (nttInverse f) := by
  obtain ⟨hloop, hreduced⟩ := inverseLoop?_eq hf
  rw [nttInverse?, hloop, nttInverse_eq_loop, Option.bind_eq_bind, Option.bind_some]
  exact scale?_eq inverse128_reduced hreduced

theorem Rq.add?_eq {f g : Rq} (hf : f.Reduced) (hg : g.Reduced) : Rq.add? f g = some (f + g) := by
  rw [Rq.add?, zip?_add fun i => onReduced_add? (hf i) (hg i)]
  rfl

theorem Rq.sub?_eq {f g : Rq} (hf : f.Reduced) (hg : g.Reduced) : Rq.sub? f g = some (f - g) := by
  have hentries : zip? (onReduced Elem.sub?) f.coeffs g.coeffs = some (f.coeffs - g.coeffs) := zip?_eq fun i => by
    rw [get_sub]
    exact onReduced_sub? (hf i) (hg i)
  rw [Rq.sub?, hentries]
  rfl

theorem Tq.add?_eq {f g : Tq} (hf : f.Reduced) (hg : g.Reduced) : Tq.add? f g = some (f + g) := by
  rw [Tq.add?, zip?_add fun i => onReduced_add? (hf i) (hg i)]
  rfl

/-! ## Products -/

theorem long?_eq {a : Coeff} (ha : a.Reduced) : long? a = some a.long := by
  refine andThen (reduced?_eq ha) ?_
  exact Word.resize?_eq_some_iff.2 (Elem.toNat_long a)

theorem sumOfProducts?_eq {a b c d : Coeff} (ha : a.Reduced) (hb : b.Reduced) (hc : c.Reduced) (hd : d.Reduced) :
    sumOfProducts? a.long b.long c.long d.long =
      some ⟨z3329.barrettReduce (a.long * b.long + c.long * d.long)⟩ := by
  have hx := Elem.long_mul_toNat ha hb
  have hy := Elem.long_mul_toNat hc hd
  have hproduct : Word.mul? a.long b.long = some (a.long * b.long) := by
    rw [Word.mul?_eq_some_iff, hx, Elem.toNat_long, Elem.toNat_long]
  have hproduct' : Word.mul? c.long d.long = some (c.long * d.long) := by
    rw [Word.mul?_eq_some_iff, hy, Elem.toNat_long, Elem.toNat_long]
  have hsum : Word.add? (a.long * b.long) (c.long * d.long) = some (a.long * b.long + c.long * d.long) := by
    rw [Word.add?_eq_some_iff, toNat_sum_of_products ha hb hc hd, hx, hy]
  refine andThen hproduct ?_
  refine andThen hproduct' ?_
  refine andThen hsum ?_
  refine andThen (Modulus.barrettReduce?_eq _) ?_
  exact reduced?_eq (reduced_barrettReduce _)

theorem baseCase?_eq {a0 a1 b0 b1 gamma : Coeff} (ha0 : a0.Reduced) (ha1 : a1.Reduced) (hb0 : b0.Reduced)
    (hb1 : b1.Reduced) (hgamma : gamma.Reduced) :
    baseCase? a0 a1 b0 b1 gamma = some (baseConstant a0 a1 b0 b1 gamma, baseLinear a0 a1 b0 b1) := by
  have hscaled := Elem.reduced_mul b1 gamma
  have hproduct : Word.mul? b1.long gamma.long = some (b1.long * gamma.long) := by
    rw [Word.mul?_eq_some_iff, Elem.long_mul_toNat hb1 hgamma, Elem.toNat_long, Elem.toNat_long]
  have hwide : Word.resize? z3329.longBits (z3329.barrettReduce (b1.long * gamma.long)) = some (b1 * gamma).long :=
    Word.resize?_eq_some_iff.2 (Elem.toNat_long (b1 * gamma))
  refine andThen (long?_eq ha0) ?_
  refine andThen (long?_eq ha1) ?_
  refine andThen (long?_eq hb0) ?_
  refine andThen (long?_eq hb1) ?_
  refine andThen (long?_eq hgamma) ?_
  refine andThen hproduct ?_
  refine andThen (Modulus.barrettReduce?_eq _) ?_
  refine andThen hwide ?_
  refine andThen (sumOfProducts?_eq ha0 hb0 ha1 hscaled) ?_
  refine andThen (sumOfProducts?_eq ha0 hb1 ha1 hb0) ?_
  rfl

/-- the entries for factor `i` of a product, written into `out` -/
def multiplyStep (f g : Tq) (out : Vector Coeff 256) (i : Fin 128) : Vector Coeff 256 :=
  (out.setIfInBounds (2 * i.val) ((multiply f g).constant i)).setIfInBounds (2 * i.val + 1) ((multiply f g).linear i)

theorem multiplyStep?_eq {f g : Tq} (hf : f.Reduced) (hg : g.Reduced) (out : Vector Coeff 256) (i : Fin 128) :
    multiplyStep? f g out i = some (multiplyStep f g out i) := by
  have heven : 2 * i.val < 256 := by omega
  have hodd : 2 * i.val + 1 < 256 := by omega
  have hconstant : ∀ f : Tq, f.coeffs[2 * i.val]? = some (f.constant i) := fun f => Vector.getElem?_eq_getElem heven
  have hlinear : ∀ f : Tq, f.coeffs[2 * i.val + 1]? = some (f.linear i) := fun f => Vector.getElem?_eq_getElem hodd
  have hbase := baseCase?_eq (Tq.reduced_constant hf i) (Tq.reduced_linear hf i) (Tq.reduced_constant hg i)
    (Tq.reduced_linear hg i) (gammas_get_reduced i)
  rw [← constant_multiply, ← linear_multiply] at hbase
  refine andThen (index?_eq (by omega)) ?_
  refine andThen (index?_eq (by omega)) ?_
  refine andThen (hconstant f) ?_
  refine andThen (hlinear f) ?_
  refine andThen (hconstant g) ?_
  refine andThen (hlinear g) ?_
  refine andThen hbase ?_
  refine andThen (write?_eq _ heven) ?_
  exact write?_eq _ hodd

/-- writing the entries for one factor leaves all others as they were -/
theorem get_multiplyStep (f g : Tq) (out : Vector Coeff 256) (i : Fin 128) (j : Fin 256) :
    (multiplyStep f g out i).get j = if factor j = i then (multiply f g).coeffs.get j else out.get j := by
  have hset : ∀ (v : Vector Coeff 256) (m : ℕ) (a : Coeff), (v.setIfInBounds m a).get j =
      if m = j.val then a else v.get j := fun v m a => Vector.getElem_setIfInBounds j.isLt
  have hfactor : factor j = i ↔ 2 * i.val + 1 = j.val ∨ 2 * i.val = j.val := by
    rw [Fin.ext_iff]
    simp only [factor]
    omega
  rw [multiplyStep, hset, hset]
  by_cases hodd : 2 * i.val + 1 = j.val
  · rw [if_pos hodd, if_pos (hfactor.2 (.inl hodd))]
    exact congrArg (multiply f g).coeffs.get (Fin.ext hodd)
  · rw [if_neg hodd]
    by_cases heven : 2 * i.val = j.val
    · rw [if_pos heven, if_pos (hfactor.2 (.inr heven))]
      exact congrArg (multiply f g).coeffs.get (Fin.ext heven)
    · rw [if_neg heven, if_neg fun h => (hfactor.1 h).elim hodd heven]

/-- **Products** of reduced elements of T_q refuse no step. -/
theorem multiply?_eq {f g : Tq} (hf : f.Reduced) (hg : g.Reduced) : multiply? f g = some (multiply f g) := by
  -- after n factors their entries are written
  obtain ⟨hloop, hentries⟩ := foldlM_finRange (multiplyStep? f g) (multiplyStep f g)
    (s := Vector.replicate 256 0)
    (fun n out => ∀ j : Fin 256, (factor j).val < n → out.get j = (multiply f g).coeffs.get j)
    (fun _ h => absurd h (Nat.not_lt_zero _)) fun i out hout => by
      refine ⟨multiplyStep?_eq hf hg out i, fun j hj => ?_⟩
      rw [get_multiplyStep]
      split
      case isTrue => rfl
      case isFalse hne => exact hout j (Nat.lt_of_le_of_ne (Nat.le_of_lt_succ hj) fun h => hne (Fin.ext h))
  have hresult := ext_get fun j => hentries j (factor j).isLt
  rw [multiply?, hloop, hresult]
  rfl

section Vectors

variable {k : ℕ}

/-- **Dot products** of reduced vectors refuse no step. -/
theorem dot?_eq {u v : TqVec k} (hu : u.Reduced) (hv : v.Reduced) : dot? u v = some (dot u v) := by
  have hloop := foldlM_finRange (s := (0 : Tq))
    (fun acc i => do
      let product ← multiply? (u.polys.get i) (v.polys.get i)
      Tq.add? acc product)
    (fun acc i => acc + multiply (u.polys.get i) (v.polys.get i)) (fun _ acc => acc.Reduced) Tq.reduced_zero
    fun i acc hacc => by
      have hproduct := Tq.reduced_multiply (u.polys.get i) (v.polys.get i)
      refine ⟨?_, Tq.reduced_add hacc hproduct⟩
      refine andThen (multiply?_eq (hu i) (hv i)) ?_
      exact Tq.add?_eq hacc hproduct
  exact hloop.1

theorem mulVec?_eq {a : TqMatrix k} {v : TqVec k} (ha : ∀ i, (a.get i).Reduced) (hv : v.Reduced) :
    mulVec? a v = some (mulVec a v) := by
  have hrows : map? (fun row => dot? row v) a = some (a.map fun row => dot row v) := map?_eq fun i => dot?_eq (ha i) hv
  rw [mulVec?, hrows]
  rfl

theorem nttVec?_eq {v : RqVec k} (hv : v.Reduced) : nttVec? v = some (nttVec v) := by
  rw [nttVec?, map?_eq fun i => ntt?_eq (hv i)]
  rfl

theorem nttInverseVec?_eq {v : TqVec k} (hv : v.Reduced) : nttInverseVec? v = some (nttInverseVec v) := by
  rw [nttInverseVec?, map?_eq fun i => nttInverse?_eq (hv i)]
  rfl

theorem RqVec.add?_eq {u v : RqVec k} (hu : u.Reduced) (hv : v.Reduced) : RqVec.add? u v = some (u + v) := by
  rw [RqVec.add?, zip?_add fun i => Rq.add?_eq (hu i) (hv i)]
  rfl

theorem TqVec.add?_eq {u v : TqVec k} (hu : u.Reduced) (hv : v.Reduced) : TqVec.add? u v = some (u + v) := by
  rw [TqVec.add?, zip?_add fun i => Tq.add?_eq (hu i) (hv i)]
  rfl

end Vectors

end MLKEM

end PostQuantum
