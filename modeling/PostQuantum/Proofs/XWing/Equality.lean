/-
Two notions of equality for X-Wing public keys.

As keys of a scheme two of them are equal when their encodings are. As X-Wing keys they are compared half by half, and
two points are the same when they have one coordinate. A coordinate leaves out bit 255 and is taken modulo the prime,
so the second notion is the coarser one, and the two come apart on points that are not written as the least number that
names them (`X25519.Canonical`).
- `X25519.coordinate_inj`, `X25519.canonical_x25519`: points that are written so are known by their coordinates, and what
  an agreement gives is written so.
- `sameKey_iff`: what the comparison of halves looks at in the encodings.
- `encapsulateWith_of_sameKey`: keys that are the same give one ciphertext, and hash the same ahead of their points.
- `typed_equality`: both notions, for all keys that are read.
- `DecapsulationKey.sameKey_ofSeed_iff`: on keys of seeds they are one.
-/
import Mathlib.Tactic
import PostQuantum.Kem.Key
import PostQuantum.Proofs.Bits
import PostQuantum.Proofs.XWing.Keys

namespace PostQuantum

/-! ## Points and their coordinates -/

namespace X25519

variable {a b : Bytes 32}

/-- a point that is written as the least number that names it -/
def Canonical (point : Bytes 32) : Prop := Bytes.toNat point.toList < prime

theorem coordinate_of_canonical (h : Canonical a) : coordinate a = Bytes.toNat a.toList := by
  have hprime : prime < 1 <<< 255 := by decide
  unfold coordinate
  rw [Nat.mod_eq_of_lt (h.trans hprime), Nat.mod_eq_of_lt h]

/-- **Canonical points are known by their coordinates.** -/
theorem coordinate_inj (ha : Canonical a) (hb : Canonical b) : coordinate a = coordinate b ↔ a = b := by
  rw [coordinate_of_canonical ha, coordinate_of_canonical hb]
  constructor
  · intro h
    exact Bytes.eq_of_toNat_eq h
  · rintro rfl
    rfl

theorem multiply_lt (scalar u : ℕ) : multiply scalar u < prime := Nat.mod_lt _ (by decide)

/-- **What an agreement gives is canonical.** -/
theorem canonical_x25519 (secret point : Bytes 32) : Canonical (x25519 secret point) := by
  have hlt := multiply_lt (clamp secret) (coordinate point)
  have hprime : prime < 2 ^ (8 * 32) := by decide
  unfold Canonical x25519
  rw [Bytes.toNat_ofNat (hlt.trans hprime)]
  exact hlt

end X25519

namespace XWing

open MLKEM (ParameterSet)

variable {P : Primitives} {bytes bytes' : List UInt8}

/-- the agreement looks at the coordinate of a point and not at how it is written -/
def Primitives.ReadsCoordinates (P : Primitives) : Prop :=
  ∀ secret point point', X25519.coordinate point = X25519.coordinate point' →
    P.agree secret point = P.agree secret point'

theorem Primitives.standard_readsCoordinates : Primitives.standard.ReadsCoordinates := by
  intro secret point point' h
  exact congrArg (fun u => Bytes.ofNat 32 (X25519.multiply (X25519.clamp secret) u)) h

namespace EncapsulationKey

variable {ek ek' : EncapsulationKey}

/-! ## Halves of keys -/

theorem sameKey_iff_halves :
    ek.sameKey ek' = true ↔ ek.mlKem = ek'.mlKem ∧ X25519.coordinate ek.point = X25519.coordinate ek'.point :=
  decide_eq_true_iff

/-- the first part of an encoding is that of the ML-KEM half -/
theorem take_of_ofBytes (h : ofBytes P bytes = .ok ek) : bytes.take 1184 = ek.mlKem.toBytes.toList := by
  obtain ⟨rfl, -⟩ := ofBytes_eq_ok_iff.1 h
  exact Bytes.take_append _ _

/-- ML-KEM halves that are read are known by their encodings -/
theorem mlKem_eq_iff (h : ofBytes P bytes = .ok ek) (h' : ofBytes P bytes' = .ok ek') :
    ek.mlKem = ek'.mlKem ↔ bytes.take 1184 = bytes'.take 1184 := by
  rw [take_of_ofBytes h, take_of_ofBytes h']
  constructor
  · intro heq
    rw [heq]
  · intro hencoding
    obtain ⟨-, hread⟩ := ofBytes_eq_ok_iff.1 h
    obtain ⟨-, hread'⟩ := ofBytes_eq_ok_iff.1 h'
    rw [hencoding, hread'] at hread
    exact (Except.ok.inj hread).symm

/-- **What the comparison of halves looks at.** -/
theorem sameKey_iff (h : ofBytes P bytes = .ok ek) (h' : ofBytes P bytes' = .ok ek') :
    ek.sameKey ek' = true ↔
      bytes.take 1184 = bytes'.take 1184 ∧ X25519.coordinate ek.point = X25519.coordinate ek'.point := by
  rw [sameKey_iff_halves, mlKem_eq_iff h h']

/-- keys that are read are known by their encodings -/
theorem eq_iff_of_ofBytes (h : ofBytes P bytes = .ok ek) (h' : ofBytes P bytes' = .ok ek') :
    ek = ek' ↔ bytes = bytes' := by
  constructor
  · rintro rfl
    rw [← (ofBytes_eq_ok_iff.1 h).1, (ofBytes_eq_ok_iff.1 h').1]
  · rintro rfl
    exact Except.ok.inj (h.symm.trans h')

/-- on canonical points the comparison of halves is that of the strings -/
theorem sameKey_iff_of_canonical (h : ofBytes P bytes = .ok ek) (h' : ofBytes P bytes' = .ok ek')
    (hpoint : X25519.Canonical ek.point) (hpoint' : X25519.Canonical ek'.point) :
    ek.sameKey ek' = true ↔ bytes = bytes' := by
  rw [sameKey_iff_halves, X25519.coordinate_inj hpoint hpoint', ← eq_iff_of_ofBytes h h']
  constructor
  · rintro ⟨hM, hX⟩
    cases ek
    cases ek'
    exact congrArg₂ EncapsulationKey.mk hM hX
  · rintro rfl
    exact ⟨rfl, rfl⟩

theorem same_xWing_iff (h : ofBytes P bytes = .ok ek) (h' : ofBytes P bytes' = .ok ek') :
    (Kem.PublicKey.xWing ek).same (.xWing ek') = true ↔ bytes = bytes' := by
  obtain ⟨rfl, -⟩ := ofBytes_eq_ok_iff.1 h
  obtain ⟨rfl, -⟩ := ofBytes_eq_ok_iff.1 h'
  simp only [Kem.PublicKey.same, Kem.PublicKey.schemeName, Kem.PublicKey.encode, beq_self_eq_true, Bool.true_and,
    beq_iff_eq]

/-- what is hashed into the shared key ahead of the point -/
def hashedAhead (P : Primitives) (ek : EncapsulationKey) (randomness : Bytes 64) : List UInt8 :=
  let (m, secret) := Bytes.halves randomness
  (ek.mlKem.encapsulateWith P.toHashes m).2.toList ++ (P.agree secret ek.point).toList ++
    (P.agree secret X25519.basePoint).toList

theorem sharedKey_eq (P : Primitives) (ek : EncapsulationKey) (randomness : Bytes 64) :
    (ek.encapsulateWith P randomness).2 = P.combine (ek.hashedAhead P randomness ++ ek.point.toList ++ label) := rfl

/-- keys that are the same give one ciphertext, and hash the same ahead of their points -/
theorem encapsulateWith_of_sameKey (hP : P.ReadsCoordinates) (h : ek.sameKey ek' = true) (randomness : Bytes 64) :
    (ek.encapsulateWith P randomness).1 = (ek'.encapsulateWith P randomness).1 ∧
      ek.hashedAhead P randomness = ek'.hashedAhead P randomness := by
  obtain ⟨mlKem, point⟩ := ek
  obtain ⟨mlKem', point'⟩ := ek'
  obtain ⟨hM, hX⟩ := sameKey_iff_halves.1 h
  obtain rfl : mlKem = mlKem' := hM
  have hagree : P.agree (Bytes.halves randomness).2 point = P.agree (Bytes.halves randomness).2 point' := hP _ _ _ hX
  constructor
  · -- the point has no part in the ciphertext
    rfl
  · unfold hashedAhead
    simp only [hagree]

/-! ## Bit 255 -/

/-- zeros with bit 255 set -/
def highBit : Bytes 32 := Bytes.append (Bytes.zeros 31) (Vector.replicate 1 0x80)

theorem coordinate_highBit : X25519.coordinate (Bytes.zeros 32) = X25519.coordinate highBit := by decide +kernel

/-- the ML-KEM half of zeros goes with any point -/
theorem exists_ofBytes_zeros (P : Primitives) :
    ∃ mlKem, ∀ point : Bytes 32, ofBytes P (List.replicate 1184 0 ++ point.toList) = .ok ⟨mlKem, point⟩ := by
  have hcanonical : MLKEM.Canonical 3 ((List.replicate 1184 0).take 1152) := by decide +kernel
  obtain ⟨mlKem, hread⟩ := ((MLKEM.EncapsulationKey.accepts P.toHashes .mlKem768).ok_iff (List.replicate 1184 0)).2
    ⟨List.length_replicate, hcanonical⟩
  have hencoding := (MLKEM.EncapsulationKey.of_ofBytes hread).1
  refine ⟨mlKem, fun point => ofBytes_eq_ok_iff.2 ⟨?_, hencoding.symm ▸ hread⟩⟩
  rw [← hencoding]
  exact Bytes.toList_append _ _

/-! ## Both notions -/

/-- **Two notions of equality.** Take any two keys that are read. As keys of the scheme they are equal exactly if the
strings are the same, and then they are the same as X-Wing keys too. As X-Wing keys they are the same exactly if the
strings have the same first 1184 bytes and the points the same coordinate, which for canonical points comes to the same
string. Keys that are the same give the same ciphertexts, but each hashes its own point into the shared key. -/
theorem typed_equality (h : ofBytes P bytes = .ok ek) (h' : ofBytes P bytes' = .ok ek') :
    ((Kem.PublicKey.xWing ek).same (.xWing ek') = true ↔ bytes = bytes') ∧
    (bytes = bytes' → ek.sameKey ek' = true) ∧
    (ek.sameKey ek' = true ↔
      bytes.take 1184 = bytes'.take 1184 ∧ X25519.coordinate ek.point = X25519.coordinate ek'.point) ∧
    (X25519.Canonical ek.point → X25519.Canonical ek'.point → (ek.sameKey ek' = true ↔ bytes = bytes')) ∧
    (P.ReadsCoordinates → ek.sameKey ek' = true → ∀ randomness,
      (ek.encapsulateWith P randomness).1 = (ek'.encapsulateWith P randomness).1 ∧
      ∃ ahead, (ek.encapsulateWith P randomness).2 = P.combine (ahead ++ ek.point.toList ++ label) ∧
        (ek'.encapsulateWith P randomness).2 = P.combine (ahead ++ ek'.point.toList ++ label)) := by
  refine ⟨same_xWing_iff h h', ?_, sameKey_iff h h', sameKey_iff_of_canonical h h', ?_⟩
  · intro heq
    obtain rfl := (eq_iff_of_ofBytes h h').2 heq
    exact sameKey_iff_halves.2 ⟨rfl, rfl⟩
  · intro hP hsame randomness
    obtain ⟨hciphertext, hahead⟩ := encapsulateWith_of_sameKey hP hsame randomness
    refine ⟨hciphertext, ek.hashedAhead P randomness, sharedKey_eq P ek randomness, ?_⟩
    rw [hahead]
    exact sharedKey_eq P ek' randomness

/-- two keys that are the same as X-Wing keys and not as keys of the scheme -/
theorem typed_equality_highBit :
    let P := Primitives.standard
    let bytes : List UInt8 := List.replicate 1184 0 ++ (Bytes.zeros 32).toList
    let bytes' : List UInt8 := List.replicate 1184 0 ++ highBit.toList
    ∃ ek ek', ofBytes P bytes = .ok ek ∧ ofBytes P bytes' = .ok ek' ∧ ek.sameKey ek' = true ∧ bytes ≠ bytes' ∧
      (Kem.PublicKey.xWing ek).same (.xWing ek') = false ∧
      ∀ randomness, (ek.encapsulateWith P randomness).1 = (ek'.encapsulateWith P randomness).1 := by
  intro P bytes bytes'
  obtain ⟨mlKem, hread⟩ := exists_ofBytes_zeros P
  obtain ⟨hsame, -, htyped, -, hciphertext⟩ := typed_equality (hread (Bytes.zeros 32)) (hread highBit)
  have hne : bytes ≠ bytes' := by decide +kernel
  have hkey : EncapsulationKey.sameKey ⟨mlKem, Bytes.zeros 32⟩ ⟨mlKem, highBit⟩ = true :=
    htyped.2 ⟨by decide +kernel, coordinate_highBit⟩
  refine ⟨_, _, hread _, hread _, hkey, hne, Bool.eq_false_iff.2 fun h => hne (hsame.1 h), fun randomness => ?_⟩
  exact (hciphertext Primitives.standard_readsCoordinates hkey randomness).1

/-- sameness as X-Wing keys does not make strings the same -/
theorem sameKey_not_injective :
    ¬∀ (bytes bytes' : List UInt8) (ek ek' : EncapsulationKey), ofBytes Primitives.standard bytes = .ok ek →
      ofBytes Primitives.standard bytes' = .ok ek' → (ek.sameKey ek' = true ↔ bytes = bytes') := by
  intro h
  obtain ⟨mlKem, hread⟩ := exists_ofBytes_zeros Primitives.standard
  have hkey : EncapsulationKey.sameKey ⟨mlKem, Bytes.zeros 32⟩ ⟨mlKem, highBit⟩ = true :=
    sameKey_iff_halves.2 ⟨rfl, coordinate_highBit⟩
  have heq := (h _ _ _ _ (hread (Bytes.zeros 32)) (hread highBit)).1 hkey
  have hne : Bytes.zeros 32 ≠ highBit := by decide +kernel
  exact hne (Vector.toList_inj.1 (List.append_cancel_left heq))

end EncapsulationKey

/-- **The keys of seeds.** Their points are canonical, so on them the two notions are one. -/
theorem DecapsulationKey.sameKey_ofSeed_iff (seed seed' : Bytes 32) :
    (ofSeed .standard seed).ek.sameKey (ofSeed .standard seed').ek = true ↔
      (ofSeed .standard seed).ek.toBytes = (ofSeed .standard seed').ek.toBytes := by
  have hread := ofBytes_ek_ofSeed .standard seed
  have hread' := ofBytes_ek_ofSeed .standard seed'
  have hcanonical : ∀ s, X25519.Canonical (ofSeed .standard s).ek.point := fun s => X25519.canonical_x25519 _ _
  rw [EncapsulationKey.sameKey_iff_of_canonical hread hread' (hcanonical seed) (hcanonical seed'), Vector.toList_inj]

end XWing

end PostQuantum
