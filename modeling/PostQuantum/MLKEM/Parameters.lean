/-
The three parameter sets of ML-KEM, and the lengths that follow from them.
-/
namespace PostQuantum.MLKEM

inductive ParameterSet
  | mlKem512
  | mlKem768
  | mlKem1024
  deriving DecidableEq, Repr

namespace ParameterSet

/-- the rank of the module -/
def k : ParameterSet → Nat
  | mlKem512 => 2
  | mlKem768 => 3
  | mlKem1024 => 4

/-- the noise of keys and of the vector that encrypts -/
def eta1 : ParameterSet → Nat
  | mlKem512 => 3
  | mlKem768 => 2
  | mlKem1024 => 2

/-- the noise added to ciphertexts -/
def eta2 (_ : ParameterSet) : Nat := 2

/-- bits kept of a coefficient of the vector part of a ciphertext -/
def du : ParameterSet → Nat
  | mlKem512 => 10
  | mlKem768 => 10
  | mlKem1024 => 11

/-- bits kept of a coefficient of the scalar part of a ciphertext -/
def dv : ParameterSet → Nat
  | mlKem512 => 4
  | mlKem768 => 4
  | mlKem1024 => 5

def name : ParameterSet → String
  | mlKem512 => "ML-KEM-512"
  | mlKem768 => "ML-KEM-768"
  | mlKem1024 => "ML-KEM-1024"

def text : ParameterSet → String
  | mlKem512 => "MlKem512Params"
  | mlKem768 => "MlKem768Params"
  | mlKem1024 => "MlKem1024Params"

def all : List ParameterSet := [mlKem512, mlKem768, mlKem1024]

/-- a vector with twelve bits for each coefficient -/
abbrev vectorSize (p : ParameterSet) : Nat := p.k * (32 * 12)

abbrev decryptionKeySize (p : ParameterSet) : Nat := p.vectorSize

abbrev encapsulationKeySize (p : ParameterSet) : Nat := p.vectorSize + 32

abbrev decapsulationKeySize (p : ParameterSet) : Nat := p.decryptionKeySize + (p.encapsulationKeySize + (32 + 32))

/-- the vector part of a ciphertext -/
abbrev uSize (p : ParameterSet) : Nat := p.k * (32 * p.du)

/-- the scalar part of a ciphertext -/
abbrev vSize (p : ParameterSet) : Nat := 32 * p.dv

abbrev ciphertextSize (p : ParameterSet) : Nat := p.uSize + p.vSize

theorem mem_all (p : ParameterSet) : p ∈ all := by
  cases p <;> decide

end ParameterSet

end PostQuantum.MLKEM
