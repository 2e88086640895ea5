/-
Values stored by name. A name stored again takes the new value (`get?_put`).
-/
namespace PostQuantum.Session

/-- values by name, the latest first -/
structure Names (α : Type) where
  entries : List (String × α) := []

namespace Names

variable {α : Type}

def put (names : Names α) (name : String) (value : α) : Names α := ⟨(name, value) :: names.entries⟩

def get? (names : Names α) (name : String) : Option α := names.entries.lookup name

@[simp] theorem get?_put (names : Names α) (name other : String) (value : α) :
    (names.put name value).get? other = if other = name then some value else names.get? other := by
  unfold put get?
  rw [List.lookup_cons]
  by_cases h : other = name
  · rw [if_pos h, beq_iff_eq.2 h]
  · rw [if_neg h, beq_eq_false_iff_ne.2 h]

end Names

end PostQuantum.Session
