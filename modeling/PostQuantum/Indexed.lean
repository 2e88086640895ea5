/-
Vectors as functions on their indices.

An entry is read with an index that carries its own bound (`Vector.get`). `get_ofFn` and the lemmas after it give the
entries of a table, of a mapped and a constant vector, of sums and differences and of two vectors joined, and `ext_get`
makes two vectors equal that have equal entries.
-/
namespace PostQuantum

variable {α : Type} {m n : Nat}

theorem ext_get {v w : Vector α n} (h : ∀ i, v.get i = w.get i) : v = w :=
  Vector.ext fun i hi => h ⟨i, hi⟩

theorem get_ofFn (f : Fin n → α) (i : Fin n) : (Vector.ofFn f).get i = f i :=
  Vector.getElem_ofFn i.isLt

theorem get_map {β : Type} (f : α → β) (v : Vector α n) (i : Fin n) : (v.map f).get i = f (v.get i) :=
  Vector.getElem_map f i.isLt

theorem get_replicate (a : α) (i : Fin n) : (Vector.replicate n a).get i = a :=
  Vector.getElem_replicate i.isLt

theorem get_add [Add α] (v w : Vector α n) (i : Fin n) : (v + w).get i = v.get i + w.get i :=
  Vector.getElem_add ..

theorem get_sub [Sub α] (v w : Vector α n) (i : Fin n) : (v - w).get i = v.get i - w.get i :=
  Vector.getElem_sub ..

theorem get_append_castAdd (v : Vector α m) (w : Vector α n) (i : Fin m) :
    (v ++ w).get (i.castAdd n) = v.get i :=
  Vector.getElem_append_left i.isLt

theorem get_append_natAdd (v : Vector α m) (w : Vector α n) (i : Fin n) :
    (v ++ w).get (i.natAdd m) = w.get i := by
  have h : (v ++ w)[m + i.val] = w[m + i.val - m] := Vector.getElem_append_right _ (Nat.le_add_right m i.val)
  exact h.trans (congrArg w.get (Fin.ext (Nat.add_sub_cancel_left m i.val)))

end PostQuantum
