/-
Registries after any history of registrations.

A builder keeps its entries in a list and, beside it, an index from their folded names to their positions. The two stay
in step whatever is registered (`Holds`), so what a builder does depends on the list alone.
- `foldCase_eq_iff`: two names fold to the same if they differ at most in the case of A to Z.
- `register_holds`, `register_refused`: one registration, for a new name and for one that is taken.
- `registerAll_holds`, `registerAll_refused`: a history, whose names all differ or whose first repeated name is known.
- `represents`: what a registry answers, for every string that it may be asked for.
- `registration`: all histories on the empty builder, for both kinds of scheme.
- `Kem.registry_represents`: the real schemes are never refused.
-/
import Mathlib.Tactic
import Mathlib.Data.String.Basic
import PostQuantum.Kem.Schemes
import PostQuantum.Signature.Scheme

namespace PostQuantum

/-! ## Names but for case -/

/-- a letter from A to Z and its small form -/
def CapitalOf (a b : Char) : Prop := 'A' ≤ a ∧ a ≤ 'Z' ∧ b.toNat = a.toNat + 32

/-- the same character, or the two forms of a letter from A to Z -/
def SameButCase (a b : Char) : Prop := a = b ∨ CapitalOf a b ∨ CapitalOf b a

/-- two names that differ at most in the case of the letters A to Z -/
def SameName (a b : String) : Prop := List.Forall₂ SameButCase a.toList b.toList

theorem toNat_toLower (a : Char) :
    a.toLower.toNat = if 'A' ≤ a ∧ a ≤ 'Z' then a.toNat + 32 else a.toNat := by
  have hrange : ('A' ≤ a ∧ a ≤ 'Z') ↔ (a.val ≥ 'A'.val ∧ a.val ≤ 'Z'.val) := Iff.rfl
  simp only [hrange]
  unfold Char.toLower
  split
  case isTrue h =>
    have hsmall : a.val.toNat ≤ 90 := h.2
    change (a.val + 32).toNat = a.val.toNat + 32
    rw [UInt32.toNat_add, Nat.mod_eq_of_lt]
    · rfl
    · change a.val.toNat + 32 < 2 ^ 32
      omega
  case isFalse => rfl

theorem toLower_eq_iff (a b : Char) : a.toLower = b.toLower ↔ SameButCase a b := by
  have hle : ∀ x y : Char, x ≤ y ↔ x.toNat ≤ y.toNat := fun x y => Iff.rfl
  have hA : 'A'.toNat = 65 := rfl
  have hZ : 'Z'.toNat = 90 := rfl
  unfold SameButCase CapitalOf
  rw [← Char.toNat_inj, ← Char.toNat_inj, toNat_toLower, toNat_toLower]
  simp only [hle, hA, hZ]
  split <;> split <;> omega

/-- **Folding forgets the case and nothing else.** -/
theorem foldCase_eq_iff {a b : String} : foldCase a = foldCase b ↔ SameName a b := by
  unfold foldCase SameName
  have hinjective : ∀ l m : List Char, String.ofList l = String.ofList m ↔ l = m := fun l m =>
    ⟨fun h => String.ofList_injective h, congrArg String.ofList⟩
  rw [hinjective, ← List.forall₂_eq_eq_eq, List.forall₂_map_left_iff, List.forall₂_map_right_iff]
  simp only [toLower_eq_iff]

namespace Registry

variable {α ε : Type} {name : α → String} {taken : String → ε}

/-! ## The index -/

section Index

variable {key : String} {position i : ℕ} {index : List (String × ℕ)}

/-- the order that the index is kept in, in which no key occurs twice -/
def Ascending (index : List (String × ℕ)) : Prop := index.Pairwise fun e f => e.1 < f.1

theorem insertKey_perm (key : String) (position : ℕ) (index : List (String × ℕ)) :
    (insertKey key position index).Perm ((key, position) :: index) := by
  induction index with
  | nil => exact .refl _
  | cons e index ih =>
    unfold insertKey
    split
    case isTrue => exact .refl _
    case isFalse => exact (ih.cons e).trans (.swap ..)

theorem insertKey_ascending (hindex : Ascending index) (hnew : ∀ e ∈ index, e.1 ≠ key) :
    Ascending (insertKey key position index) := by
  induction index with
  | nil => exact List.pairwise_singleton ..
  | cons e index ih =>
    obtain ⟨he, hrest⟩ := List.pairwise_cons.1 hindex
    have hnewRest : ∀ f ∈ index, f.1 ≠ key := fun f hf => hnew f (List.mem_cons_of_mem e hf)
    unfold insertKey
    split
    case isTrue hless =>
      refine List.pairwise_cons.2 ⟨fun f hf => ?_, hindex⟩
      rcases List.mem_cons.1 hf with rfl | hf
      · exact hless
      · exact hless.trans (he f hf)
    case isFalse hless =>
      have hgreater : e.1 < key := lt_of_le_of_ne (not_lt.1 hless) (hnew e List.mem_cons_self)
      refine List.pairwise_cons.2 ⟨fun f hf => ?_, ih hrest hnewRest⟩
      rcases List.mem_cons.1 ((insertKey_perm key position index).mem_iff.1 hf) with rfl | hf
      · exact hgreater
      · exact he f hf

theorem lookup_index_eq_some_iff (hindex : Ascending index) :
    index.lookup key = some i ↔ (key, i) ∈ index := by
  rw [List.lookup_eq_some_iff]
  constructor
  · rintro ⟨before, after, rfl, -⟩
    exact List.mem_append_right _ List.mem_cons_self
  · intro hmem
    obtain ⟨before, after, rfl⟩ := List.append_of_mem hmem
    have hbefore : ∀ e ∈ before, e.1 < key := fun e he =>
      (List.pairwise_append.1 hindex).2.2 e he (key, i) List.mem_cons_self
    exact ⟨before, after, rfl, fun e he => bne_iff_ne.2 (hbefore e he).ne'⟩

end Index

/-! ## Tables -/

/-- the folded names of entries -/
def keys (name : α → String) (xs : List α) : List String := xs.map fun x => foldCase (name x)

/-- a table of `xs`: its index has each folded name once, with the position of its entry -/
structure Holds (name : α → String) (t : Table α) (xs : List α) : Prop where
  entries : t.entries = xs
  index : t.index.Perm (keys name xs).zipIdx
  ascending : Ascending t.index

theorem holds_empty (name : α → String) : Holds name (Builder.empty : Builder α).table [] :=
  ⟨rfl, .refl _, List.Pairwise.nil⟩

section Tables

variable {t : Table α} {xs : List α} {key : String} {i : ℕ}

theorem mem_keys : key ∈ keys name xs ↔ ∃ x ∈ xs, foldCase (name x) = key := List.mem_map

theorem Holds.mem_index_iff (h : Holds name t xs) :
    (key, i) ∈ t.index ↔ ∃ x, xs[i]? = some x ∧ foldCase (name x) = key := by
  rw [h.index.mem_iff, List.mk_mem_zipIdx_iff_getElem?, keys, List.getElem?_map, Option.map_eq_some_iff]

theorem Holds.keys_perm (h : Holds name t xs) : (t.index.map Prod.fst).Perm (keys name xs) := by
  have hperm := h.index.map Prod.fst
  rwa [List.zipIdx_map_fst] at hperm

theorem Holds.keys_nodup (h : Holds name t xs) : (keys name xs).Nodup := by
  refine h.keys_perm.nodup_iff.1 (List.pairwise_map.2 ?_)
  exact h.ascending.imp fun hless => hless.ne

theorem Holds.lookup_index_eq_none_iff (h : Holds name t xs) : t.index.lookup key = none ↔ key ∉ keys name xs := by
  rw [List.lookup_eq_none_iff, ← h.keys_perm.mem_iff, List.mem_map]
  constructor
  · rintro hnone ⟨e, he, rfl⟩
    exact bne_iff_ne.1 (hnone e he) rfl
  · intro hkey e he
    exact bne_iff_ne.2 fun heq => hkey ⟨e, he, heq.symm⟩

/-- what an index finds is in the list -/
theorem Holds.lookup_index_eq_some_iff (h : Holds name t xs) :
    t.index.lookup key = some i ↔ ∃ x, xs[i]? = some x ∧ foldCase (name x) = key := by
  rw [Registry.lookup_index_eq_some_iff h.ascending, h.mem_index_iff]

end Tables

/-! ## Registration -/

section Registration

variable {b : Builder α} {xs done earlier later : List α} {x : α}

theorem keys_append (xs ys : List α) : keys name (xs ++ ys) = keys name xs ++ keys name ys := List.map_append

/-- a new name goes to the end of the list and into the index -/
theorem register_holds (taken : String → ε) (h : Holds name b.table xs) (hx : foldCase (name x) ∉ keys name xs) :
    ∃ b', b.register name taken x = .ok b' ∧ Holds name b'.table (xs ++ [x]) := by
  have hlookup := h.lookup_index_eq_none_iff.2 hx
  let extended : Table α :=
    ⟨b.table.entries ++ [x], insertKey (foldCase (name x)) b.table.entries.length b.table.index⟩
  have hregister : b.register name taken x = .ok ⟨extended⟩ := by
    simp only [Builder.register, hlookup, extended]
  refine ⟨⟨extended⟩, hregister, ?_, ?_, ?_⟩
  · exact congrArg (· ++ [x]) h.entries
  · have hlength : (keys name xs).length = xs.length := List.length_map ..
    have hzip : (keys name (xs ++ [x])).zipIdx = (keys name xs).zipIdx ++ [(foldCase (name x), xs.length)] := by
      rw [keys_append, List.zipIdx_append, hlength, Nat.zero_add]
      rfl
    simp only [extended, h.entries, hzip]
    exact (insertKey_perm ..).trans ((h.index.cons _).trans (List.perm_append_singleton ..).symm)
  · refine insertKey_ascending h.ascending fun e he heq => hx ?_
    rw [← heq]
    exact h.keys_perm.mem_iff.1 (List.mem_map_of_mem he)

/-- a name that is taken is refused, as it is spelled -/
theorem register_refused (h : Holds name b.table xs) (hx : foldCase (name x) ∈ keys name xs) :
    b.register name taken x = .error (taken (name x)) := by
  have hlookup : b.table.index.lookup (foldCase (name x)) ≠ none := fun hnone => h.lookup_index_eq_none_iff.1 hnone hx
  obtain ⟨i, hi⟩ := Option.ne_none_iff_exists'.1 hlookup
  simp only [Builder.register, hi]

theorem registerAll_append (b : Builder α) (xs ys : List α) :
    b.registerAll name taken (xs ++ ys) =
      (b.registerAll name taken xs).bind fun b' => b'.registerAll name taken ys := by
  induction xs generalizing b with
  | nil => rfl
  | cons x xs ih =>
    simp only [List.cons_append, Builder.registerAll]
    cases b.register name taken x with
    | ok b' => exact ih b'
    | error e => rfl

/-- **Different names are all registered.** The builder is then in step with all that was registered. -/
theorem registerAll_holds (taken : String → ε) (h : Holds name b.table done) (hxs : (keys name (done ++ xs)).Nodup) :
    ∃ b', b.registerAll name taken xs = .ok b' ∧ Holds name b'.table (done ++ xs) := by
  induction xs generalizing b done with
  | nil => exact ⟨b, rfl, by rwa [List.append_nil]⟩
  | cons x xs ih =>
    rw [List.append_cons] at hxs ⊢
    have hdone : (keys name done ++ [foldCase (name x)]).Nodup := by
      rw [keys_append, keys_append] at hxs
      exact (List.nodup_append.1 hxs).1
    have hx : foldCase (name x) ∉ keys name done := fun hmem =>
      (List.nodup_append.1 hdone).2.2 _ hmem _ (List.mem_singleton_self _) rfl
    obtain ⟨b₁, hregister, h₁⟩ := register_holds taken h hx
    obtain ⟨b₂, hall, h₂⟩ := ih h₁ hxs
    refine ⟨b₂, ?_, h₂⟩
    simp only [Builder.registerAll, hregister, hall]

/-- **The first repeated name ends a registration**, whatever comes after it. -/
theorem registerAll_refused (h : Holds name b.table done) (hearlier : (keys name (done ++ earlier)).Nodup)
    (hx : foldCase (name x) ∈ keys name (done ++ earlier)) :
    b.registerAll name taken (earlier ++ x :: later) = .error (taken (name x)) := by
  obtain ⟨b', hall, h'⟩ := registerAll_holds taken h hearlier
  rw [registerAll_append, hall]
  simp only [Except.bind, Builder.registerAll, register_refused h' hx]

/-- a list with a repeated name has a first one -/
theorem exists_first_repeated (hxs : ¬(keys name xs).Nodup) :
    ∃ earlier x later, xs = earlier ++ x :: later ∧ (keys name earlier).Nodup ∧
      foldCase (name x) ∈ keys name earlier := by
  induction xs using List.reverseRecOn with
  | nil => exact absurd List.nodup_nil hxs
  | append_singleton xs x ih =>
    by_cases hnodup : (keys name xs).Nodup
    · refine ⟨xs, x, [], rfl, hnodup, ?_⟩
      by_contra hx
      refine hxs ?_
      rw [keys_append]
      exact (List.perm_append_singleton ..).nodup_iff.2 (List.nodup_cons.2 ⟨hx, hnodup⟩)
    · obtain ⟨earlier, y, later, rfl, hrest⟩ := ih hnodup
      exact ⟨earlier, y, later ++ [x], by rw [List.append_assoc, List.cons_append], hrest⟩

end Registration

/-! ## Answers -/

/-- a registry of `xs`: it finds each entry under its name in any case, finds nothing else, and lists all in order -/
structure Represents (name : α → String) (r : Registry α) (xs : List α) : Prop where
  lookup_eq_some_iff : ∀ s x, r.lookup s = some x ↔ x ∈ xs ∧ SameName (name x) s
  lookup_eq_none_iff : ∀ s, r.lookup s = none ↔ ∀ x ∈ xs, ¬SameName (name x) s
  /-- no two entries are found under the same name -/
  unique : xs.Pairwise fun x y => ¬SameName (name x) (name y)
  /-- the index has all folded names with their positions, and no position out of range -/
  mem_index_iff : ∀ key i, (key, i) ∈ r.table.index ↔ ∃ x, xs[i]? = some x ∧ foldCase (name x) = key
  entries : r.entries = xs
  names : r.names name = xs.map name
  size : r.size = xs.length

section Answers

variable {r : Registry α} {xs : List α}

theorem lookup_eq_some_iff_getElem? (h : Holds name r.table xs) (s : String) (x : α) :
    r.lookup s = some x ↔ ∃ i : ℕ, xs[i]? = some x ∧ foldCase (name x) = foldCase s := by
  unfold lookup
  cases hlookup : r.table.index.lookup (foldCase s) with
  | none =>
    have hnone := mem_keys.not.1 (h.lookup_index_eq_none_iff.1 hlookup)
    refine ⟨nofun, ?_⟩
    rintro ⟨i, hi, hx⟩
    exact absurd ⟨x, List.mem_of_getElem? hi, hx⟩ hnone
  | some i =>
    obtain ⟨y, hy, hkey⟩ := h.lookup_index_eq_some_iff.1 hlookup
    simp only [h.entries, hy, Option.some.injEq]
    constructor
    · rintro rfl
      exact ⟨i, hy, hkey⟩
    · rintro ⟨j, hj, hx⟩
      have hindex := h.lookup_index_eq_some_iff.2 ⟨x, hj, hx⟩
      have hij : i = j := Option.some.inj (hlookup.symm.trans hindex)
      subst hij
      exact Option.some.inj (hy.symm.trans hj)

/-- **A table in step with a list answers for the list.** -/
theorem represents (h : Holds name r.table xs) : Represents name r xs where
  lookup_eq_some_iff s x := by
    rw [lookup_eq_some_iff_getElem? h, List.mem_iff_getElem?, foldCase_eq_iff, exists_and_right]
  lookup_eq_none_iff s := by
    rw [Option.eq_none_iff_forall_ne_some]
    simp only [ne_eq, lookup_eq_some_iff_getElem? h, foldCase_eq_iff, exists_and_right, ← List.mem_iff_getElem?,
      not_and]
  unique := by
    have hnodup := List.pairwise_map.1 h.keys_nodup
    exact hnodup.imp fun hne hsame => hne (foldCase_eq_iff.2 hsame)
  mem_index_iff _ _ := h.mem_index_iff
  entries := h.entries
  names := congrArg (List.map name) h.entries
  size := congrArg List.length h.entries

end Answers

/-! ## Histories on the empty builder -/

/-- what becomes of `xs` when they are registered in order on an empty builder -/
structure Registers (name : α → String) (taken : String → ε) (xs : List α) : Prop where
  /-- all are registered if no two names are the same but for case -/
  ok_iff : (∃ b, Builder.empty.registerAll name taken xs = .ok b) ↔ (keys name xs).Nodup
  /-- the first whose name is one of an earlier one is reported -/
  error_iff : ∀ e, Builder.empty.registerAll name taken xs = .error e ↔
    ∃ earlier x later, xs = earlier ++ x :: later ∧ (keys name earlier).Nodup ∧
      foldCase (name x) ∈ keys name earlier ∧ e = taken (name x)
  represents : ∀ b, Builder.empty.registerAll name taken xs = .ok b → Represents name b.build xs

theorem registers (name : α → String) (taken : String → ε) (xs : List α) : Registers name taken xs := by
  have hempty := holds_empty name
  have hrefused : ∀ {earlier x later}, xs = earlier ++ x :: later → (keys name earlier).Nodup →
      foldCase (name x) ∈ keys name earlier → Builder.empty.registerAll name taken xs = .error (taken (name x)) := by
    rintro earlier x later rfl hearlier hx
    exact registerAll_refused hempty hearlier hx
  -- a history is of one of two kinds, and the results of the two differ
  by_cases hxs : (keys name xs).Nodup
  case pos =>
    obtain ⟨b, hall, h⟩ := registerAll_holds taken hempty hxs
    rw [List.nil_append] at h
    refine ⟨iff_of_true ⟨b, hall⟩ hxs, fun e => ?_, fun b' hb' => ?_⟩
    · refine iff_of_false (by simp [hall]) ?_
      rintro ⟨earlier, x, later, hsplit, hearlier, hx, -⟩
      exact nomatch hall.symm.trans (hrefused hsplit hearlier hx)
    · cases hall.symm.trans hb'
      exact Registry.represents (r := b.build) h
  case neg =>
    obtain ⟨earlier, x, later, hsplit, hearlier, hx⟩ := exists_first_repeated hxs
    have hall := hrefused hsplit hearlier hx
    refine ⟨iff_of_false (by simp [hall]) hxs, fun e => ?_, fun b hb => nomatch hall.symm.trans hb⟩
    constructor
    · intro he
      cases hall.symm.trans he
      exact ⟨earlier, x, later, hsplit, hearlier, hx, rfl⟩
    · rintro ⟨earlier', x', later', hsplit', hearlier', hx', rfl⟩
      exact hrefused hsplit' hearlier' hx'

-- only the letters A to Z have a small form
example : Builder.empty.registerAll id id ["X-Wing", "Å", "å", "x-wing", "X-WING"] = .error "x-wing" := rfl

end Registry

/-! ## Registries of schemes -/

open Registry

/-- **Registries.** Any list of schemes, of either kind, is registered if the names differ by more than case; otherwise
the first scheme with the name of an earlier one is reported. A registry finds each of its schemes under its name in
any case, finds nothing under any other string, has no position out of range and lists the schemes in the order that
they came in. -/
theorem registration (PK SK : Type) :
    (∀ schemes : List (Kem.Scheme PK SK), Registers Kem.Scheme.name Kem.Error.duplicateScheme schemes) ∧
    ∀ schemes : List (Signature.Scheme PK SK),
      Registers Signature.Scheme.name Signature.Error.duplicateScheme schemes :=
  ⟨registers _ _, registers _ _⟩

namespace Kem

theorem keys_shipped_nodup (P : XWing.Primitives) : (keys Scheme.name (shipped P)).Nodup := by
  change (["ML-KEM-512", "ML-KEM-768", "ML-KEM-1024", "X-Wing"].map foldCase).Nodup
  decide

/-- **The real schemes are never refused.** -/
theorem registry_represents (P : XWing.Primitives) : Represents Scheme.name (registry P) (shipped P) := by
  have hregisters := registers Scheme.name Error.duplicateScheme (shipped P)
  unfold registry
  split
  case h_1 b hb => exact hregisters.represents b hb
  case h_2 e he =>
    obtain ⟨b, hb⟩ := hregisters.ok_iff.2 (keys_shipped_nodup P)
    exact nomatch hb.symm.trans he

theorem byName_eq_some_iff (P : XWing.Primitives) (s : String) (scheme : AnyScheme) :
    byName P s = some scheme ↔ scheme ∈ shipped P ∧ SameName scheme.name s :=
  (registry_represents P).lookup_eq_some_iff s scheme

end Kem

end PostQuantum
