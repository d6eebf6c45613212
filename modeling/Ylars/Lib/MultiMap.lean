import Mathlib.Data.List.Basic

/-!
# Maps to sets

A map from keys to sets, as programs keep it to group values under a key.  `lookup`
treats a key that is not filed as having the empty set; `insertAt` files a value and
`eraseAt` takes one out and forgets a key whose set has become empty.  Each operation is
described by what it does to `lookup`.
-/

universe u v

namespace Ylars.Lib

open Std (ExtTreeMap ExtTreeSet TransOrd LawfulEqOrd)

variable {κ : Type u} {ν : Type v} [Ord κ] [TransOrd κ] [Ord ν] [TransOrd ν]

/-- A map from keys to sets of values. -/
abbrev MultiMap (κ : Type u) (ν : Type v) [Ord κ] [Ord ν] := ExtTreeMap κ (ExtTreeSet ν)

namespace MultiMap

/-- The set filed under a key, or the empty set. -/
def lookup (m : MultiMap κ ν) (k : κ) : ExtTreeSet ν := m[k]?.getD ∅

/-- File a value under a key: `m[k].insert(v)`. -/
def insertAt (k : κ) (v : ν) (m : MultiMap κ ν) : MultiMap κ ν :=
  m.insert k ((lookup m k).insert v)

/-- Take a value out, and forget the key when its set is empty. -/
def eraseAt (k : κ) (v : ν) (m : MultiMap κ ν) : MultiMap κ ν :=
  match m[k]? with
  | none => m
  | some s => if (s.erase v).isEmpty then m.erase k else m.insert k (s.erase v)

/-- `m[k]` of a map that is not constant: a key that is missing is filed with the empty
set. -/
def subscript (k : κ) (m : MultiMap κ ν) : ExtTreeSet ν × MultiMap κ ν :=
  match m[k]? with
  | none => (∅, m.insert k ∅)
  | some s => (s, m)

/-- No key is filed with the empty set. -/
def Proper (m : MultiMap κ ν) : Prop := ∀ (k : κ) (s : ExtTreeSet ν), m[k]? = some s → s ≠ ∅

variable {m : MultiMap κ ν} {k k' : κ} {v w : ν}

omit [TransOrd ν] in
@[simp] theorem lookup_empty : lookup (∅ : MultiMap κ ν) k = ∅ := by
  simp [lookup]

omit [TransOrd ν] in
theorem subscript_of_getElem? {s : ExtTreeSet ν} (h : m[k]? = some s) : subscript k m = (s, m) := by
  rw [subscript, h]

theorem notMem_empty : v ∉ (∅ : ExtTreeSet ν) := ExtTreeSet.not_mem_empty

theorem notMem_lookup_empty : v ∉ lookup (∅ : MultiMap κ ν) k := by
  rw [lookup_empty]
  exact notMem_empty

theorem mem_of_mem_lookup (h : v ∈ lookup m k) : k ∈ m := by
  by_contra hno
  rw [lookup, ExtTreeMap.getElem?_eq_none hno, Option.getD_none] at h
  exact notMem_empty h

omit [TransOrd ν] in
theorem Proper.empty : (∅ : MultiMap κ ν).Proper := fun k s hs ↦ by simp at hs

/-- Filing a value adds it to the set of its key. -/
theorem mem_lookup_insertAt [LawfulEqOrd κ] [LawfulEqOrd ν] :
    w ∈ lookup (insertAt k v m) k' ↔ w ∈ lookup m k' ∨ (k' = k ∧ w = v) := by
  unfold insertAt
  rw [lookup, ExtTreeMap.getElem?_insert]
  by_cases e : k = k'
  · subst e
    rw [if_pos (Std.compare_eq_iff_eq.mpr rfl), Option.getD_some, ExtTreeSet.mem_insert,
      Std.compare_eq_iff_eq]
    constructor
    · rintro (h | h)
      · exact .inr ⟨rfl, h.symm⟩
      · exact .inl h
    · rintro (h | ⟨-, h⟩)
      · exact .inr h
      · exact .inl h.symm
  · rw [if_neg (mt Std.compare_eq_iff_eq.mp e)]
    constructor
    · exact .inl
    · rintro (h | ⟨h, -⟩)
      · exact h
      · exact absurd h.symm e

/-- Forgetting a key empties its set. -/
theorem mem_lookup_erase [LawfulEqOrd κ] :
    w ∈ lookup (m.erase k) k' ↔ k' ≠ k ∧ w ∈ lookup m k' := by
  rw [lookup, ExtTreeMap.getElem?_erase]
  by_cases e : k = k'
  · subst e
    rw [if_pos (Std.compare_eq_iff_eq.mpr rfl), Option.getD_none]
    constructor
    · exact fun h ↦ absurd h notMem_empty
    · exact fun h ↦ absurd rfl h.1
  · rw [if_neg (mt Std.compare_eq_iff_eq.mp e)]
    exact ⟨fun h ↦ ⟨Ne.symm e, h⟩, fun h ↦ h.2⟩

/-- Taking a value out removes it from the set of its key. -/
theorem mem_lookup_eraseAt [LawfulEqOrd κ] [LawfulEqOrd ν] :
    w ∈ lookup (eraseAt k v m) k' ↔ w ∈ lookup m k' ∧ ¬(k' = k ∧ w = v) := by
  unfold eraseAt
  cases hs : m[k]? with
  | none =>
      constructor
      · intro h
        refine ⟨h, ?_⟩
        rintro ⟨rfl, rfl⟩
        rw [lookup, hs] at h
        exact notMem_empty h
      · exact And.left
  | some s =>
      have hlookup : lookup m k = s := by rw [lookup, hs, Option.getD_some]
      have hmem : ∀ x, x ∈ s.erase v ↔ x ≠ v ∧ x ∈ s := fun x ↦ by
        rw [ExtTreeSet.mem_erase, ne_eq, Std.compare_eq_iff_eq, eq_comm]
      simp only
      split
      · rename_i hempty
        rw [mem_lookup_erase]
        constructor
        · exact fun ⟨hne, h⟩ ↦ ⟨h, fun h' ↦ hne h'.1⟩
        · rintro ⟨h, hne⟩
          refine ⟨fun e ↦ ?_, h⟩
          subst e
          rw [hlookup] at h
          have : w ∈ s.erase v := (hmem w).mpr ⟨fun e ↦ hne ⟨rfl, e⟩, h⟩
          rw [ExtTreeSet.isEmpty_iff.mp hempty] at this
          exact notMem_empty this
      · rw [lookup, ExtTreeMap.getElem?_insert]
        by_cases e : k = k'
        · subst e
          rw [if_pos (Std.compare_eq_iff_eq.mpr rfl), Option.getD_some, hmem, hlookup]
          constructor
          · exact fun ⟨hne, h⟩ ↦ ⟨h, fun h' ↦ hne h'.2⟩
          · exact fun ⟨h, hne⟩ ↦ ⟨fun e ↦ hne ⟨rfl, e⟩, h⟩
        · rw [if_neg (mt Std.compare_eq_iff_eq.mp e)]
          exact ⟨fun h ↦ ⟨h, fun h' ↦ e h'.1.symm⟩, And.left⟩

/-- Filing the values of a list adds each to the set of its key. -/
theorem mem_lookup_foldl_insertAt [LawfulEqOrd κ] [LawfulEqOrd ν] {α : Type*} (f : α → κ)
    (g : α → ν) (l : List α) (m : MultiMap κ ν) :
    w ∈ lookup (l.foldl (fun m a ↦ insertAt (f a) (g a) m) m) k ↔
      w ∈ lookup m k ∨ ∃ a ∈ l, f a = k ∧ g a = w := by
  induction l generalizing m with
  | nil => simp
  | cons a l ih =>
      rw [List.foldl_cons, ih, mem_lookup_insertAt, or_assoc]
      simp only [List.mem_cons, exists_eq_or_imp]
      rw [eq_comm (a := k), eq_comm (a := w)]

theorem mem_lookup_insertAll [LawfulEqOrd κ] [LawfulEqOrd ν] {α : Type*} (f : α → κ)
    (g : α → ν) (l : List α) :
    w ∈ lookup (l.foldl (fun m a ↦ insertAt (f a) (g a) m) (∅ : MultiMap κ ν)) k ↔
      ∃ a ∈ l, f a = k ∧ g a = w := by
  rw [mem_lookup_foldl_insertAt]
  exact or_iff_right notMem_lookup_empty

/-- Forgetting the keys of a list empties their sets. -/
theorem mem_lookup_foldl_erase [LawfulEqOrd κ] (ks : List κ) (m : MultiMap κ ν) :
    w ∈ lookup (ks.foldl (fun m k ↦ m.erase k) m) k' ↔ k' ∉ ks ∧ w ∈ lookup m k' := by
  induction ks generalizing m with
  | nil => simp
  | cons k ks ih => rw [List.foldl_cons, ih, mem_lookup_erase, List.mem_cons, not_or, and_left_comm,
      and_assoc]

/-- Filing a value leaves no empty set. -/
theorem Proper.insertAt (h : m.Proper) : (insertAt k v m).Proper := by
  intro k' s hs he
  unfold MultiMap.insertAt at hs
  rw [ExtTreeMap.getElem?_insert] at hs
  split at hs
  · obtain rfl := Option.some.inj hs
    have : v ∈ (lookup m k).insert v := ExtTreeSet.mem_insert_self
    rw [he] at this
    exact notMem_empty this
  · exact h k' s hs he

theorem Proper.foldl_insertAt {α : Type*} (f : α → κ) (g : α → ν) (l : List α) (h : m.Proper) :
    Proper (l.foldl (fun m a ↦ MultiMap.insertAt (f a) (g a) m) m) := by
  induction l generalizing m with
  | nil => exact h
  | cons a l ih => exact ih h.insertAt

/-- Taking a value out leaves no empty set. -/
theorem Proper.eraseAt (h : m.Proper) : (eraseAt k v m).Proper := by
  unfold MultiMap.eraseAt
  split
  · exact h
  · rename_i s hs
    split
    · intro k' s' hs'
      rw [ExtTreeMap.getElem?_erase] at hs'
      split at hs'
      · cases hs'
      · exact h k' s' hs'
    · rename_i hne
      intro k' s' hs' he
      rw [ExtTreeMap.getElem?_insert] at hs'
      split at hs'
      · obtain rfl := Option.some.inj hs'
        exact hne (ExtTreeSet.isEmpty_iff.mpr he)
      · exact h k' s' hs' he

/-- In a proper map a key that is filed has a value. -/
theorem Proper.exists_mem (h : m.Proper) (hk : k ∈ m) : ∃ v, v ∈ lookup m k := by
  obtain ⟨s, hs⟩ := Option.isSome_iff_exists.mp (ExtTreeMap.mem_iff_isSome_getElem?.mp hk)
  obtain ⟨v, hv⟩ : ∃ v, v ∈ s := by
    by_contra hno
    exact h k s hs (ExtTreeSet.eq_empty_iff_forall_not_mem.mpr fun v hv ↦ hno ⟨v, hv⟩)
  exact ⟨v, by rwa [lookup, hs, Option.getD_some]⟩

theorem Proper.exists_mem_lookup (h : m.Proper) (hm : m ≠ ∅) : ∃ k v, v ∈ lookup m k := by
  obtain ⟨k, hk⟩ : ∃ k, k ∈ m := by
    by_contra hno
    exact hm (ExtTreeMap.eq_empty_iff_forall_not_mem.mpr fun k hk ↦ hno ⟨k, hk⟩)
  exact ⟨k, h.exists_mem hk⟩

end MultiMap

end Ylars.Lib
