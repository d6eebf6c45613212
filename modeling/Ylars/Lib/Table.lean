import Mathlib.Data.List.Basic
import Mathlib.Data.List.Perm.Subperm

/-!
# Tables and sets of keys

What a lookup finds after an insertion or a removal, for keys whose order tells them
apart, with the keys compared by equality.
-/

universe u v

namespace Ylars.Lib.Table

open Std (ExtTreeMap ExtTreeSet TransOrd LawfulEqOrd)

variable {κ : Type u} {ν : Type v} [Ord κ] [TransOrd κ] [LawfulEqOrd κ] [DecidableEq κ]
  {m : ExtTreeMap κ ν} {s : ExtTreeSet κ} {k k' : κ} {v : ν}

theorem getElem?_insert : (m.insert k v)[k']? = if k' = k then some v else m[k']? := by
  rw [ExtTreeMap.getElem?_insert]
  by_cases e : k' = k
  · subst e
    rw [if_pos rfl, if_pos (Std.compare_eq_iff_eq.mpr rfl)]
  · rw [if_neg e, if_neg (mt Std.compare_eq_iff_eq.mp (Ne.symm e))]

theorem getElem?_erase : (m.erase k)[k']? = if k' = k then none else m[k']? := by
  rw [ExtTreeMap.getElem?_erase]
  by_cases e : k' = k
  · subst e
    rw [if_pos rfl, if_pos (Std.compare_eq_iff_eq.mpr rfl)]
  · rw [if_neg e, if_neg (mt Std.compare_eq_iff_eq.mp (Ne.symm e))]

omit [LawfulEqOrd κ] [DecidableEq κ] in
theorem mem_iff_getElem? : k ∈ m ↔ ∃ v, m[k]? = some v := by
  rw [ExtTreeMap.mem_iff_isSome_getElem?, Option.isSome_iff_exists]

omit [DecidableEq κ] in
/-- A table has no more keys than there are elements that give them. -/
theorem size_le_of_keys {α : Type*} {l : List α} {f : α → κ} (h : ∀ k ∈ m, ∃ a ∈ l, f a = k) :
    m.size ≤ l.length := by
  rw [← ExtTreeMap.length_keys, ← List.length_map f]
  refine (ExtTreeMap.nodup_keys.subperm fun k hk ↦ ?_).length_le
  exact List.mem_map.mpr (h k (ExtTreeMap.mem_keys.mp hk))

omit [DecidableEq κ] in
theorem length_le_size {α : Type*} {l : List α} {f : α → κ} (hnodup : (l.map f).Nodup)
    (h : ∀ a ∈ l, f a ∈ m) : l.length ≤ m.size := by
  rw [← ExtTreeMap.length_keys, ← List.length_map f]
  refine (hnodup.subperm fun k hk ↦ ?_).length_le
  obtain ⟨a, ha, rfl⟩ := List.mem_map.mp hk
  exact ExtTreeMap.mem_keys.mpr (h a ha)

omit [DecidableEq κ] in
theorem mem_insert : k' ∈ s.insert k ↔ k' = k ∨ k' ∈ s := by
  rw [ExtTreeSet.mem_insert, Std.compare_eq_iff_eq, eq_comm]

omit [DecidableEq κ] in
theorem mem_erase : k' ∈ s.erase k ↔ k' ≠ k ∧ k' ∈ s := by
  rw [ExtTreeSet.mem_erase, ne_eq, Std.compare_eq_iff_eq, eq_comm]

end Ylars.Lib.Table
