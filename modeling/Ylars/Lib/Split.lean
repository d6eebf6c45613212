import Mathlib.Data.List.Nodup
import Mathlib.Data.List.Perm.Basic

/-!
# Two lists that split a set by a flag

`Split S flag xs ys` says that the lists `xs` and `ys` hold every member of `S`
exactly once between them and nothing else: the unflagged members are in `xs` and
the flagged ones in `ys`.  The lemmas say how the relation moves along with the
operations a scheduler performs on its two queues: a new member enters, a member
leaves, a member changes its flag and its list, a list is rotated.
-/

universe u

namespace Ylars.Lib

variable {α : Type u} {S flag : α → Prop} {xs ys : List α}

/-- `xs` and `ys` split the members of `S` by `flag`, each of them once. -/
structure Split (S flag : α → Prop) (xs ys : List α) : Prop where
  /-- No unflagged member is listed twice. -/
  nodup_left : xs.Nodup
  /-- No flagged member is listed twice. -/
  nodup_right : ys.Nodup
  /-- The left list holds the unflagged members. -/
  mem_left : ∀ a, a ∈ xs ↔ S a ∧ ¬flag a
  /-- The right list holds the flagged members. -/
  mem_right : ∀ a, a ∈ ys ↔ S a ∧ flag a

namespace Split

theorem empty (flag : α → Prop) : Split (fun _ : α ↦ False) flag [] [] where
  nodup_left := List.nodup_nil
  nodup_right := List.nodup_nil
  mem_left := by simp
  mem_right := by simp

/-- Only the members and the flags of members matter. -/
theorem congr {S' flag' : α → Prop} (h : Split S flag xs ys) (hS : ∀ a, S' a ↔ S a)
    (hf : ∀ a, S a → (flag' a ↔ flag a)) : Split S' flag' xs ys where
  nodup_left := h.nodup_left
  nodup_right := h.nodup_right
  mem_left a := by
    rw [h.mem_left, hS]
    exact and_congr_right fun ha ↦ not_congr (hf a ha).symm
  mem_right a := by
    rw [h.mem_right, hS]
    exact and_congr_right fun ha ↦ (hf a ha).symm

theorem symm (h : Split S flag xs ys) : Split S (fun a ↦ ¬flag a) ys xs where
  nodup_left := h.nodup_right
  nodup_right := h.nodup_left
  mem_left a := by simp [h.mem_right]
  mem_right a := h.mem_left a

theorem perm {xs' ys' : List α} (h : Split S flag xs ys) (hx : xs'.Perm xs)
    (hy : ys'.Perm ys) : Split S flag xs' ys' where
  nodup_left := hx.nodup_iff.mpr h.nodup_left
  nodup_right := hy.nodup_iff.mpr h.nodup_right
  mem_left a := by rw [hx.mem_iff, h.mem_left]
  mem_right a := by rw [hy.mem_iff, h.mem_right]

theorem mem_append (h : Split S flag xs ys) {a : α} : a ∈ xs ++ ys ↔ S a := by
  rw [List.mem_append, h.mem_left, h.mem_right, ← and_or_left]
  exact and_iff_left (Classical.em _).symm

theorem nodup_append (h : Split S flag xs ys) : (xs ++ ys).Nodup := by
  refine List.nodup_append'.mpr ⟨h.nodup_left, h.nodup_right, fun a hx hy ↦ ?_⟩
  exact ((h.mem_left a).mp hx).2 ((h.mem_right a).mp hy).2

theorem count_append [DecidableEq α] (h : Split S flag xs ys) {a : α} (ha : S a) :
    (xs ++ ys).count a = 1 :=
  List.count_eq_one_of_mem h.nodup_append (h.mem_append.mpr ha)

/-- A new unflagged member enters at the end of the left list. -/
theorem push {a : α} (h : Split S flag xs ys) (ha : ¬S a) (hf : ¬flag a) :
    Split (fun b ↦ S b ∨ b = a) flag (xs ++ [a]) ys where
  nodup_left := by
    refine List.nodup_append'.mpr ⟨h.nodup_left, List.nodup_singleton a, ?_⟩
    rw [List.disjoint_singleton]
    exact fun hx ↦ ha ((h.mem_left a).mp hx).1
  nodup_right := h.nodup_right
  mem_left b := by
    rw [List.mem_append, List.mem_singleton, h.mem_left]
    constructor
    · rintro (⟨hb, hn⟩ | rfl)
      · exact ⟨.inl hb, hn⟩
      · exact ⟨.inr rfl, hf⟩
    · rintro ⟨hb | rfl, hn⟩
      · exact .inl ⟨hb, hn⟩
      · exact .inr rfl
  mem_right b := by
    rw [h.mem_right]
    constructor
    · exact fun ⟨hb, hn⟩ ↦ ⟨.inl hb, hn⟩
    · rintro ⟨hb | rfl, hn⟩
      · exact ⟨hb, hn⟩
      · exact absurd hn hf

section

variable [DecidableEq α]

theorem remove (h : Split S flag xs ys) (a : α) :
    Split (fun b ↦ S b ∧ b ≠ a) flag (xs.filter (· ≠ a)) (ys.filter (· ≠ a)) where
  nodup_left := h.nodup_left.filter _
  nodup_right := h.nodup_right.filter _
  mem_left b := by simp only [List.mem_filter, h.mem_left, decide_eq_true_eq]; tauto
  mem_right b := by simp only [List.mem_filter, h.mem_right, decide_eq_true_eq]; tauto

/-- Taking an unflagged member out of the right list does nothing. -/
theorem filter_right_of_not_flag (h : Split S flag xs ys) {a : α} (hf : ¬flag a) :
    ys.filter (· ≠ a) = ys := by
  refine List.filter_eq_self.mpr fun b hb ↦ decide_eq_true ?_
  rintro rfl
  exact hf ((h.mem_right b).mp hb).2

theorem remove_left (h : Split S flag xs ys) {a : α} (hf : ¬flag a) :
    Split (fun b ↦ S b ∧ b ≠ a) flag (xs.filter (· ≠ a)) ys := by
  simpa only [h.filter_right_of_not_flag hf] using h.remove a

theorem remove_right (h : Split S flag xs ys) {a : α} (hf : flag a) :
    Split (fun b ↦ S b ∧ b ≠ a) flag xs (ys.filter (· ≠ a)) :=
  ((h.symm.remove_left (not_not.mpr hf)).symm).congr (fun _ ↦ Iff.rfl)
    fun _ _ ↦ not_not.symm

/-- A member becomes flagged and moves to the end of the right list. -/
theorem move_right (h : Split S flag xs ys) (flag' : α → Prop) {a : α} (ha : S a)
    (hf : ¬flag a) (hf' : flag' a) (hrest : ∀ b, b ≠ a → (flag' b ↔ flag b)) :
    Split S flag' (xs.filter (· ≠ a)) (ys ++ [a]) := by
  have hout : Split (fun b ↦ S b ∧ b ≠ a) flag' (xs.filter (· ≠ a)) ys :=
    (h.remove_left hf).congr (fun _ ↦ Iff.rfl) fun b hb ↦ hrest b hb.2
  have hin := hout.symm.push (a := a) (fun hb ↦ hb.2 rfl) (not_not.mpr hf')
  refine hin.symm.congr (fun b ↦ ?_) fun _ _ ↦ not_not.symm
  constructor
  · intro hb
    by_cases e : b = a
    · exact .inr e
    · exact .inl ⟨hb, e⟩
  · rintro (⟨hb, -⟩ | rfl)
    · exact hb
    · exact ha

theorem move_left (h : Split S flag xs ys) (flag' : α → Prop) {a : α} (ha : S a)
    (hf : flag a) (hf' : ¬flag' a) (hrest : ∀ b, b ≠ a → (flag' b ↔ flag b)) :
    Split S flag' (xs ++ [a]) (ys.filter (· ≠ a)) :=
  ((h.symm.move_right (fun b ↦ ¬flag' b) ha (not_not.mpr hf) hf'
    fun b hb ↦ not_congr (hrest b hb)).symm).congr (fun _ ↦ Iff.rfl) fun _ _ ↦ not_not.symm

end

end Split

end Ylars.Lib
