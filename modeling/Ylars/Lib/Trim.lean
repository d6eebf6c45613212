import Mathlib.Data.List.DropRight

/-!
# Trimming and cutting a text

`trim p s` is `s` without the characters at its two ends that satisfy `p`.  `Trims p s t`
says what that means without a loop, and the two agree.  `idxOf?` finds the place where a
text is cut at the first occurrence of a character.
-/

universe u

namespace Ylars.Lib

variable {α : Type u} {p : α → Bool} {s t : List α}

/-- A text without the characters at its two ends that satisfy `p`. -/
def trim (p : α → Bool) (s : List α) : List α := (s.rdropWhile p).dropWhile p

/-- `t` is what is left of `s` when the characters at its two ends that satisfy `p` are
taken off. -/
structure Trims (p : α → Bool) (s t : List α) : Prop where
  /-- What is taken off satisfies `p`. -/
  split : ∃ l r, s = l ++ t ++ r ∧ (∀ c ∈ l, p c = true) ∧ ∀ c ∈ r, p c = true
  /-- The first character that is left does not satisfy `p`. -/
  head : ∀ c ∈ t.head?, p c = false
  /-- The last character that is left does not satisfy `p`. -/
  last : ∀ c ∈ t.getLast?, p c = false

theorem eq_false_of_mem_head?_dropWhile {c : α} (h : c ∈ (s.dropWhile p).head?) :
    p c = false := by
  have := List.head?_dropWhile_not p s
  rwa [Option.mem_def.mp h] at this

theorem eq_false_of_mem_getLast?_rdropWhile {c : α} (h : c ∈ (s.rdropWhile p).getLast?) :
    p c = false := by
  rw [List.rdropWhile, List.getLast?_reverse] at h
  exact eq_false_of_mem_head?_dropWhile h

theorem dropWhile_append_eq {l : List α} (hl : ∀ c ∈ l, p c = true)
    (ht : ∀ c ∈ t.head?, p c = false) : (l ++ t).dropWhile p = t := by
  rw [List.dropWhile_append_of_pos hl]
  cases t with
  | nil => rfl
  | cons c t => exact List.dropWhile_cons_of_neg (by simp [ht c rfl])

theorem rdropWhile_append_eq {r : List α} (hr : ∀ c ∈ r, p c = true)
    (ht : ∀ c ∈ t.getLast?, p c = false) : (t ++ r).rdropWhile p = t := by
  have hdrop : (r.reverse ++ t.reverse).dropWhile p = t.reverse :=
    dropWhile_append_eq (fun c hc ↦ hr c (List.mem_reverse.mp hc))
      fun c hc ↦ ht c (by rwa [List.head?_reverse] at hc)
  rw [List.rdropWhile, List.reverse_append, hdrop, List.reverse_reverse]

/-- `trim` trims. -/
theorem trims_trim (p : α → Bool) (s : List α) : Trims p s (trim p s) := by
  refine ⟨⟨(s.rdropWhile p).takeWhile p, s.rtakeWhile p, ?_, ?_, ?_⟩, ?_, ?_⟩
  · rw [trim, List.takeWhile_append_dropWhile, List.rdropWhile_append_rtakeWhile]
  · exact fun c ↦ List.mem_takeWhile_imp
  · exact fun c ↦ List.mem_rtakeWhile_imp
  · exact fun c ↦ eq_false_of_mem_head?_dropWhile
  · intro c hc
    obtain ⟨u, hu⟩ : trim p s <:+ s.rdropWhile p := List.dropWhile_suffix p
    have hne : trim p s ≠ [] := by
      intro e
      rw [e] at hc
      cases hc
    refine eq_false_of_mem_getLast?_rdropWhile (s := s) ?_
    rwa [← hu, List.getLast?_append_of_ne_nil u hne]

/-- What trimming leaves is what `trim` computes. -/
theorem Trims.trim_eq (h : Trims p s t) : trim p s = t := by
  obtain ⟨⟨l, r, rfl, hl, hr⟩, hhead, hlast⟩ := h
  by_cases ht : t = []
  · subst ht
    have hnil : (l ++ [] ++ r).rdropWhile p = [] := by
      refine List.rdropWhile_eq_nil_iff.mpr fun c hc ↦ ?_
      rw [List.append_nil, List.mem_append] at hc
      exact hc.elim (hl c) (hr c)
    rw [trim, hnil, List.dropWhile_nil]
  · have hlast' : ∀ c ∈ (l ++ t).getLast?, p c = false := by
      rwa [List.getLast?_append_of_ne_nil _ ht]
    rw [trim, rdropWhile_append_eq hr hlast', dropWhile_append_eq hl hhead]

theorem trims_iff : Trims p s t ↔ trim p s = t := by
  constructor
  · exact Trims.trim_eq
  · rintro rfl
    exact trims_trim p s

/-- A text is cut at the first occurrence of a character. -/
theorem idxOf?_eq_some_iff_cut [DecidableEq α] {a : α} {i : ℕ} :
    s.idxOf? a = some i ↔
      ∃ before after, s = before ++ a :: after ∧ a ∉ before ∧ before.length = i := by
  rw [List.idxOf?_eq_some_iff]
  constructor
  · rintro ⟨hi, rfl, hbefore⟩
    refine ⟨s.take i, s.drop (i + 1), ?_, ?_, ?_⟩
    · rw [List.getElem_cons_drop, List.take_append_drop]
    · intro hmem
      obtain ⟨j, hj, e⟩ := List.getElem_of_mem hmem
      rw [List.getElem_take] at e
      exact hbefore j (by rw [List.length_take] at hj; omega) e
    · rw [List.length_take]
      omega
  · rintro ⟨before, after, rfl, hnot, rfl⟩
    refine ⟨by simp, by simp, fun j hj e ↦ hnot ?_⟩
    rw [List.getElem_append_left hj] at e
    exact e ▸ List.getElem_mem hj

end Ylars.Lib
