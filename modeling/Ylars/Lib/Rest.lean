import Mathlib.Algebra.BigOperators.Group.Finset.Basic
import Ylars.Lib.Transition

/-!
# Systems that come to rest

When every step lowers a rank in a well-founded order, a system cannot go on for ever
(`not_forever`), in whatever order the steps are taken, and it can always be brought to a
state in which no step is left (`exists_atRest`).  What holds of these states holds in the end.
-/

universe u v w

namespace Ylars.Lib

namespace LTS

variable {σ : Type u} {α : Type v} {M : LTS σ α}

/-- No step is left. -/
def AtRest (M : LTS σ α) (s : σ) : Prop := ∀ a t, ¬M.step s a t

/-- `t` comes next after `s`. -/
def Next (M : LTS σ α) (t s : σ) : Prop := ∃ a, M.step s a t

/-- Where every step lowers a rank, as long as an invariant is kept, runs come to an end. -/
theorem acc_of_rank {ρ : Type w} {r : ρ → ρ → Prop} (hr : WellFounded r) (rank : σ → ρ)
    {I : σ → Prop} (hI : ∀ s a t, I s → M.step s a t → I t ∧ r (rank t) (rank s)) {s : σ}
    (hs : I s) : Acc M.Next s := by
  induction hk : rank s using hr.induction generalizing s with
  | h k ih =>
      subst hk
      refine .intro s fun t ⟨a, hst⟩ ↦ ?_
      obtain ⟨ht, hlt⟩ := hI s a t hs hst
      exact ih _ hlt ht rfl

/-- A system comes to an end where another does, when each of its steps is a step of the other
or lowers a rank of its own and stays where it is in the other. -/
theorem acc_of_map {τ β : Type*} {ρ : Type w} {N : LTS τ β} {r : ρ → ρ → Prop}
    (hr : WellFounded r) (f : σ → τ) (rank : σ → ρ) {I : σ → Prop}
    (hI : ∀ s a t, I s → M.step s a t →
      I t ∧ (N.Next (f t) (f s) ∨ f t = f s ∧ r (rank t) (rank s)))
    {s : σ} (hs : I s) (h : Acc N.Next (f s)) : Acc M.Next s := by
  generalize hx : f s = x at h
  induction h generalizing s with
  | intro x _ ih =>
      induction hk : rank s using hr.induction generalizing s with
      | h k ihk =>
          subst hk
          refine .intro s fun t ⟨a, hst⟩ ↦ ?_
          obtain ⟨ht, hnext | ⟨he, hlt⟩⟩ := hI s a t hs hst
          · exact ih (f t) (hx ▸ hnext) ht rfl
          · exact ihk _ hlt ht (he.trans hx) rfl

theorem not_forever {s : σ} (h : Acc M.Next s) :
    ¬∃ u : ℕ → σ, u 0 = s ∧ ∀ n, M.Next (u (n + 1)) (u n) := by
  induction h with
  | intro s _ ih =>
      rintro ⟨u, rfl, hu⟩
      exact ih (u 1) (hu 0) ⟨fun n ↦ u (n + 1), rfl, fun n ↦ hu (n + 1)⟩

/-- Some run ends at rest. -/
theorem exists_atRest {s : σ} (h : Acc M.Next s) : ∃ as t, M.Run s as t ∧ M.AtRest t := by
  induction h with
  | intro s _ ih =>
      by_cases hs : ∃ t, M.Next t s
      · obtain ⟨t, a, hst⟩ := hs
        obtain ⟨as, u, hrun, hu⟩ := ih t ⟨a, hst⟩
        exact ⟨a :: as, u, .cons hst hrun, hu⟩
      · exact ⟨[], s, .nil s, fun a t hst ↦ hs ⟨t, a, hst⟩⟩

end LTS

theorem sum_range_update {β : Type v} {n i : ℕ} (hi : i < n) (g : ℕ → β) (b : β) (f : β → ℕ) :
    (∑ j ∈ Finset.range n, f (Function.update g i b j)) + f (g i) =
      (∑ j ∈ Finset.range n, f (g j)) + f b := by
  have hmem : i ∈ Finset.range n := Finset.mem_range.mpr hi
  have hrest : ∀ j ∈ (Finset.range n).erase i, f (Function.update g i b j) = f (g j) :=
    fun j hj ↦ by rw [Function.update_of_ne (Finset.ne_of_mem_erase hj)]
  rw [← Finset.add_sum_erase _ _ hmem, ← Finset.add_sum_erase _ (fun j ↦ f (g j)) hmem,
    Finset.sum_congr rfl hrest, Function.update_self]
  omega

end Ylars.Lib
