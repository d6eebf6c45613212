import Mathlib.Order.Basic

/-!
# Labelled transition systems

A transition system is a set of initial states and a labelled step relation.
`Run` is a finite sequence of steps with its labels, `Reachable` is what runs
from the initial states lead to, and `restrict` keeps the steps that meet a
condition, so that "in every run whose steps all meet the condition" is
reachability in the restricted system.

The rules everything below rests on are `Reachable.induction` (an invariant holds
of every reachable state) and `Run.invariant` (the same along one run).
-/

universe u v

namespace Ylars.Lib

/-- A labelled transition system: which states a run may start in, and which
steps it may take. -/
structure LTS (σ : Type u) (α : Type v) where
  /-- The initial states. -/
  init : σ → Prop
  /-- `step s a t`: the system goes from `s` to `t` by the action `a`. -/
  step : σ → α → σ → Prop

namespace LTS

variable {σ : Type u} {α : Type v}

/-- The system of a step function that may fail: a failing step leads nowhere. -/
def ofFn {ε : Type*} (init : σ → Prop) (f : σ → α → Except ε σ) : LTS σ α where
  init := init
  step s a t := f s a = .ok t

/-- The steps that meet a condition on the state they start in and their action. -/
def restrict (M : LTS σ α) (C : σ → α → Prop) : LTS σ α where
  init := M.init
  step s a t := C s a ∧ M.step s a t

variable {M : LTS σ α}

/-- `Run M s as t`: the actions `as`, taken in order, lead from `s` to `t`. -/
inductive Run (M : LTS σ α) : σ → List α → σ → Prop
  /-- The empty run. -/
  | nil (s : σ) : Run M s [] s
  /-- One more step at the front. -/
  | cons {s t u : σ} {a : α} {as : List α} :
      M.step s a t → Run M t as u → Run M s (a :: as) u

/-- What the runs from the initial states lead to. -/
inductive Reachable (M : LTS σ α) : σ → Prop
  /-- An initial state. -/
  | init {s : σ} : M.init s → Reachable M s
  /-- One more step. -/
  | step {s t : σ} {a : α} : Reachable M s → M.step s a t → Reachable M t

/-- An invariant that holds initially and that every step keeps holds of every
reachable state; the step may use that its source is reachable. -/
theorem Reachable.induction {I : σ → Prop} (h₀ : ∀ s, M.init s → I s)
    (hs : ∀ s a t, M.Reachable s → I s → M.step s a t → I t) {s : σ}
    (h : M.Reachable s) : I s := by
  induction h with
  | init hi => exact h₀ _ hi
  | step hr hst ih => exact hs _ _ _ hr ih hst

/-- A run from a reachable state ends in one. -/
theorem Reachable.run {s t : σ} {as : List α} (hr : M.Reachable s) (h : M.Run s as t) :
    M.Reachable t := by
  induction h with
  | nil _ => exact hr
  | cons hst _ ih => exact ih (hr.step hst)

theorem Run.append {s t u : σ} {as bs : List α} (h : M.Run s as t) (h' : M.Run t bs u) :
    M.Run s (as ++ bs) u := by
  induction h with
  | nil _ => exact h'
  | cons hst _ ih => exact .cons hst (ih h')

theorem Run.invariant {I : σ → Prop} (hs : ∀ s a t, I s → M.step s a t → I t)
    {s t : σ} {as : List α} (h : M.Run s as t) (hi : I s) : I t := by
  induction h with
  | nil _ => exact hi
  | cons hst _ ih => exact ih (hs _ _ _ hi hst)

/-- A reachable state of the restricted system is reachable in the whole one. -/
theorem Reachable.of_restrict {C : σ → α → Prop} {s : σ}
    (h : (M.restrict C).Reachable s) : M.Reachable s := by
  induction h with
  | init hi => exact .init hi
  | step _ hst ih => exact ih.step hst.2

theorem Reachable.restrict_mono {C D : σ → α → Prop} (hCD : ∀ s a, C s a → D s a) {s : σ}
    (h : (M.restrict C).Reachable s) : (M.restrict D).Reachable s := by
  induction h with
  | init hi => exact .init hi
  | step _ hst ih => exact ih.step ⟨hCD _ _ hst.1, hst.2⟩

/-- A run of the restricted system is one of the whole. -/
theorem Run.of_restrict {C : σ → α → Prop} {s t : σ} {as : List α}
    (h : (M.restrict C).Run s as t) : M.Run s as t := by
  induction h with
  | nil _ => exact .nil _
  | cons hst _ ih => exact .cons hst.2 ih

/-- A map takes what is reached to what is reached when it takes the initial states to initial
states and each step to a step or to none.  It need do so only as long as the states are
in `G`, which is not entered again. -/
theorem Reachable.map {τ β : Type*} {N : LTS τ β} {f : σ → τ} {G : σ → Prop}
    (h₀ : ∀ s, M.init s → N.init (f s))
    (hG : ∀ s a t, M.step s a t → G t → G s)
    (hs : ∀ s a t, M.Reachable s → G s → M.step s a t → G t →
      f t = f s ∨ ∃ b, N.step (f s) b (f t)) {s : σ} (h : M.Reachable s) :
    G s → N.Reachable (f s) := by
  induction h with
  | init hi => exact fun _ ↦ .init (h₀ _ hi)
  | step hr hst ih =>
      intro ht
      have hsrc := hG _ _ _ hst ht
      rcases hs _ _ _ hr hsrc hst ht with he | ⟨b, hb⟩
      · rw [he]
        exact ih hsrc
      · exact (ih hsrc).step hb

/-- A map takes a run to a run when, as long as an invariant is kept, it takes each step to a
step or to none. -/
theorem Run.map_of {τ β : Type*} {N : LTS τ β} {f : σ → τ} {I : σ → Prop}
    (hs : ∀ s a t, I s → M.step s a t → I t ∧ (f t = f s ∨ ∃ b, N.step (f s) b (f t)))
    {s t : σ} {as : List α} (h : M.Run s as t) (hi : I s) : I t ∧ ∃ bs, N.Run (f s) bs (f t) := by
  induction h with
  | nil s => exact ⟨hi, [], .nil _⟩
  | cons hst _ ih =>
      obtain ⟨hi', hstep⟩ := hs _ _ _ hi hst
      obtain ⟨ht, bs, hr⟩ := ih hi'
      rcases hstep with he | ⟨b, hb⟩
      · exact ⟨ht, bs, he ▸ hr⟩
      · exact ⟨ht, b :: bs, .cons hb hr⟩

theorem Run.map {τ β : Type*} {N : LTS τ β} {f : σ → τ}
    (hs : ∀ s a t, M.step s a t → f t = f s ∨ ∃ b, N.step (f s) b (f t)) {s t : σ} {as : List α}
    (h : M.Run s as t) : ∃ bs, N.Run (f s) bs (f t) :=
  (h.map_of (I := fun _ ↦ True) (fun s a t _ hst ↦ ⟨trivial, hs s a t hst⟩) trivial).2

/-! ## Systems that a function steps -/

/-- Taken in order by `f`, the actions meet a condition, each in the state it is taken in. -/
def Meets (C : σ → α → Prop) (f : σ → α → σ) : σ → List α → Prop
  | _, [] => True
  | s, a :: as => C s a ∧ Meets C f (f s a) as

/-- Where a function takes the steps that meet a condition, actions that meet it make a
run. -/
theorem Run.foldl {C : σ → α → Prop} {f : σ → α → σ}
    (hf : ∀ s a, C s a → M.step s a (f s a)) {s : σ} {as : List α} (hm : Meets C f s as) :
    M.Run s as (as.foldl f s) := by
  induction as generalizing s with
  | nil => exact .nil _
  | cons a as ih => exact .cons (hf s a hm.1) (ih hm.2)

/-- The steps that a function which may fail takes make a run. -/
theorem Run.ofFn {ε : Type*} {init : σ → Prop} {f : σ → α → Except ε σ} {s t : σ} {as : List α}
    (h : as.foldlM f s = .ok t) : (LTS.ofFn init f).Run s as t := by
  induction as generalizing s with
  | nil =>
      obtain rfl := Except.ok.inj h
      exact .nil _
  | cons a as ih =>
      rw [List.foldlM_cons] at h
      cases hf : f s a with
      | error e =>
          rw [hf] at h
          cases h
      | ok s' =>
          rw [hf] at h
          exact .cons hf (ih h)

/-- The steps that a function which is not always defined takes along a list make a run. -/
theorem Run.foldlM {f : σ → α → Option σ} (hf : ∀ s a t, f s a = some t → M.step s a t) {s t : σ}
    {as : List α} (h : as.foldlM f s = some t) : M.Run s as t := by
  induction as generalizing s with
  | nil =>
      obtain rfl := Option.some.inj h
      exact .nil _
  | cons a as ih =>
      rw [List.foldlM_cons] at h
      obtain ⟨s', hs, ht⟩ := Option.bind_eq_some_iff.mp h
      exact .cons (hf s a s' hs) (ih ht)

theorem Reachable.next {ε : Type*} {init : σ → Prop} {f : σ → α → Except ε σ} {s t : σ}
    (h : (LTS.ofFn init f).Reachable s) (a : α) (hst : f s a = .ok t) :
    (LTS.ofFn init f).Reachable t := h.step hst

theorem Reachable.next_restrict {init : σ → Prop} {f : σ → α → Option σ} {C : σ → α → Prop}
    {s t : σ} (h : (restrict ⟨init, fun s a t ↦ f s a = some t⟩ C).Reachable s) (a : α)
    (hc : C s a) (hst : f s a = some t) :
    (restrict ⟨init, fun s a t ↦ f s a = some t⟩ C).Reachable t := h.step ⟨hc, hst⟩

end LTS

end Ylars.Lib
