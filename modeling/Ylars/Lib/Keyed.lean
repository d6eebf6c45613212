import Mathlib.Logic.Function.Basic

/-!
# Stores that act key by key

A store has values under keys, and an operation on it concerns one key: it looks at the
value there, if there is one, and changes no other.  `Cell` is the behaviour of one such
value on its own, and `Store.Local` says that the store has it under every key.

Two things follow, whatever the operations are.  What a run does to a key, and what it
gives there, is what the operations on this key do alone (`Store.Local.run_cell`).  And two
stores with the same cells cannot be told apart (`Store.Local.run_sim`), for example one that
is split into parts, each with the keys it is home to, and one that is not
(`Store.Local.split`).
-/

universe u

namespace Ylars.Lib

variable {σ κ ν ε α β ι : Type u}

/-- The results of some operations, taken in order, and the state they lead to. -/
def runAll (f : α → σ → Except ε (β × σ)) : List α → σ → Except ε (List β × σ)
  | [], s => .ok ([], s)
  | a :: as, s => do
      let (b, s) ← f a s
      let (bs, s) ← runAll f as s
      return (b :: bs, s)

section Runs

variable {f : α → σ → Except ε (β × σ)} {a : α} {as : List α} {b : β} {bs : List β} {s t : σ}

/-- A run succeeds when its first operation does and the rest. -/
theorem runAll_cons_eq_ok : runAll f (a :: as) s = .ok (bs, t) ↔
    ∃ b s' bs', f a s = .ok (b, s') ∧ runAll f as s' = .ok (bs', t) ∧ bs = b :: bs' := by
  rw [runAll]
  cases h : f a s with
  | error e =>
      constructor
      · exact fun h ↦ by cases h
      · rintro ⟨b, s', bs', h', -⟩
        cases h'
  | ok p =>
      obtain ⟨b, s'⟩ := p
      cases h' : runAll f as s' with
      | error e =>
          constructor
          · intro hr
            simp only [bind, Except.bind, h'] at hr
            cases hr
          · rintro ⟨b₁, s₁, bs₁, h₁, h₂, -⟩
            obtain ⟨-, rfl⟩ := Prod.mk.inj (Except.ok.inj h₁)
            rw [h'] at h₂
            cases h₂
      | ok q =>
          obtain ⟨bs', t'⟩ := q
          simp only [bind, Except.bind, h', pure, Except.pure]
          constructor
          · intro hr
            obtain ⟨rfl, rfl⟩ := Prod.mk.inj (Except.ok.inj hr)
            exact ⟨b, s', bs', rfl, h', rfl⟩
          · rintro ⟨b₁, s₁, bs₁, h₁, h₂, rfl⟩
            obtain ⟨rfl, rfl⟩ := Prod.mk.inj (Except.ok.inj h₁)
            rw [h'] at h₂
            obtain ⟨rfl, rfl⟩ := Prod.mk.inj (Except.ok.inj h₂)
            rfl

theorem runAll_concat (h : runAll f as s = .ok (bs, t)) {u : σ} (ha : f a t = .ok (b, u)) :
    runAll f (as ++ [a]) s = .ok (bs ++ [b], u) := by
  induction as generalizing s bs with
  | nil =>
      obtain ⟨rfl, rfl⟩ := Prod.mk.inj (Except.ok.inj h)
      exact runAll_cons_eq_ok.mpr ⟨b, u, [], ha, rfl, rfl⟩
  | cons a' as ih =>
      obtain ⟨b', s', bs', h', hr, rfl⟩ := runAll_cons_eq_ok.mp h
      exact runAll_cons_eq_ok.mpr ⟨b', s', bs' ++ [b], h', ih hr, rfl⟩

/-- Every operation has a result. -/
theorem length_of_runAll (h : runAll f as s = .ok (bs, t)) : bs.length = as.length := by
  induction as generalizing s bs with
  | nil =>
      obtain ⟨rfl, -⟩ := Prod.mk.inj (Except.ok.inj h)
      rfl
  | cons a as ih =>
      obtain ⟨b, s', bs', -, h', rfl⟩ := runAll_cons_eq_ok.mp h
      rw [List.length_cons, List.length_cons, ih h']

/-- Operations that succeed and keep a property make a run that does. -/
theorem exists_runAll {I : σ → Prop} (hf : ∀ a s, I s → ∃ b t, f a s = .ok (b, t) ∧ I t)
    (as : List α) (hs : I s) : ∃ bs t, runAll f as s = .ok (bs, t) ∧ I t := by
  induction as generalizing s with
  | nil => exact ⟨[], s, rfl, hs⟩
  | cons a as ih =>
      obtain ⟨b, s', h, hs'⟩ := hf a s hs
      obtain ⟨bs, t, hr, ht⟩ := ih hs'
      exact ⟨b :: bs, t, runAll_cons_eq_ok.mpr ⟨b, s', bs, h, hr, rfl⟩, ht⟩

end Runs

/-- The behaviour of the value under one key: which key an operation is for, what it gives,
and the value it leaves, if any. -/
structure Cell (κ ν ε α β : Type u) where
  key : α → κ
  act : α → Option ν → Except ε (β × Option ν)

/-- A store of values under keys, and its operations. -/
structure Store (σ κ ν ε α β : Type u) where
  get : σ → κ → Option ν
  step : α → σ → Except ε (β × σ)

/-- The results of the operations on one key. -/
def Cell.results [DecidableEq κ] (C : Cell κ ν ε α β) (k : κ) (as : List α) (bs : List β) :
    List β :=
  ((as.zip bs).filter fun p ↦ C.key p.1 = k).map Prod.snd

namespace Store

variable [DecidableEq κ]

/-- The store does under the key of an operation what the cell does, and nothing else. -/
def Local (S : Store σ κ ν ε α β) (C : Cell κ ν ε α β) : Prop :=
  ∀ a s, (S.step a s).map (Prod.map id S.get) =
    (C.act a (S.get s (C.key a))).map (Prod.map id (Function.update (S.get s) (C.key a)))

/-- The store split into parts: an operation goes to the part that its key is at home in. -/
def split [DecidableEq ι] (S : Store σ κ ν ε α β) (key : α → κ) (home : κ → ι) :
    Store (ι → σ) κ ν ε α β where
  get F k := S.get (F (home k)) k
  step a F := (S.step a (F (home (key a)))).map (Prod.map id (Function.update F (home (key a))))

namespace Local

variable {S : Store σ κ ν ε α β} {C : Cell κ ν ε α β} {a : α} {as : List α} {b : β}
  {bs : List β} {s t : σ}

theorem act_eq (h : S.Local C) (hst : S.step a s = .ok (b, t)) :
    ∃ v, C.act a (S.get s (C.key a)) = .ok (b, v) ∧
      S.get t = Function.update (S.get s) (C.key a) v := by
  have ha := h a s
  rw [hst] at ha
  cases hc : C.act a (S.get s (C.key a)) with
  | error e =>
      rw [hc] at ha
      cases ha
  | ok p =>
      obtain ⟨b', v⟩ := p
      rw [hc] at ha
      obtain ⟨hb, hget⟩ := Prod.mk.inj (Except.ok.inj ha)
      obtain rfl : b = b' := hb
      exact ⟨v, rfl, hget⟩

/-- **Keys do not interfere.**  What a run gives and leaves under a key is what the
operations on this key alone give and leave there. -/
theorem run_cell (h : S.Local C) (hr : runAll S.step as s = .ok (bs, t)) (k : κ) :
    runAll C.act (as.filter fun a ↦ C.key a = k) (S.get s k) =
      .ok (C.results k as bs, S.get t k) := by
  induction as generalizing s bs with
  | nil =>
      obtain ⟨rfl, rfl⟩ := Prod.mk.inj (Except.ok.inj hr)
      rfl
  | cons a as ih =>
      obtain ⟨b, s', bs', hst, hr', rfl⟩ := runAll_cons_eq_ok.mp hr
      obtain ⟨v, hact, hget⟩ := h.act_eq hst
      have hrest := ih hr'
      by_cases e : C.key a = k
      · rw [hget, ← e, Function.update_self] at hrest
        rw [List.filter_cons_of_pos (by simpa using e), ← e]
        refine runAll_cons_eq_ok.mpr ⟨b, v, _, hact, hrest, ?_⟩
        rw [Cell.results, List.zip_cons_cons, List.filter_cons_of_pos (by simp), List.map_cons,
          Cell.results]
      · rw [hget, Function.update_of_ne (Ne.symm e)] at hrest
        rw [List.filter_cons_of_neg (by simpa using e), hrest, Cell.results, Cell.results,
          List.zip_cons_cons, List.filter_cons_of_neg (by simpa using e)]

/-- What the cell does, the store does. -/
theorem exists_step (h : S.Local C) {v : Option ν}
    (hact : C.act a (S.get s (C.key a)) = .ok (b, v)) :
    ∃ t, S.step a s = .ok (b, t) ∧ S.get t = Function.update (S.get s) (C.key a) v := by
  have ha := h a s
  rw [hact] at ha
  cases hst : S.step a s with
  | error e =>
      rw [hst] at ha
      cases ha
  | ok p =>
      rw [hst] at ha
      obtain ⟨hb, hget⟩ := Prod.mk.inj (Except.ok.inj ha)
      obtain rfl : p.1 = b := hb
      exact ⟨p.2, rfl, hget⟩

/-- **Stores with the same cells cannot be told apart.**  Where they have the same values,
operations that succeed on one give the same results on the other and leave the same
values. -/
theorem run_sim {σ' : Type u} {S' : Store σ' κ ν ε α β} (h : S.Local C) (h' : S'.Local C)
    {s' : σ'} (hs : S.get s = S'.get s') (hr : runAll S.step as s = .ok (bs, t)) :
    ∃ t', runAll S'.step as s' = .ok (bs, t') ∧ S.get t = S'.get t' := by
  induction as generalizing s s' bs with
  | nil =>
      obtain ⟨rfl, rfl⟩ := Prod.mk.inj (Except.ok.inj hr)
      exact ⟨s', rfl, hs⟩
  | cons a as ih =>
      obtain ⟨b, s₁, bs', hst, hr', rfl⟩ := runAll_cons_eq_ok.mp hr
      obtain ⟨v, hact, hget⟩ := h.act_eq hst
      rw [hs] at hact
      obtain ⟨s₁', hst', hget'⟩ := h'.exists_step hact
      obtain ⟨t', hr'', ht⟩ := ih (by rw [hget, hget', hs]) hr'
      exact ⟨t', runAll_cons_eq_ok.mpr ⟨b, s₁', bs', hst', hr'', rfl⟩, ht⟩

/-- A store that is split has the same cells. -/
theorem split [DecidableEq ι] (h : S.Local C) (home : κ → ι) : (S.split C.key home).Local C := by
  intro a F
  have ha := h a (F (home (C.key a)))
  show (((S.step a (F (home (C.key a)))).map
      (Prod.map id (Function.update F (home (C.key a))))).map _) = _
  cases hst : S.step a (F (home (C.key a))) with
  | error e =>
      rw [hst] at ha
      cases hc : C.act a (S.get (F (home (C.key a))) (C.key a)) with
      | error e' =>
          rw [hc] at ha
          obtain rfl := Except.error.inj ha
          simp only [Store.split, hc]
          rfl
      | ok p =>
          rw [hc] at ha
          cases ha
  | ok p =>
      obtain ⟨b, t⟩ := p
      obtain ⟨v, hact, hget⟩ := h.act_eq hst
      simp only [Store.split, hact]
      refine congrArg Except.ok (Prod.ext rfl (funext fun k ↦ ?_))
      show S.get (Function.update F (home (C.key a)) t (home k)) k =
        Function.update (fun k ↦ S.get (F (home k)) k) (C.key a) v k
      by_cases hk : k = C.key a
      · subst hk
        rw [Function.update_self, Function.update_self, hget, Function.update_self]
      · rw [Function.update_of_ne hk]
        by_cases hi : home k = home (C.key a)
        · rw [hi, Function.update_self, hget, Function.update_of_ne hk]
        · rw [Function.update_of_ne hi]

end Local

end Store

end Ylars.Lib
