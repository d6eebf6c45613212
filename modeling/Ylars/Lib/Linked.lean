import Mathlib.Data.List.Nodup
import Mathlib.Logic.Function.Basic

/-!
# Linked lists

A linked list has its links in its cells: `next a` is the cell after `a`, or null.
`Linked next a l` says that the cells from `a` on are those of `l` and that the last of them
has no next one.

Start and links determine the cells (`Linked.unique`), so a linked list never comes back to
a cell (`Linked.nodup`); and changing the links of other cells does not change it
(`Linked.congr`).
-/

universe u

namespace Ylars.Lib

variable {α : Type u}

/-- The cells from `a` on are those of the list. -/
def Linked (next : α → Option α) : Option α → List α → Prop
  | a, [] => a = none
  | a, b :: l => a = some b ∧ Linked next (next b) l

namespace Linked

variable {next next' : α → Option α} {a : Option α} {b : α} {l l' : List α}

@[simp] theorem nil_iff : Linked next a [] ↔ a = none := Iff.rfl

@[simp] theorem cons_iff :
    Linked next a (b :: l) ↔ a = some b ∧ Linked next (next b) l := Iff.rfl

theorem of_none (h : Linked next none l) : l = [] := by
  cases l with
  | nil => rfl
  | cons b l => cases h.1

/-- From a cell on the list has that cell and those from its next one on. -/
theorem of_some (h : Linked next (some b) l) : ∃ l', l = b :: l' ∧ Linked next (next b) l' := by
  cases l with
  | nil => cases h
  | cons c l =>
      obtain rfl := Option.some.inj h.1
      exact ⟨l, rfl, h.2⟩

/-- The start determines the cells. -/
theorem unique (h : Linked next a l) (h' : Linked next a l') : l = l' := by
  induction l generalizing a l' with
  | nil =>
      obtain rfl := nil_iff.mp h
      exact h'.of_none.symm
  | cons b l ih =>
      obtain ⟨rfl, hl⟩ := h
      obtain ⟨l', rfl, hl'⟩ := h'.of_some
      rw [ih hl hl']

/-- From each of its cells on, a linked list is linked. -/
theorem of_mem (h : Linked next a l) (hb : b ∈ l) :
    ∃ l', Linked next (some b) l' ∧ l' <:+ l := by
  induction l generalizing a with
  | nil => cases hb
  | cons c l ih =>
      rcases List.mem_cons.mp hb with rfl | hb
      · exact ⟨b :: l, cons_iff.mpr ⟨rfl, h.2⟩, List.suffix_refl _⟩
      · obtain ⟨l', hl', hsuf⟩ := ih h.2 hb
        exact ⟨l', hl', hsuf.trans (List.suffix_cons c l)⟩

/-- No cell occurs twice: from the second time on the list would be as long as from the
first. -/
theorem nodup (h : Linked next a l) : l.Nodup := by
  induction l generalizing a with
  | nil => exact List.nodup_nil
  | cons b l ih =>
      refine List.nodup_cons.mpr ⟨fun hb ↦ ?_, ih h.2⟩
      obtain ⟨l', hl', hsuf⟩ := of_mem h.2 hb
      have heq : b :: l = l' := unique (cons_iff.mpr ⟨rfl, h.2⟩) hl'
      have hlen := hsuf.length_le
      rw [← heq, List.length_cons] at hlen
      omega

/-- Only the links of the cells matter. -/
theorem congr (h : Linked next a l) (hn : ∀ b ∈ l, next' b = next b) : Linked next' a l := by
  induction l generalizing a with
  | nil => exact h
  | cons b l ih =>
      refine ⟨h.1, ?_⟩
      rw [hn b (List.mem_cons_self ..)]
      exact ih h.2 fun c hc ↦ hn c (List.mem_cons_of_mem _ hc)

/-- Linking a cell that is not on the list leaves the list alone. -/
theorem update [DecidableEq α] (h : Linked next a l) (hb : b ∉ l) (c : Option α) :
    Linked (Function.update next b c) a l := by
  refine h.congr fun d hd ↦ ?_
  have hne : d ≠ b := fun e ↦ hb (e ▸ hd)
  rw [Function.update_of_ne hne]

/-- A cell that is not on the list is linked before it. -/
theorem push [DecidableEq α] (h : Linked next a l) (hb : b ∉ l) :
    Linked (Function.update next b a) (some b) (b :: l) := by
  refine ⟨rfl, ?_⟩
  rw [Function.update_self]
  exact h.update hb a

end Linked

end Ylars.Lib
