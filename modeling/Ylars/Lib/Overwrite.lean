import Mathlib.Data.List.Induction
import Mathlib.Logic.Function.Basic

/-!
# Tables that are overwritten

A table is written to by statements that put a value under a key and replace the one that
is there.  After a sequence of statements a key has the value of the last statement for
it.  When several writers share the table, the sequence is a log of their statements, and
the last statement for a key is the last one that some writer has for it.
-/

universe u v w

namespace Ylars.Lib.Overwrite

variable {κ : Type u} {ν : Type v} {ι : Type w} [DecidableEq κ] {k : κ} {v : ν}

/-- One statement. -/
def put (t : κ → Option ν) (p : κ × ν) : κ → Option ν := Function.update t p.1 (some p.2)

/-- The table after a sequence of statements. -/
def writeAll (t : κ → Option ν) (l : List (κ × ν)) : κ → Option ν := l.foldl put t

/-- The value of the last statement for a key. -/
def last (k : κ) : List (κ × ν) → Option ν
  | [] => none
  | p :: l => (last k l).or (if p.1 = k then some p.2 else none)

theorem last_append (l l' : List (κ × ν)) : last k (l ++ l') = (last k l').or (last k l) := by
  induction l with
  | nil => simp [last]
  | cons p l ih => rw [List.cons_append, last, ih, last, Option.or_assoc]

theorem last_eq_none_iff {l : List (κ × ν)} : last k l = none ↔ ∀ p ∈ l, p.1 ≠ k := by
  induction l with
  | nil => simp [last]
  | cons p l ih =>
      rw [last, Option.or_eq_none_iff, ih, List.forall_mem_cons]
      by_cases e : p.1 = k <;> simp [e]

/-- A key has the value of the last statement for it. -/
theorem writeAll_apply (t : κ → Option ν) (l : List (κ × ν)) :
    writeAll t l k = (last k l).or (t k) := by
  induction l generalizing t with
  | nil => rfl
  | cons p l ih =>
      rw [writeAll, List.foldl_cons, ← writeAll, ih, last, Option.or_assoc]
      congr 1
      by_cases e : p.1 = k
      · subst e
        rw [put, Function.update_self, if_pos rfl, Option.some_or]
      · rw [put, Function.update_of_ne (Ne.symm e), if_neg e, Option.none_or]

theorem writeAll_append (t : κ → Option ν) (l l' : List (κ × ν)) :
    writeAll t (l ++ l') = writeAll (writeAll t l) l' := List.foldl_append ..

variable [DecidableEq ι]

/-- The statements of one writer in a log. -/
def byWriter (i : ι) (log : List (ι × κ × ν)) : List (κ × ν) :=
  (log.filter fun e ↦ e.1 = i).map Prod.snd

omit [DecidableEq κ] in
theorem byWriter_snoc_self (i : ι) (p : κ × ν) (log : List (ι × κ × ν)) :
    byWriter i (log ++ [(i, p)]) = byWriter i log ++ [p] := by
  simp [byWriter]

omit [DecidableEq κ] in
theorem byWriter_snoc_ne {i j : ι} (h : j ≠ i) (p : κ × ν) (log : List (ι × κ × ν)) :
    byWriter i (log ++ [(j, p)]) = byWriter i log := by
  simp [byWriter, h]

omit [DecidableEq κ] in
theorem mem_of_mem_byWriter {i : ι} {p : κ × ν} {log : List (ι × κ × ν)}
    (h : p ∈ byWriter i log) : p ∈ log.map Prod.snd := by
  obtain ⟨e, he, rfl⟩ := List.mem_map.mp h
  exact List.mem_map_of_mem (List.mem_filter.mp he).1

/-- The last statement for a key is the last one that some writer has for it. -/
theorem exists_last_byWriter {log : List (ι × κ × ν)} (h : last k (log.map Prod.snd) = some v) :
    ∃ i, last k (byWriter i log) = some v := by
  induction log using List.reverseRecOn with
  | nil => cases h
  | append_singleton log e ih =>
      obtain ⟨j, p⟩ := e
      rw [List.map_append, last_append] at h
      by_cases hk : p.1 = k
      · refine ⟨j, ?_⟩
        simpa [byWriter_snoc_self, last_append, last, hk] using h
      · have hold : last k (log.map Prod.snd) = some v := by simpa [last, hk] using h
        obtain ⟨i, hi⟩ := ih hold
        refine ⟨i, ?_⟩
        by_cases e : j = i
        · subst e
          rw [byWriter_snoc_self, last_append, hi]
          simp [last, hk]
        · rw [byWriter_snoc_ne e, hi]

end Ylars.Lib.Overwrite
