import Ylars.Lib.Rest
import Ylars.Reporter.StoreReport

/-!
# The work of the writers

A writer runs `deal_report` when `epoll_wait` finds the descriptor of its task queue readable,
and then executes the statements of the tasks that it has taken.  When no more reports arrive
this comes to an end, since each turn takes the counter and each statement is executed once;
and no task stays behind, since a queue with tasks has a readable descriptor (`Noticed`).
-/

namespace Ylars.Reporter

open Ylars.Lib Ylars.Proto Ylars.Reactor

/-- The statements that a writer has in hand and in its queue, and the turn that it is woken
for. -/
def Writer.workLeft {κ : Type} (w : Writer κ) : ℕ :=
  w.batch.length + (entries w.queue.tasks).length + if w.queue.counter.Readable then 1 else 0

namespace ReportServer

variable {κ : Type} {cnt start i : ℕ} {table : StatusTable} {s t : ReportServer κ}
  {e : ReportEvent}

/-- Whether an event is work that is left: a writer takes its tasks when it is woken. -/
def Works (s : ReportServer κ) : ReportEvent → Prop
  | .dealReport _ => False
  | .recvTasks i => (s.writers i).queue.counter.Readable
  | .execute _ => True

/-- What all writers have still to do. -/
def workLeft (cnt : ℕ) (s : ReportServer κ) : ℕ := ∑ i ∈ Finset.range cnt, (s.writers i).workLeft

/-- A queue with tasks wakes its writer. -/
def Noticed (s : ReportServer κ) : Prop :=
  ∀ i, (s.writers i).queue.tasks ≠ [] → (s.writers i).queue.counter.Readable

/-! ## What a step is -/

theorem recvTasks_cases (h : s.recvTasks i = some t) :
    (s.writers i).batch = [] ∧ t = s.setWriter i
      ⟨((s.writers i).queue.recvTasks []).2, entries (s.writers i).queue.tasks⟩ := by
  unfold recvTasks at h
  cases hb : (s.writers i).batch with
  | nil =>
      simp only [hb] at h
      exact ⟨rfl, (Option.some.inj h).symm⟩
  | cons p batch =>
      simp only [hb] at h
      cases h

theorem execute_cases (h : s.execute i = some t) : ∃ p batch, (s.writers i).batch = p :: batch ∧
    t.writers = Function.update s.writers i { s.writers i with batch := batch } := by
  unfold execute at h
  cases hb : (s.writers i).batch with
  | nil =>
      simp only [hb] at h
      cases h
  | cons p batch =>
      simp only [hb] at h
      obtain rfl := Option.some.inj h
      exact ⟨p, batch, rfl, rfl⟩

/-! ## A queue with tasks wakes its writer -/

theorem Noticed.update {w : Writer κ} (h : s.Noticed)
    (hw : w.queue.tasks ≠ [] → w.queue.counter.Readable)
    (ht : t.writers = Function.update s.writers i w) : t.Noticed := by
  intro j
  rw [ht]
  by_cases hj : j = i
  · subst hj
    rw [Function.update_self]
    exact hw
  · rw [Function.update_of_ne hj]
    exact h j

/-- Every step keeps it that a queue with tasks wakes its writer. -/
theorem Noticed.step (h : s.Noticed) (hst : s.step cnt e = some t) : t.Noticed := by
  cases e with
  | dealReport req =>
      obtain rfl := Option.some.inj hst
      refine h.update (i := s.index) (fun _ ↦ ?_) rfl
      exact EventFd.readable_write Nat.one_pos (by decide) _
  | recvTasks i =>
      simp only [ReportServer.step, Option.ite_none_right_eq_some] at hst
      obtain ⟨-, rfl⟩ := recvTasks_cases hst.2
      exact h.update (fun hne ↦ absurd rfl hne) rfl
  | execute i =>
      simp only [ReportServer.step, Option.ite_none_right_eq_some] at hst
      obtain ⟨p, batch, -, hw⟩ := execute_cases hst.2
      exact h.update (w := ⟨(s.writers i).queue, batch⟩) (h i) hw

theorem noticed_of_reachable (h : (reportServer κ cnt start table).Reachable s) : s.Noticed := by
  refine h.induction (I := Noticed) ?_ fun s e t _ hi hst ↦ hi.step hst
  exact fun s hi i hne ↦ absurd (hi.idle i).1 hne

/-! ## The work comes to an end -/

theorem workLeft_update {w : Writer κ} (hi : i < cnt)
    (ht : t.writers = Function.update s.writers i w)
    (hlt : w.workLeft < (s.writers i).workLeft) : t.workLeft cnt < s.workLeft cnt := by
  have hsum := sum_range_update hi s.writers w Writer.workLeft
  rw [workLeft, workLeft, ht]
  omega

/-- Work of a writer leaves the reporter less to do. -/
theorem workLeft_lt (he : s.Works e) (hst : s.step cnt e = some t) :
    t.workLeft cnt < s.workLeft cnt := by
  cases e with
  | dealReport req => exact absurd he id
  | recvTasks i =>
      simp only [ReportServer.step, Option.ite_none_right_eq_some] at hst
      obtain ⟨hi, hst⟩ := hst
      obtain ⟨hbatch, rfl⟩ := recvTasks_cases hst
      refine workLeft_update hi rfl ?_
      have hread : (s.writers i).queue.counter.Readable := he
      have hnot : ¬((s.writers i).queue.recvTasks []).2.counter.Readable :=
        EventFd.not_readable_read (s.writers i).queue.counter
      have hnil : (entries ((s.writers i).queue.recvTasks []).2.tasks).length = 0 := rfl
      simp only [Writer.workLeft, hbatch, hnil, if_pos hread, if_neg hnot, List.length_nil]
      omega
  | execute i =>
      simp only [ReportServer.step, Option.ite_none_right_eq_some] at hst
      obtain ⟨hi, hst⟩ := hst
      obtain ⟨p, batch, hbatch, hw⟩ := execute_cases hst
      refine workLeft_update hi hw ?_
      simp only [Writer.workLeft, hbatch, List.length_cons]
      omega

/-- When no work is left, all queues are drained. -/
theorem drained_of_rest (h : s.Noticed) (hrest : ∀ e t, s.Works e → s.step cnt e ≠ some t) :
    s.Drained cnt := by
  intro i hi
  have hbatch : (s.writers i).batch = [] := by
    by_contra hne
    obtain ⟨p, batch, hb⟩ := List.exists_cons_of_ne_nil hne
    obtain ⟨t, ht⟩ : ∃ t, s.step cnt (.execute i) = some t := by
      simp only [ReportServer.step, if_pos hi, execute, hb]
      exact ⟨_, rfl⟩
    exact hrest (.execute i) t trivial ht
  refine ⟨?_, hbatch⟩
  by_contra hne
  obtain ⟨t, ht⟩ : ∃ t, s.step cnt (.recvTasks i) = some t := by
    simp only [ReportServer.step, if_pos hi, recvTasks, hbatch]
    exact ⟨_, rfl⟩
  exact hrest (.recvTasks i) t (h i hne) ht

end ReportServer

end Ylars.Reporter
