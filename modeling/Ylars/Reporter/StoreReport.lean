import Ylars.Lib.Overwrite
import Ylars.Proto
import Ylars.Reactor.ThreadQueue

/-!
# Reports on their way to the database

`deal_report` of the server hands each report to the next of `db_thread_cnt` task queues; a
writer thread takes what its queue has, and `report2db` executes one statement for each
host of each report.  The statements of different writers reach the database in any order,
and a statement overwrites the row that is there.

The table is taken to accept every statement and to have one row for each `RowKey`.
-/

namespace Ylars.Reporter

open Ylars.Lib Ylars.Lib.Overwrite Ylars.Proto Ylars.Reactor

/-- The unique key of `ServerCallStatus`. -/
structure RowKey where
  modid : UInt32
  cmdid : UInt32
  ip : UInt32
  port : UInt32
  caller : Int32
deriving DecidableEq, Repr

/-- The other columns. -/
structure StatusRow where
  succCnt : UInt32
  errCnt : UInt32
  ts : UInt32
  overload : Bool
deriving DecidableEq, Repr

/-- One `INSERT ... ON DUPLICATE KEY UPDATE`. -/
abbrev Statement := RowKey × StatusRow

/-- The table `ServerCallStatus`. -/
abbrev StatusTable := RowKey → Option StatusRow

/-- `report2db`: the statements of a report. -/
def report2db (rep : ReportStatusReq) : List Statement :=
  rep.result.map fun res ↦
    (⟨rep.modid, rep.cmdid, res.ip, res.port, rep.caller⟩,
      ⟨res.succ, res.err, rep.ts, res.overload⟩)

/-- The statements of a sequence of reports. -/
def entries (reps : List ReportStatusReq) : List Statement := reps.flatMap report2db

/-- A writer thread: its task queue, and the statements that it has still to execute. -/
structure Writer (κ : Type) where
  queue : ThreadQueue ReportStatusReq κ
  batch : List Statement

/-- The reporter. -/
structure ReportServer (κ : Type) where
  /-- The static counter of `deal_report`. -/
  index : ℕ
  writers : ℕ → Writer κ
  table : StatusTable
  /-- The reports received. -/
  received : List ReportStatusReq
  /-- The statements executed, with their writers. -/
  log : List (ℕ × Statement)

/-- What happens next. -/
inductive ReportEvent where
  /-- A report arrives. -/
  | dealReport (req : ReportStatusReq)
  /-- A writer takes the tasks of its queue. -/
  | recvTasks (i : ℕ)
  /-- A writer executes a statement. -/
  | execute (i : ℕ)

namespace ReportServer

variable {κ : Type}

/-- Replace one writer. -/
def setWriter (i : ℕ) (w : Writer κ) (s : ReportServer κ) : ReportServer κ :=
  { s with writers := Function.update s.writers i w }

/-- `deal_report` of the server; `cnt` is `db_thread_cnt`. -/
def dealReport (cnt : ℕ) (req : ReportStatusReq) (s : ReportServer κ) : ReportServer κ :=
  let w := s.writers s.index
  { s.setWriter s.index { w with queue := w.queue.sendTask req } with
    index := (s.index + 1) % cnt
    received := s.received ++ [req] }

/-- `deal_report` of a writer: it takes its tasks when it has executed the last ones. -/
def recvTasks (i : ℕ) (s : ReportServer κ) : Option (ReportServer κ) :=
  let w := s.writers i
  match w.batch with
  | [] =>
      let (tasks, queue) := w.queue.recvTasks []
      some (s.setWriter i ⟨queue, entries tasks⟩)
  | _ :: _ => none

/-- A statement of `report2db` is executed. -/
def execute (i : ℕ) (s : ReportServer κ) : Option (ReportServer κ) :=
  let w := s.writers i
  match w.batch with
  | [] => none
  | p :: batch =>
      some { s.setWriter i { w with batch := batch } with
        table := put s.table p
        log := s.log ++ [(i, p)] }

/-- One step. -/
def step (cnt : ℕ) (s : ReportServer κ) : ReportEvent → Option (ReportServer κ)
  | .dealReport req => some (s.dealReport cnt req)
  | .recvTasks i => if i < cnt then s.recvTasks i else none
  | .execute i => if i < cnt then s.execute i else none

/-- The reporter before the first report: the queues are empty, and the writers wait. -/
structure Initial (start : ℕ) (table : StatusTable) (s : ReportServer κ) : Prop where
  index : s.index = start
  idle : ∀ i, (s.writers i).queue.tasks = [] ∧ (s.writers i).batch = []
  table : s.table = table
  received : s.received = []
  log : s.log = []

/-- All task queues are drained, and all statements executed. -/
def Drained (cnt : ℕ) (s : ReportServer κ) : Prop :=
  ∀ i < cnt, (s.writers i).queue.tasks = [] ∧ (s.writers i).batch = []

end ReportServer

/-- The runs of the reporter, with the index and the table they start from. -/
def reportServer (κ : Type) (cnt start : ℕ) (table : StatusTable) :
    LTS (ReportServer κ) ReportEvent where
  init := ReportServer.Initial start table
  step s e t := s.step cnt e = some t

/-- The reports that a writer is given. -/
def dealt (cnt start i : ℕ) (reps : List ReportStatusReq) : List ReportStatusReq :=
  ((reps.zipIdx start).filter fun p ↦ p.2 % cnt = i).map Prod.fst

/-- The statements that a writer is given. -/
def share (cnt start i : ℕ) (reps : List ReportStatusReq) : List Statement :=
  entries (dealt cnt start i reps)

variable {κ : Type} {cnt start i : ℕ} {table : StatusTable} {reps : List ReportStatusReq}

theorem entries_append (reps reps' : List ReportStatusReq) :
    entries (reps ++ reps') = entries reps ++ entries reps' := List.flatMap_append

@[simp] theorem share_nil : share cnt start i [] = [] := rfl

/-- One more report goes to the next writer. -/
theorem share_snoc (req : ReportStatusReq) :
    share cnt start i (reps ++ [req]) =
      share cnt start i reps ++
        if (start + reps.length) % cnt = i then report2db req else [] := by
  have hdealt : dealt cnt start i (reps ++ [req]) =
      dealt cnt start i reps ++ if (start + reps.length) % cnt = i then [req] else [] := by
    rw [dealt, List.zipIdx_append, List.filter_append, List.map_append, dealt]
    congr 1
    by_cases e : (start + reps.length) % cnt = i <;> simp [e]
  rw [share, hdealt, entries_append, share]
  congr 1
  split
  · exact List.flatMap_singleton ..
  · rfl

namespace ReportServer

variable {s t : ReportServer κ}

/-- What every step keeps. -/
structure Inv (cnt start : ℕ) (table : StatusTable) (s : ReportServer κ) : Prop where
  index : s.index = (start + s.received.length) % cnt
  /-- What a writer was given it has executed, holds, or has in its queue. -/
  shared : ∀ i, byWriter i s.log ++ (s.writers i).batch ++ entries (s.writers i).queue.tasks =
    share cnt start i s.received
  written : s.table = writeAll table (s.log.map Prod.snd)

theorem Initial.inv (hstart : start < cnt) (h : s.Initial start table) : s.Inv cnt start table where
  index := by
    rw [h.index, h.received, List.length_nil, Nat.add_zero, Nat.mod_eq_of_lt hstart]
  shared i := by
    rw [h.log, (h.idle i).1, (h.idle i).2, h.received]
    rfl
  written := by
    rw [h.table, h.log]
    rfl

/-- A report arrives. -/
theorem inv_dealReport (h : s.Inv cnt start table) (req : ReportStatusReq) :
    (s.dealReport cnt req).Inv cnt start table where
  index := by
    show (s.index + 1) % cnt = (start + (s.received ++ [req]).length) % cnt
    rw [h.index, List.length_append, List.length_singleton, Nat.mod_add_mod, Nat.add_assoc]
  shared i := by
    show byWriter i s.log ++ (Function.update s.writers s.index _ i).batch ++
      entries (Function.update s.writers s.index _ i).queue.tasks = _
    rw [show (s.dealReport cnt req).received = s.received ++ [req] from rfl, share_snoc,
      ← h.shared i, ← h.index]
    by_cases e : s.index = i
    · subst e
      rw [Function.update_self, if_pos rfl]
      show _ ++ entries ((s.writers s.index).queue.tasks ++ [req]) = _
      rw [entries_append, ← List.append_assoc]
      congr 1
      exact List.flatMap_singleton ..
    · rw [Function.update_of_ne (Ne.symm e), if_neg e, List.append_nil]
  written := h.written

/-- A writer takes its tasks. -/
theorem inv_recvTasks (h : s.Inv cnt start table) (hst : s.recvTasks i = some t) :
    t.Inv cnt start table := by
  unfold recvTasks at hst
  cases hb : (s.writers i).batch with
  | cons p batch =>
      simp only [hb] at hst
      cases hst
  | nil =>
      simp only [hb] at hst
      obtain rfl := Option.some.inj hst
      refine ⟨h.index, fun j ↦ ?_, h.written⟩
      show byWriter j s.log ++ (Function.update s.writers i _ j).batch ++
        entries (Function.update s.writers i _ j).queue.tasks = share cnt start j s.received
      rw [← h.shared j]
      by_cases e : j = i
      · subst e
        rw [Function.update_self, hb, List.append_nil]
        exact List.append_nil _
      · rw [Function.update_of_ne e]

/-- A writer executes a statement. -/
theorem inv_execute (h : s.Inv cnt start table) (hst : s.execute i = some t) :
    t.Inv cnt start table := by
  unfold execute at hst
  cases hb : (s.writers i).batch with
  | nil =>
      simp only [hb] at hst
      cases hst
  | cons p batch =>
      simp only [hb] at hst
      obtain rfl := Option.some.inj hst
      refine ⟨h.index, fun j ↦ ?_, ?_⟩
      · show byWriter j (s.log ++ [(i, p)]) ++ (Function.update s.writers i _ j).batch ++
          entries (Function.update s.writers i _ j).queue.tasks = share cnt start j s.received
        rw [← h.shared j]
        by_cases e : j = i
        · subst e
          rw [byWriter_snoc_self, Function.update_self, hb]
          simp
        · rw [byWriter_snoc_ne (Ne.symm e), Function.update_of_ne e]
      · show put s.table p = writeAll table ((s.log ++ [(i, p)]).map Prod.snd)
        rw [List.map_append, writeAll_append, ← h.written]
        rfl

/-- Every step keeps the invariant. -/
theorem inv_step {e : ReportEvent} (h : s.Inv cnt start table) (hst : s.step cnt e = some t) :
    t.Inv cnt start table := by
  cases e with
  | dealReport req =>
      obtain rfl := Option.some.inj hst
      exact inv_dealReport h req
  | recvTasks i =>
      simp only [step, Option.ite_none_right_eq_some] at hst
      exact inv_recvTasks h hst.2
  | execute i =>
      simp only [step, Option.ite_none_right_eq_some] at hst
      exact inv_execute h hst.2

theorem inv_of_reachable (hstart : start < cnt) (h : (reportServer κ cnt start table).Reachable s) :
    s.Inv cnt start table := by
  apply h.induction
  · exact fun s hi ↦ hi.inv hstart
  · exact fun s e t _ hi hst ↦ inv_step hi hst

/-- In a drained state the log has for each writer what it was given. -/
theorem byWriter_of_drained (hi : s.Inv cnt start table) (hd : s.Drained cnt) {i : ℕ}
    (hlt : i < cnt) : byWriter i s.log = share cnt start i s.received := by
  obtain ⟨hq, hb⟩ := hd i hlt
  rw [← hi.shared i, hq, hb, List.append_nil]
  exact (List.append_nil _).symm

end ReportServer

/-- Every statement is given to a writer. -/
theorem exists_mem_share (start : ℕ) (hcnt : 0 < cnt) {p : Statement} (h : p ∈ entries reps) :
    ∃ i < cnt, p ∈ share cnt start i reps := by
  induction reps using List.reverseRecOn with
  | nil => cases h
  | append_singleton reps req ih =>
      rw [entries_append] at h
      rcases List.mem_append.mp h with h | h
      · obtain ⟨i, hi, hmem⟩ := ih h
        exact ⟨i, hi, by rw [share_snoc]; exact List.mem_append_left _ hmem⟩
      · refine ⟨(start + reps.length) % cnt, Nat.mod_lt _ hcnt, ?_⟩
        rw [share_snoc, if_pos rfl]
        exact List.mem_append_right _ (by simpa [entries] using h)

/-- A writer that does not exist is given nothing. -/
theorem share_of_le (hcnt : 0 < cnt) (h : cnt ≤ i) : share cnt start i reps = [] := by
  induction reps using List.reverseRecOn with
  | nil => rfl
  | append_singleton reps req ih =>
      have := Nat.mod_lt (start + reps.length) hcnt
      rw [share_snoc, ih, if_neg (by omega)]
      rfl

namespace ReportServer

variable {s t : ReportServer κ} {k : RowKey} {v : StatusRow}

/-- In a drained state a row has the values of the last entry for it that some writer was
given. -/
theorem exists_last_of_drained (hstart : start < cnt) (hi : s.Inv cnt start table)
    (hd : s.Drained cnt) (hv : last k (entries s.received) = some v) :
    ∃ i < cnt, ∃ w, last k (share cnt start i s.received) = some w ∧ s.table k = some w := by
  have hcnt : 0 < cnt := Nat.zero_lt_of_lt hstart
  -- the entry has been executed
  obtain ⟨w, hw⟩ : ∃ w, last k (s.log.map Prod.snd) = some w := by
    rw [← Option.ne_none_iff_exists']
    intro hnone
    have hno : last k (entries s.received) ≠ none := by
      rw [hv]
      exact Option.some_ne_none v
    refine hno (last_eq_none_iff.mpr fun p hp ↦ ?_)
    obtain ⟨i, hlt, hmem⟩ := exists_mem_share start hcnt hp
    rw [← byWriter_of_drained hi hd hlt] at hmem
    exact last_eq_none_iff.mp hnone p (mem_of_mem_byWriter hmem)
  obtain ⟨i, hiw⟩ := exists_last_byWriter hw
  have hlt : i < cnt := by
    by_contra hge
    have hshare := hi.shared i
    rw [share_of_le hcnt (Nat.le_of_not_lt hge), List.append_assoc] at hshare
    rw [(List.append_eq_nil_iff.mp hshare).1] at hiw
    cases hiw
  refine ⟨i, hlt, w, ?_, ?_⟩
  · rw [← byWriter_of_drained hi hd hlt]
    exact hiw
  · rw [hi.written, writeAll_apply, hw, Option.some_or]

/-! ## Schedules -/

/-- A writer executes all its statements. -/
theorem exists_run_execute (start : ℕ) (table : StatusTable) (hlt : i < cnt) (s : ReportServer κ) :
    ∃ as t, (reportServer κ cnt start table).Run s as t ∧
      t.writers = Function.update s.writers i ⟨(s.writers i).queue, []⟩ ∧
      t.table = writeAll s.table (s.writers i).batch ∧ t.received = s.received := by
  generalize hb : (s.writers i).batch = batch
  induction batch generalizing s with
  | nil =>
      refine ⟨[], s, .nil s, ?_, rfl, rfl⟩
      rw [← hb]
      exact (Function.update_eq_self i s.writers).symm
  | cons p batch ih =>
      obtain ⟨as, t, hrun, hw, ht, hr⟩ := ih { s.setWriter i ⟨(s.writers i).queue, batch⟩ with
        table := put s.table p
        log := s.log ++ [(i, p)] } (by
          show (Function.update s.writers i _ i).batch = batch
          rw [Function.update_self])
      refine ⟨.execute i :: as, t, .cons ?_ hrun, ?_, ht, hr⟩
      · show (if i < cnt then s.execute i else none) = some _
        rw [if_pos hlt, execute]
        simp only [hb]
      · rw [hw]
        show Function.update (Function.update s.writers i _) i
          ⟨(Function.update s.writers i ⟨(s.writers i).queue, batch⟩ i).queue, []⟩ = _
        rw [Function.update_idem, Function.update_self]

/-- A waiting writer takes its tasks and executes their statements. -/
theorem exists_run_drain (start : ℕ) (table : StatusTable) (hlt : i < cnt)
    (s : ReportServer κ) (hb : (s.writers i).batch = []) :
    ∃ as t, (reportServer κ cnt start table).Run s as t ∧ (t.writers i).queue.tasks = [] ∧
      (t.writers i).batch = [] ∧ (∀ j, j ≠ i → t.writers j = s.writers j) ∧
      t.table = writeAll s.table (entries (s.writers i).queue.tasks) ∧
      t.received = s.received := by
  obtain ⟨as, t, hrun, hw, ht, hr⟩ := exists_run_execute start table hlt
    (s.setWriter i ⟨((s.writers i).queue.recvTasks []).2, entries (s.writers i).queue.tasks⟩)
  have hself : (s.setWriter i ⟨((s.writers i).queue.recvTasks []).2,
      entries (s.writers i).queue.tasks⟩).writers i =
        ⟨((s.writers i).queue.recvTasks []).2, entries (s.writers i).queue.tasks⟩ :=
    Function.update_self ..
  rw [hself] at hw ht
  refine ⟨.recvTasks i :: as, t, .cons ?_ hrun, ?_, ?_, fun j hj ↦ ?_, ht, hr⟩
  · show (if i < cnt then s.recvTasks i else none) = some _
    rw [if_pos hlt, recvTasks]
    simp only [hb]
    rfl
  · rw [hw, Function.update_self]
    rfl
  · rw [hw, Function.update_self]
  · rw [hw, Function.update_of_ne hj]
    exact Function.update_of_ne hj _ _

theorem exists_run_drainAll (start : ℕ) (table : StatusTable) (js : List ℕ)
    (hjs : ∀ j ∈ js, j < cnt) (s : ReportServer κ) (hb : ∀ j, (s.writers j).batch = []) :
    ∃ as t, (reportServer κ cnt start table).Run s as t ∧ (∀ j, (t.writers j).batch = []) ∧
      (∀ j ∈ js, (t.writers j).queue.tasks = []) ∧ (∀ j, j ∉ js → t.writers j = s.writers j) ∧
      t.received = s.received := by
  induction js generalizing s with
  | nil => exact ⟨[], s, .nil s, hb, fun _ h ↦ absurd h List.not_mem_nil, fun _ _ ↦ rfl, rfl⟩
  | cons i js ih =>
      obtain ⟨hlt, hjs⟩ := List.forall_mem_cons.mp hjs
      obtain ⟨as, t, hrun, htasks, hbatch, hother, -, hr⟩ :=
        exists_run_drain start table hlt s (hb i)
      have hb' : ∀ j, (t.writers j).batch = [] := fun j ↦ by
        by_cases e : j = i
        · rw [e, hbatch]
        · rw [hother j e, hb j]
      obtain ⟨as', u, hrun', hbu, htu, hou, hru⟩ := ih hjs t hb'
      refine ⟨as ++ as', u, hrun.append hrun', hbu, fun j hj ↦ ?_, fun j hj ↦ ?_, hru.trans hr⟩
      · by_cases hjs' : j ∈ js
        · exact htu j hjs'
        · rw [hou j hjs', (List.mem_cons.mp hj).resolve_right hjs']
          exact htasks
      · rw [List.mem_cons, not_or] at hj
        rw [hou j hj.2, hother j hj.1]

/-- The reporter with new queues. -/
def fresh (index : ℕ) (table : StatusTable) : ReportServer κ where
  index := index
  writers := fun _ ↦ ⟨.new 0, []⟩
  table := table
  received := []
  log := []

/-- The reports arrive one after another while the writers wait. -/
theorem exists_run_deal (cnt index : ℕ) (table : StatusTable) (reps : List ReportStatusReq)
    (s : ReportServer κ) (hb : ∀ j, (s.writers j).batch = []) (hlog : s.log = []) :
    ∃ as t, (reportServer κ cnt index table).Run s as t ∧ (∀ j, (t.writers j).batch = []) ∧
      t.log = [] ∧ t.received = s.received ++ reps := by
  induction reps generalizing s with
  | nil => exact ⟨[], s, .nil s, hb, hlog, (List.append_nil _).symm⟩
  | cons req reps ih =>
      have hb' : ∀ j, ((s.dealReport cnt req).writers j).batch = [] := fun j ↦ by
        show (Function.update s.writers s.index _ j).batch = []
        by_cases e : j = s.index
        · subst e
          rw [Function.update_self]
          exact hb s.index
        · rw [Function.update_of_ne e]
          exact hb j
      obtain ⟨as, t, hrun, hbt, hlt, hr⟩ := ih (s.dealReport cnt req) hb' hlog
      refine ⟨.dealReport req :: as, t, .cons rfl hrun, hbt, hlt, hr.trans ?_⟩
      show s.received ++ [req] ++ reps = s.received ++ req :: reps
      rw [List.append_assoc]
      rfl

/-- The last entry that a writer is given is the row of some schedule. -/
theorem exists_schedule (κ : Type) {index : ℕ} (hindex : index < cnt) (table : StatusTable)
    (reps : List ReportStatusReq) (hlt : i < cnt) (hv : last k (share cnt index i reps) = some v) :
    ∃ s, (reportServer κ cnt index table).Reachable s ∧ s.received = reps ∧ s.Drained cnt ∧
      s.table k = some v := by
  have hinit : (reportServer κ cnt index table).Reachable (fresh index table) :=
    .init ⟨rfl, fun _ ↦ ⟨rfl, rfl⟩, rfl, rfl, rfl⟩
  obtain ⟨as, s₁, hrun₁, hb₁, hlog₁, hr₁⟩ :=
    exists_run_deal cnt index table reps (fresh index table : ReportServer κ) (fun _ ↦ rfl) rfl
  -- the others first
  obtain ⟨bs, s₂, hrun₂, hb₂, htasks₂, hother₂, hr₂⟩ := exists_run_drainAll index table
    ((List.range cnt).filter (· ≠ i))
    (fun j hj ↦ List.mem_range.mp (List.mem_filter.mp hj).1) s₁ hb₁
  obtain ⟨cs, s₃, hrun₃, htasks₃, hbatch₃, hother₃, htable₃, hr₃⟩ :=
    exists_run_drain index table hlt s₂ (hb₂ i)
  have hreach₁ := hinit.run hrun₁
  have hreceived : s₁.received = reps := hr₁
  have htasks : entries (s₂.writers i).queue.tasks = share cnt index i reps := by
    have hi := (inv_of_reachable hindex hreach₁).shared i
    rw [hlog₁, hb₁ i, hreceived] at hi
    rw [hother₂ i (by simp)]
    exact hi
  refine ⟨s₃, (hreach₁.run hrun₂).run hrun₃, hr₃.trans (hr₂.trans hreceived), fun j hj ↦ ?_, ?_⟩
  · by_cases e : j = i
    · rw [e]
      exact ⟨htasks₃, hbatch₃⟩
    · rw [hother₃ j e]
      exact ⟨htasks₂ j (List.mem_filter.mpr ⟨List.mem_range.mpr hj, by simpa using e⟩), hb₂ j⟩
  · rw [htable₃, htasks, writeAll_apply, hv, Option.some_or]

end ReportServer

/-- Once all queues are drained, the row of a key that was reported has the values of the last
entry for it among the reports that one of the writers was given.  These are the values of
the newest entry under every schedule when every writer that was given an entry for the
key was given one with these values last, and not otherwise. -/
theorem row_of_drained (κ : Type) {cnt start : ℕ} (hstart : start < cnt) (table : StatusTable)
    (reps : List ReportStatusReq) {k : RowKey} {v : StatusRow}
    (hv : last k (entries reps) = some v) :
    (∀ s, (reportServer κ cnt start table).Reachable s → s.received = reps → s.Drained cnt →
      ∃ i < cnt, ∃ w, last k (share cnt start i reps) = some w ∧ s.table k = some w) ∧
    ((∀ s, (reportServer κ cnt start table).Reachable s → s.received = reps → s.Drained cnt →
        s.table k = some v) ↔
      ∀ i < cnt, ∀ w, last k (share cnt start i reps) = some w → w = v) := by
  have hlast : ∀ s, (reportServer κ cnt start table).Reachable s → s.received = reps →
      s.Drained cnt →
      ∃ i < cnt, ∃ w, last k (share cnt start i reps) = some w ∧ s.table k = some w := by
    rintro s hr rfl hd
    exact ReportServer.exists_last_of_drained hstart (ReportServer.inv_of_reachable hstart hr) hd hv
  refine ⟨hlast, fun hnewest i hi w hw ↦ ?_, fun hall s hr hrep hd ↦ ?_⟩
  · obtain ⟨s, hr, hrep, hd, hrow⟩ :=
      ReportServer.exists_schedule κ hstart table reps hi hw
    exact Option.some.inj (hrow.symm.trans (hnewest s hr hrep hd))
  · obtain ⟨i, hi, w, hw, hrow⟩ := hlast s hr hrep hd
    rw [hrow, hall i hi w hw]

/-- A report on one host. -/
def older : ReportStatusReq where
  modid := 1
  cmdid := 1
  caller := 7
  ts := 100
  result := [⟨3232235953, 7777, 1, 0, false⟩]

/-- The next report on the same host. -/
def newer : ReportStatusReq where
  modid := 1
  cmdid := 1
  caller := 7
  ts := 101
  result := [⟨3232235953, 7777, 2, 0, false⟩]

/-- The key of both. -/
def hostKey : RowKey where
  modid := 1
  cmdid := 1
  ip := 3232235953
  port := 7777
  caller := 7

/-- With one writer the newer report is the row. -/
theorem row_of_drained_one :
    ∃ s, (reportServer Unit 1 0 fun _ ↦ none).Reachable s ∧ s.received = [older, newer] ∧
      s.Drained 1 ∧ s.table hostKey = some ⟨2, 0, 101, false⟩ := by
  obtain ⟨s, hr, hrep, hd, -⟩ := ReportServer.exists_schedule Unit Nat.zero_lt_one (fun _ ↦ none)
    [older, newer] Nat.zero_lt_one (k := hostKey) rfl
  refine ⟨s, hr, hrep, hd, ?_⟩
  refine (row_of_drained Unit Nat.zero_lt_one (fun _ ↦ none) [older, newer] rfl).2.mpr ?_
    s hr hrep hd
  intro i hi w hw
  obtain rfl := Nat.lt_one_iff.mp hi
  exact (Option.some.inj hw).symm

/-- Both reports are received, and the second writer is the faster one. -/
def slowWriter : List ReportEvent :=
  [.dealReport older, .dealReport newer, .recvTasks 1, .execute 1, .recvTasks 0, .execute 0]

/-- When the second writer is the faster one, the row has the values of the older report. -/
theorem slowWriter_row_older :
    ∃ s, (reportServer Unit 2 0 fun _ ↦ none).Run (.fresh 0 fun _ ↦ none) slowWriter s ∧
      (reportServer Unit 2 0 fun _ ↦ none).Reachable s ∧ s.Drained 2 ∧
      s.received = [older, newer] ∧ s.table hostKey = some ⟨1, 0, 100, false⟩ ∧
      last hostKey (entries s.received) = some ⟨2, 0, 101, false⟩ ∧
      s.table hostKey ≠ last hostKey (entries s.received) := by
  have hrun : (reportServer Unit 2 0 fun _ ↦ none).Run (.fresh 0 fun _ ↦ none) slowWriter _ :=
    LTS.Run.foldlM (fun _ _ _ h ↦ h) rfl
  refine ⟨_, hrun, LTS.Reachable.run (.init ⟨rfl, fun _ ↦ ⟨rfl, rfl⟩, rfl, rfl, rfl⟩) hrun, ?_,
    rfl, rfl, rfl, by decide⟩
  intro i hi
  match i, hi with
  | 0, _ => exact ⟨rfl, rfl⟩
  | 1, _ => exact ⟨rfl, rfl⟩

end Ylars.Reporter
