import Ylars.Dns.Announced
import Ylars.Dns.OneConn
import Ylars.Lib.Rest

/-!
# The work of the server

When no connection sends anything and the update thread only finishes its publication, the
server runs out of work, in whatever order its threads take their steps.  A task may leave
any number of responses to send, but it is done once; so tasks come first in the rank, and
what the workers have in hand comes second.  A server that has run out of work is settled.
-/

namespace Ylars.Dns

open Std (ExtTreeMap ExtTreeSet)
open Ylars.Lib

/-- The steps that a worker has in hand. -/
def Pc.work : Pc → ℕ
  | .idle => 0
  | .subscribe _ _ _ => 4
  | .getHosts _ _ _ rest => 3 + 4 * rest.length
  | .sendMsg _ _ rest => 2 + 4 * rest.length
  | .makePublishMap _ => 0
  | .unsubscribe _ mods => 1 + mods.length

/-- What is left of a task that has not looked into the push list yet. -/
def Pc.task : Pc → ℕ
  | .makePublishMap _ => 1
  | _ => 0

/-- The tasks of a worker: one in the queue has to be taken over first. -/
def Worker.tasks (w : Worker) : ℕ := 3 * w.queue + 2 * w.asyncTasks + w.pc.task

namespace DnsServer

/-- What `add_async_task` has still to do. -/
def toSend (s : DnsServer) : ℕ :=
  match s.sending with
  | none => 0
  | some k => 4 * (s.threadNum - k) + 1

/-- The tasks that are left. -/
def tasksLeft (s : DnsServer) : ℕ :=
  s.toSend + ∑ i ∈ Finset.range s.threadNum, (s.workers i).tasks

/-- The steps that the workers have in hand. -/
def workLeft (s : DnsServer) : ℕ := ∑ i ∈ Finset.range s.threadNum, (s.workers i).pc.work

/-- Whether an event is work that is left: the update thread has tasks to send, or a worker
has something to take over or in hand. -/
def Works (s : DnsServer) : Event → Prop
  | .updater _ => s.sending ≠ none
  | .deal i => 0 < (s.workers i).queue
  | .task _ => True
  | .proceed _ => True
  | _ => False

variable {s t : DnsServer} {fd : Int} {i : ℕ} {w : Worker} {e : Event}

/-! ## The sums -/

theorem tasksLeft_update (hi : i < s.threadNum) (hw : t.workers = Function.update s.workers i w)
    (hn : t.threadNum = s.threadNum) (hs : t.sending = s.sending) :
    t.tasksLeft + (s.workers i).tasks = s.tasksLeft + w.tasks := by
  have hsum := sum_range_update hi s.workers w Worker.tasks
  rw [tasksLeft, tasksLeft, toSend, toSend, hw, hn, hs]
  omega

theorem tasksLeft_lt (hi : i < s.threadNum) (hw : t.workers = Function.update s.workers i w)
    (hn : t.threadNum = s.threadNum) (hs : t.sending = s.sending)
    (hlt : w.tasks < (s.workers i).tasks) : t.tasksLeft < s.tasksLeft := by
  have := tasksLeft_update hi hw hn hs
  omega

theorem workLeft_update (hi : i < s.threadNum) (hw : t.workers = Function.update s.workers i w)
    (hn : t.threadNum = s.threadNum) :
    t.workLeft + (s.workers i).pc.work = s.workLeft + w.pc.work := by
  rw [workLeft, workLeft, hw, hn]
  exact sum_range_update hi s.workers w fun w ↦ w.pc.work

theorem work_next_le (rest : List (Int × UInt64)) : (Pc.next rest).work ≤ 4 * rest.length := by
  cases rest with
  | nil => exact Nat.le_refl _
  | cons p rest =>
      simp only [Pc.next, Pc.work, List.length_cons]
      omega

theorem task_next (rest : List (Int × UInt64)) : (Pc.next rest).task = 0 := by
  cases rest with
  | nil => rfl
  | cons p rest => rfl

/-! ## What a step is -/

/-- A step of the update thread, or of a worker that waits or has something in hand. -/
theorem step_cases (h : s.Inv) (hs : s.step e = some t) :
    (∃ a, e = .updater a ∧ t = s.updater a) ∨
      ∃ i w conns sub, t = s.after i w conns sub ∧
        (s.isIdle i = true ∨ (s.workers i).pc ≠ .idle) := by
  cases e with
  | updater a => exact .inl ⟨a, rfl, (Option.some.inj hs).symm⟩
  | deal i =>
      simp only [DnsServer.step, Option.ite_none_right_eq_some] at hs
      obtain ⟨hidle, hs⟩ := hs
      obtain rfl := Option.some.inj hs
      exact .inr ⟨i, _, s.conns, s.sub, rfl, .inl hidle⟩
  | task i =>
      simp only [DnsServer.step, startTask, Option.ite_none_right_eq_some] at hs
      obtain ⟨hidle, -, hs⟩ := hs
      obtain rfl := Option.some.inj hs
      exact .inr ⟨i, _, s.conns, s.sub, rfl, .inl hidle⟩
  | request i fd modid cmdid =>
      simp only [DnsServer.step, Option.ite_none_right_eq_some] at hs
      obtain ⟨hidle, hs⟩ := hs
      unfold getReq at hs
      split at hs
      · simp only [Option.ite_none_left_eq_some] at hs
        obtain ⟨-, hs⟩ := hs
        split at hs
        · obtain rfl := Option.some.inj hs
          exact .inr ⟨i, _, s.conns, s.sub, rfl, .inl hidle⟩
        · obtain rfl := Option.some.inj hs
          exact .inr ⟨i, _, _, s.sub, rfl, .inl hidle⟩
      · cases hs
  | connect i fd =>
      simp only [DnsServer.step, Option.ite_none_right_eq_some] at hs
      obtain ⟨hidle, hs⟩ := hs
      unfold connect at hs
      split at hs
      · cases hs
      · obtain rfl := Option.some.inj hs
        exact .inr ⟨i, _, _, s.sub, rfl, .inl hidle⟩
  | close i fd =>
      simp only [DnsServer.step, Option.ite_none_right_eq_some] at hs
      obtain ⟨hidle, hs⟩ := hs
      unfold close at hs
      split at hs
      · simp only [Option.ite_none_right_eq_some] at hs
        obtain rfl := Option.some.inj hs.2
        exact .inr ⟨i, _, s.conns, s.sub, rfl, .inl hidle⟩
      · cases hs
  | proceed i =>
      have hbusy : ∀ pc, (s.workers i).pc = pc → pc ≠ .idle → (s.workers i).pc ≠ .idle :=
        fun pc hpc hne ↦ hpc ▸ hne
      cases h.proceeds hs with
      | subscribe hpc => exact .inr ⟨i, _, _, _, rfl, .inr (hbusy _ hpc (by simp))⟩
      | getHosts hpc => exact .inr ⟨i, _, _, _, rfl, .inr (hbusy _ hpc (by simp))⟩
      | sendMsg hpc _ => exact .inr ⟨i, _, _, _, rfl, .inr (hbusy _ hpc (by simp))⟩
      | makePublishMap hpc => exact .inr ⟨i, _, _, _, rfl, .inr (hbusy _ hpc (by simp))⟩
      | unsubscribe hpc => exact .inr ⟨i, _, _, _, rfl, .inr (hbusy _ hpc (by simp))⟩
      | erase hpc => exact .inr ⟨i, _, _, _, rfl, .inr (hbusy _ hpc (by simp))⟩

/-- The update thread leaves the workers where they are. -/
theorem updater_workers (a : Answers) (s : DnsServer) (j : ℕ) :
    (s.updater a).threadNum = s.threadNum ∧ ((s.updater a).workers j).pc = (s.workers j).pc := by
  unfold DnsServer.updater
  split
  · exact ⟨rfl, rfl⟩
  · split
    · refine ⟨rfl, ?_⟩
      simp only [setWorker, Function.update_apply]
      split
      · rename_i hk
        rw [hk]
      · rfl
    · exact ⟨rfl, rfl⟩
  · exact ⟨rfl, rfl⟩
  · exact ⟨rfl, rfl⟩

theorem threadNum_step (h : s.Inv) (hs : s.step e = some t) : t.threadNum = s.threadNum := by
  rcases step_cases h hs with ⟨a, -, rfl⟩ | ⟨i, w, conns, sub, rfl, -⟩
  · exact (updater_workers a s 0).1
  · rfl

/-- Only the workers of the pool do anything. -/
theorem busy_lt (h : dnsServer.Reachable s) (hbusy : (s.workers i).pc ≠ .idle) :
    i < s.threadNum := by
  induction h with
  | init hinit =>
      obtain ⟨threadNum, res, rfl⟩ := hinit
      exact absurd rfl hbusy
  | @step s t e hr hst ih =>
      rw [threadNum_step (inv_of_reachable hr) hst]
      rcases step_cases (inv_of_reachable hr) hst with ⟨a, -, rfl⟩ | ⟨j, w, conns, sub, rfl, hj⟩
      · rw [(updater_workers a s i).2] at hbusy
        exact ih hbusy
      · by_cases hij : i = j
        · subst hij
          exact hj.elim (fun hidle ↦ (of_isIdle hidle).2) ih
        · rw [after_workers_ne hij] at hbusy
          exact ih hbusy

/-- Tasks are only being sent while the thread publishes. -/
theorem sends_of_reachable (h : dnsServer.Reachable s) (hs : s.sending ≠ none) :
    ∃ mods, s.publisher.phase = .publish mods := by
  induction h with
  | init hinit =>
      obtain ⟨threadNum, res, rfl⟩ := hinit
      exact absurd rfl hs
  | @step s t e hr hst ih =>
      rcases step_cases (inv_of_reachable hr) hst with ⟨a, -, rfl⟩ | ⟨i, w, conns, sub, rfl, -⟩
      · by_cases hsend : s.sending = none
        · cases hphase : s.publisher.phase with
          | publish mods =>
              simp only [DnsServer.updater, hphase, hsend]
              exact ⟨mods, rfl⟩
          | checkVersion | loadRouteData | swap | loadChangeMod | dropSynchronousMod | ended =>
              simp only [DnsServer.updater, hphase] at hs
              exact absurd hsend hs
        · obtain ⟨mods, hmods⟩ := ih hsend
          obtain ⟨k, hk⟩ := Option.ne_none_iff_exists'.mp hsend
          simp only [DnsServer.updater, hmods, hk] at hs ⊢
          split at hs
          · rename_i hlt
            rw [if_pos hlt]
            exact ⟨mods, hmods⟩
          · exact absurd rfl hs
      · exact ih hs

/-! ## Every step of its own lowers the rank -/

/-- A worker that goes on does a step that it has in hand, and buffers at most one response;
or it looks into the push list. -/
theorem proceed_lowers (h : s.Inv) (hi : i < s.threadNum) (hs : s.proceed i = some t) :
    t.tasksLeft < s.tasksLeft ∨ t.tasksLeft = s.tasksLeft ∧ ∀ fd,
      t.workLeft + ((answersOf fd t).length - (answersOf fd s).length) < s.workLeft := by
  have hkeep : ∀ {w conns} (sub) (k : ℕ), w.tasks = (s.workers i).tasks →
      w.pc.work + k < (s.workers i).pc.work →
      (∀ fd, (answersOf fd (s.after i w conns sub)).length ≤ (answersOf fd s).length + k) →
      (s.after i w conns sub).tasksLeft = s.tasksLeft ∧ ∀ fd, (s.after i w conns sub).workLeft +
        ((answersOf fd (s.after i w conns sub)).length - (answersOf fd s).length) < s.workLeft := by
    intro w conns sub k ht hlt hlen
    have htasks : (s.after i w conns sub).tasksLeft + (s.workers i).tasks = s.tasksLeft + w.tasks :=
      tasksLeft_update hi rfl rfl rfl
    have hwork : (s.after i w conns sub).workLeft + (s.workers i).pc.work =
        s.workLeft + w.pc.work := workLeft_update hi rfl rfl
    refine ⟨by omega, fun fd ↦ ?_⟩
    have := hlen fd
    omega
  cases h.proceeds hs with
  | subscribe hpc =>
      refine .inr (hkeep _ 0 ?_ ?_ fun fd' ↦ Nat.le_refl _)
      · simp only [Worker.tasks, hpc, Pc.task]
      · simp only [hpc, Pc.work, List.length_nil]
        omega
  | getHosts hpc =>
      refine .inr (hkeep _ 0 ?_ ?_ fun fd' ↦ Nat.le_refl _)
      · simp only [Worker.tasks, hpc, Pc.task]
      · simp only [hpc, Pc.work]
        omega
  | @sendMsg fd a rest c hpc hc =>
      refine .inr (hkeep _ 1 ?_ ?_ fun fd' ↦ ?_)
      · simp only [Worker.tasks, hpc, task_next]
        rfl
      · have hle := work_next_le rest
        have hself : (Pc.sendMsg fd a rest).work = 2 + 4 * rest.length := rfl
        rw [hpc, hself]
        show (Pc.next rest).work + 1 < 2 + 4 * rest.length
        omega
      · by_cases hfd : fd' = fd
        · subst hfd
          simp [answersOf, DnsServer.after, hc]
        · simp only [answersOf, DnsServer.after, Table.getElem?_insert, if_neg hfd]
          exact Nat.le_succ _
  | @makePublishMap fds hpc =>
      refine .inl (tasksLeft_lt hi rfl rfl rfl ?_)
      have htask : (Pc.makePublishMap fds).task = 1 := rfl
      simp only [Worker.tasks, hpc, htask, task_next]
      exact Nat.lt_succ_self _
  | unsubscribe hpc =>
      refine .inr (hkeep _ 0 ?_ ?_ fun fd' ↦ Nat.le_refl _)
      · simp only [Worker.tasks, hpc, Pc.task]
      · simp only [hpc, Pc.work, List.length_cons]
        omega
  | @erase fd hpc =>
      refine .inr (hkeep _ 0 ?_ ?_ fun fd' ↦ ?_)
      · simp only [Worker.tasks, hpc, Pc.task]
      · rw [hpc]
        exact Nat.one_pos
      · simp only [answersOf, DnsServer.after, Table.getElem?_erase]
        split
        · exact Nat.zero_le _
        · exact Nat.le_refl _

/-- Work that is left gets less. -/
theorem works_lowers (h : dnsServer.Reachable s) (he : s.Works e) (hs : s.step e = some t) :
    t.tasksLeft < s.tasksLeft ∨ t.tasksLeft = s.tasksLeft ∧ ∀ fd,
      t.workLeft + ((answersOf fd t).length - (answersOf fd s).length) < s.workLeft := by
  cases e with
  | updater a =>
      obtain rfl := Option.some.inj hs
      obtain ⟨k, hk⟩ := Option.ne_none_iff_exists'.mp he
      obtain ⟨mods, hmods⟩ := sends_of_reachable h he
      simp only [DnsServer.updater, hmods, hk]
      split
      · rename_i hlt
        have hsum := sum_range_update hlt s.workers
          { s.workers k with queue := (s.workers k).queue + 1 } Worker.tasks
        simp only [tasksLeft, toSend, setWorker, hk]
        simp only [Worker.tasks] at hsum ⊢
        exact .inl (by omega)
      · simp only [tasksLeft, toSend, hk]
        exact .inl (by omega)
  | deal i =>
      simp only [DnsServer.step, Option.ite_none_right_eq_some] at hs
      obtain rfl := Option.some.inj hs.2
      obtain ⟨hpc, hi⟩ := of_isIdle hs.1
      have hpos : 0 < (s.workers i).queue := he
      refine .inl (tasksLeft_lt hi rfl rfl rfl ?_)
      simp only [Worker.tasks]
      omega
  | task i =>
      simp only [DnsServer.step, startTask, Option.ite_none_right_eq_some] at hs
      obtain ⟨hidle, hpos, hs⟩ := hs
      obtain rfl := Option.some.inj hs
      obtain ⟨hpc, hi⟩ := of_isIdle hidle
      refine .inl (tasksLeft_lt hi rfl rfl rfl ?_)
      simp only [Worker.tasks, hpc, Pc.task]
      omega
  | proceed i =>
      refine proceed_lowers (inv_of_reachable h) (busy_lt h fun hpc ↦ ?_) hs
      change s.proceed i = some t at hs
      rw [DnsServer.proceed, hpc] at hs
      cases hs
  | request | connect | close => exact absurd he id

theorem request_work {modid cmdid : UInt32} (hs : s.step (.request i fd modid cmdid) = some t) :
    t.tasksLeft = s.tasksLeft ∧ t.workLeft ≤ s.workLeft + 4 := by
  simp only [DnsServer.step, Option.ite_none_right_eq_some] at hs
  obtain ⟨hidle, hs⟩ := hs
  obtain ⟨hpc, hi⟩ := of_isIdle hidle
  have hstart : ∀ {w : Worker} {u : DnsServer}, u.workers = Function.update s.workers i w →
      u.threadNum = s.threadNum → u.sending = s.sending → w.tasks = (s.workers i).tasks →
      w.pc.work ≤ 4 → u.tasksLeft = s.tasksLeft ∧ u.workLeft ≤ s.workLeft + 4 := by
    intro w u hw hn hsend htasks hle
    have ht := tasksLeft_update hi hw hn hsend
    have hwork := workLeft_update hi hw hn
    omega
  unfold getReq at hs
  split at hs
  · simp only [Option.ite_none_left_eq_some] at hs
    obtain ⟨-, hs⟩ := hs
    split at hs
    · obtain rfl := Option.some.inj hs
      refine hstart rfl rfl rfl ?_ (Nat.le_succ 3)
      simp only [Worker.tasks, hpc, Pc.task]
    · obtain rfl := Option.some.inj hs
      refine hstart rfl rfl rfl ?_ (Nat.le_refl 4)
      simp only [Worker.tasks, hpc, Pc.task]
  · cases hs

/-! ## When no work is left -/

/-- A worker that has something in hand can go on. -/
theorem exists_proceed (hbusy : (s.workers i).pc ≠ .idle) : ∃ t, s.proceed i = some t := by
  cases hpc : (s.workers i).pc with
  | idle => exact absurd hpc hbusy
  | subscribe | getHosts | makePublishMap =>
      simp only [DnsServer.proceed, hpc]
      exact ⟨_, rfl⟩
  | sendMsg fd a rest =>
      simp only [DnsServer.proceed, hpc]
      split
      · exact ⟨_, rfl⟩
      · exact ⟨_, rfl⟩
  | unsubscribe fd mods =>
      cases mods with
      | nil =>
          simp only [DnsServer.proceed, hpc]
          exact ⟨_, rfl⟩
      | cons mod mods =>
          simp only [DnsServer.proceed, hpc]
          exact ⟨_, rfl⟩

theorem isIdle_of_pc (hi : i < s.threadNum) (hpc : (s.workers i).pc = .idle) :
    s.isIdle i = true := by
  rw [isIdle, hpc]
  exact decide_eq_true hi

/-- A server that has no work left is settled, and its workers wait. -/
theorem settled_of_rest (h : ∀ e t, s.Works e → s.step e ≠ some t) :
    s.Settled ∧ ∀ i < s.threadNum, (s.workers i).pc = .idle := by
  have hpc : ∀ i < s.threadNum, (s.workers i).pc = .idle := fun i _ ↦ by
    by_contra hbusy
    obtain ⟨t, ht⟩ := exists_proceed hbusy
    exact h (.proceed i) t trivial ht
  refine ⟨⟨?_, fun i hi ↦ ?_⟩, hpc⟩
  · by_contra hs
    exact h (.updater ⟨.error, 0, .error, .error⟩) _ hs rfl
  · have hidle := isIdle_of_pc hi (hpc i hi)
    refine ⟨?_, ?_, .inl (hpc i hi)⟩
    · by_contra hq
      refine h (.deal i) (s.deal i) (Nat.pos_of_ne_zero hq) ?_
      rw [DnsServer.step, if_pos hidle]
    · by_contra ha
      have hpos : 0 < (s.workers i).asyncTasks := Nat.pos_of_ne_zero ha
      obtain ⟨t, ht⟩ : ∃ t, s.step (.task i) = some t := by
        rw [DnsServer.step, if_pos hidle, startTask, if_pos hpos]
        exact ⟨_, rfl⟩
      exact h (.task i) t trivial ht

/-- Work that is left in the server changes no table, and needs no announcement. -/
theorem served_of_works (h : dnsServer.Reachable s) (he : s.Works e) (hs : s.step e = some t) :
    t.publisher.router = s.publisher.router ∧ s.Announced e ∧
      (¬s.Unpublished → ¬t.Unpublished) := by
  by_cases hupdater : ∃ a, e = .updater a
  · obtain ⟨a, rfl⟩ := hupdater
    obtain rfl := Option.some.inj hs
    obtain ⟨k, hk⟩ := Option.ne_none_iff_exists'.mp he
    obtain ⟨mods, hmods⟩ := sends_of_reachable h he
    refine ⟨?_, by simp only [Announced, hmods, hk], fun _ ↦ ?_⟩
    · simp only [DnsServer.updater, hmods, hk]
      split
      · rfl
      · simp only [Publisher.step, hmods]
    · simp only [DnsServer.updater, hmods, hk]
      split
      · exact not_unpublished_of_sending (k := k + 1) hmods rfl
      · exact not_unpublished rfl (by simp [Publisher.step, hmods])
          (by simp [Publisher.step, hmods])
  · obtain ⟨hpub, hsend, -, -⟩ := sameThread_step hs fun a ha ↦ hupdater ⟨a, ha⟩
    refine ⟨by rw [hpub], ?_, fun hun ↦ by rwa [Unpublished, hpub, hsend]⟩
    cases e with
    | updater a => exact absurd ⟨a, rfl⟩ hupdater
    | deal | task | request | connect | close | proceed => trivial

theorem tables_of_works (h : dnsServer.Reachable s) (he : s.Works e) (hs : s.step e = some t) :
    t.tables = s.tables := by
  have hpast : t.past = s.past := by
    by_cases hupdater : ∃ a, e = .updater a
    · obtain ⟨a, rfl⟩ := hupdater
      obtain rfl := Option.some.inj hs
      obtain ⟨k, hk⟩ := Option.ne_none_iff_exists'.mp he
      obtain ⟨mods, hmods⟩ := sends_of_reachable h he
      simp only [DnsServer.updater, hmods, hk]
      split <;> rfl
    · exact (sameThread_step hs fun a ha ↦ hupdater ⟨a, ha⟩).past
  rw [tables, tables, hpast, (served_of_works h he hs).1]

end DnsServer

end Ylars.Dns
