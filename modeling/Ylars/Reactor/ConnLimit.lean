import Mathlib.Algebra.BigOperators.Group.Finset.Basic
import Mathlib.Algebra.Order.Group.Multiset
import Mathlib.Tactic.Abel
import Ylars.Lib.Transition
import Ylars.Reactor.TcpServer
import Ylars.Reactor.ThreadQueue

/-!
# The connection limit: `do_accept` and the workers

`do_accept` compares the limit with the number of connections that are registered.  Without
worker threads it registers the connection itself, before it accepts the next one.  With
them the descriptor goes through the queue of a worker, the worker's own queue and the
constructor of the connection before it is registered, and the main thread accepts others
meanwhile.

`pending` is the descriptors on this way.  An accept is within the limit when registered
and pending connections together are; where all are, so is the number of connections, and
one that is not leads past the limit as soon as the workers catch up.
-/

namespace Ylars.Reactor

open Std (ExtTreeMap)
open Ylars.Lib

/-- A task for a worker, `thread_task`. -/
inductive ThreadTask where
  | newConn (sockfd : Int)
  | newTask (asynCb args : ℕ)
deriving DecidableEq, Repr

/-- The descriptor that a task carries. -/
def ThreadTask.sockfds : ThreadTask → Multiset Int
  | .newConn sockfd => {sockfd}
  | .newTask _ _ => 0

/-- A worker: its queue, and where it is in `deal_task`. -/
structure PoolThread (κ : Type) where
  taskQueue : ThreadQueue ThreadTask κ
  /-- The tasks received and not dealt with yet. -/
  tasks : List ThreadTask
  /-- A connection that has been constructed and not registered yet, with its address. -/
  conn : Option (Int × ℕ)

namespace PoolThread

variable {κ : Type}

/-- `send_task` on the queue of a worker. -/
def sendTask (task : ThreadTask) (w : PoolThread κ) : PoolThread κ :=
  { w with taskQueue := w.taskQueue.sendTask task }

/-- `deal_task` up to its loop. -/
def recvTasks (w : PoolThread κ) : Option (PoolThread κ) :=
  if w.tasks = [] ∧ w.conn = none then
    let (tasks, taskQueue) := w.taskQueue.recvTasks []
    some { w with
      taskQueue := taskQueue
      tasks := tasks }
  else none

/-- The loop of `deal_task`: the next task, with the connection constructed at `conn` if it
is for one. -/
def nextTask (conn : ℕ) (w : PoolThread κ) : Option (PoolThread κ) :=
  match w.conn, w.tasks with
  | none, .newConn sockfd :: tasks => some { w with
      tasks := tasks
      conn := some (sockfd, conn) }
  | none, .newTask _ _ :: tasks => some { w with tasks := tasks }
  | _, _ => none

/-- The descriptors on their way through a worker. -/
def pending (w : PoolThread κ) : Multiset Int :=
  ((w.taskQueue.tasks ++ w.tasks).map ThreadTask.sockfds).sum +
    match w.conn with
    | none => 0
    | some (connfd, _) => {connfd}

/-- The steps that a worker still has to take. -/
def work (w : PoolThread κ) : ℕ :=
  3 * w.taskQueue.tasks.length + 2 * w.tasks.length +
    match w.conn with
    | none => 0
    | some _ => 1

end PoolThread

/-- The workers and whose turn it is, `thread_pool`. -/
structure ThreadPool (κ : Type) where
  threadNum : ℕ
  threads : ℕ → PoolThread κ
  polling : ℕ
  polling_lt : polling < threadNum

namespace ThreadPool

variable {κ : Type}

/-- The constructor: `threadNum` workers with empty queues. -/
def new (threadNum : ℕ) (h : 0 < threadNum) (noticefd : ℕ → Int) : ThreadPool κ where
  threadNum := threadNum
  threads i := { taskQueue := .new (noticefd i), tasks := [], conn := none }
  polling := 0
  polling_lt := h

/-- Changing one worker. -/
def modify (i : ℕ) (w : PoolThread κ) (pool : ThreadPool κ) : ThreadPool κ :=
  { pool with threads := Function.update pool.threads i w }

/-- `add_conn_task`. -/
def addConnTask (sockfd : Int) (pool : ThreadPool κ) : ThreadPool κ :=
  { pool.modify pool.polling ((pool.threads pool.polling).sendTask (.newConn sockfd)) with
    polling := if pool.threadNum ≤ pool.polling + 1 then 0 else pool.polling + 1
    polling_lt := by
      have := pool.polling_lt
      simp only [modify]
      split <;> omega }

/-- The descriptors on their way through the workers. -/
def pending (pool : ThreadPool κ) : Multiset Int :=
  ∑ i ∈ Finset.range pool.threadNum, (pool.threads i).pending

/-- The steps that the workers still have to take. -/
def work (pool : ThreadPool κ) : ℕ := ∑ i ∈ Finset.range pool.threadNum, (pool.threads i).work

end ThreadPool

/-- What the threads do. -/
inductive LimitAction where
  /-- `do_accept` with the descriptor that `accept` returns, up to the test of the limit. -/
  | accept (fd : Int)
  /-- The rest of `do_accept`; `conn` is the address of a connection it makes itself. -/
  | handOver (conn : ℕ)
  /-- `add_async_task` of any thread, for one queue. -/
  | sendAsync (i asynCb args : ℕ)
  /-- `deal_task`: receive the tasks. -/
  | recvTasks (i : ℕ)
  /-- `deal_task`: take the next task, and construct the connection at `conn` if it is for
  one. -/
  | nextTask (i conn : ℕ)
  /-- `deal_task`: register the connection. -/
  | increaseConn (i : ℕ)
  /-- A connection is closed. -/
  | decreaseConn (connfd : Int)

/-- The server with its threads. -/
structure ConnLimit (κ : Type) where
  ser : TcpServer
  maxConnFd : Int
  threadPool : Option (ThreadPool κ)
  /-- The descriptor with which the main thread has passed the test in `do_accept`. -/
  accepted : Option Int

namespace ConnLimit

variable {κ : Type}

/-- The server before the first connection, with workers that have nothing to do. -/
def new (maxConnFd : Int) (threadPool : Option (ThreadPool κ)) : ConnLimit κ where
  ser := .new
  maxConnFd := maxConnFd
  threadPool := threadPool
  accepted := none

/-- The descriptors accepted and not registered yet. -/
def pending (s : ConnLimit κ) : Multiset Int :=
  (match s.accepted with
    | none => 0
    | some fd => {fd}) +
  match s.threadPool with
  | none => 0
  | some pool => pool.pending

/-- One step of a worker, if there is one of that number. -/
def stepThread (i : ℕ) (f : PoolThread κ → Option (PoolThread κ)) (s : ConnLimit κ) :
    Option (ConnLimit κ) :=
  match s.threadPool with
  | none => none
  | some pool =>
      if i < pool.threadNum then
        (f (pool.threads i)).map fun w ↦ { s with threadPool := some (pool.modify i w) }
      else none

/-- One step, where the thread is there to take it.  `accept` returns a descriptor that is
not open. -/
def step (s : ConnLimit κ) : LimitAction → Option (ConnLimit κ)
  | .accept fd =>
      if s.accepted = none ∧ 0 ≤ fd ∧ fd ∉ s.ser.conns ∧ fd ∉ s.pending then
        if s.maxConnFd < (s.ser.conns.size : Int) + 1 then some s
        else some { s with accepted := some fd }
      else none
  | .handOver conn =>
      match s.accepted with
      | none => none
      | some fd =>
          match s.threadPool with
          | some pool => some { s with
              threadPool := some (pool.addConnTask fd)
              accepted := none }
          | none => some { s with
              ser := s.ser.increaseConn fd conn
              accepted := none }
  | .sendAsync i asynCb args => s.stepThread i fun w ↦ some (w.sendTask (.newTask asynCb args))
  | .recvTasks i => s.stepThread i PoolThread.recvTasks
  | .nextTask i conn => s.stepThread i (PoolThread.nextTask conn)
  | .increaseConn i =>
      match s.threadPool with
      | none => none
      | some pool =>
          match (pool.threads i).conn with
          | none => none
          | some (connfd, conn) =>
              if i < pool.threadNum then some { s with
                ser := s.ser.increaseConn connfd conn
                threadPool := some (pool.modify i { pool.threads i with conn := none }) }
              else none
  | .decreaseConn connfd => some { s with ser := s.ser.decreaseConn connfd }

/-- Registered and pending connections together leave room for the one accepted, if it
passes the test. -/
def WithinLimit (s : ConnLimit κ) : LimitAction → Prop
  | .accept _ => s.maxConnFd ≤ s.ser.conns.size ∨
      (s.ser.conns.size : Int) + s.pending.card < s.maxConnFd
  | _ => True

end ConnLimit

/-- The server with any number of workers, or none. -/
def connLimit (κ : Type) (maxConnFd : Int) : LTS (ConnLimit κ) LimitAction where
  init s := s = ConnLimit.new maxConnFd none ∨
    ∃ threadNum h noticefd, s = ConnLimit.new maxConnFd (some (.new threadNum h noticefd))
  step s a t := s.step a = some t

/-! ## The descriptors on their way -/

namespace PoolThread

variable {κ : Type} {w w' : PoolThread κ}

theorem pending_sendTask (task : ThreadTask) :
    (w.sendTask task).pending = task.sockfds + w.pending := by
  simp only [pending, sendTask, ThreadQueue.sendTask, List.map_append, List.sum_append,
    List.map_cons, List.map_nil, List.sum_singleton]
  abel

/-- Receiving the tasks keeps the descriptors. -/
theorem pending_recvTasks (h : w.recvTasks = some w') : w'.pending = w.pending := by
  unfold recvTasks at h
  split at h
  · rename_i hw
    obtain rfl := Option.some.inj h
    simp only [pending, hw.1, List.append_nil, List.nil_append]
  · cases h

/-- A task becomes a connection with its descriptor. -/
theorem pending_nextTask {conn : ℕ} (h : w.nextTask conn = some w') : w'.pending = w.pending := by
  unfold nextTask at h
  split at h
  · rename_i sockfd tasks hconn htasks
    obtain rfl := Option.some.inj h
    simp only [pending, hconn, htasks, List.map_append, List.sum_append, List.map_cons,
      List.sum_cons, ThreadTask.sockfds]
    abel
  · rename_i asynCb args tasks hconn htasks
    obtain rfl := Option.some.inj h
    simp only [pending, hconn, htasks, List.map_append, List.sum_append, List.map_cons,
      List.sum_cons, ThreadTask.sockfds, zero_add]
  · cases h

/-- A worker with descriptors, and no connection to register, can go on. -/
theorem exists_step (hconn : w.conn = none) (hw : w.pending ≠ 0) :
    (∃ w', w.recvTasks = some w' ∧ w'.work < w.work) ∨
      ∃ w', w.nextTask 0 = some w' ∧ w'.work < w.work := by
  cases htasks : w.tasks with
  | nil =>
      have hne : w.taskQueue.tasks ≠ [] := by
        intro hnil
        simp [pending, hconn, htasks, hnil] at hw
      have hlen := List.length_pos_of_ne_nil hne
      refine .inl ⟨_, if_pos ⟨htasks, hconn⟩, ?_⟩
      simp only [work, hconn, htasks, List.length_nil]
      omega
  | cons task tasks =>
      refine .inr ?_
      unfold nextTask
      cases task with
      | newConn sockfd =>
          simp only [hconn, htasks]
          refine ⟨_, rfl, ?_⟩
          simp only [work, hconn, htasks, List.length_cons]
          omega
      | newTask asynCb args =>
          simp only [hconn, htasks]
          refine ⟨_, rfl, ?_⟩
          simp only [work, hconn, htasks, List.length_cons]
          omega

end PoolThread

namespace ThreadPool

variable {κ : Type} {pool : ThreadPool κ} {i : ℕ}

/-- Changing one worker exchanges its part of a sum over the workers. -/
theorem sum_modify {M : Type*} [AddCommMonoid M] (g : PoolThread κ → M) (hi : i < pool.threadNum)
    (w : PoolThread κ) :
    ∑ j ∈ Finset.range pool.threadNum, g ((pool.modify i w).threads j) + g (pool.threads i) =
      ∑ j ∈ Finset.range pool.threadNum, g (pool.threads j) + g w := by
  have hmem := Finset.mem_range.mpr hi
  rw [← Finset.add_sum_erase _ _ hmem, ← Finset.add_sum_erase (Finset.range _) _ hmem]
  have hrest : ∑ j ∈ (Finset.range pool.threadNum).erase i, g ((pool.modify i w).threads j) =
      ∑ j ∈ (Finset.range pool.threadNum).erase i, g (pool.threads j) := by
    refine Finset.sum_congr rfl fun j hj ↦ ?_
    simp only [modify, Function.update_of_ne (Finset.ne_of_mem_erase hj)]
  rw [hrest]
  simp only [modify, Function.update_self]
  abel

theorem pending_modify (hi : i < pool.threadNum) (w : PoolThread κ) :
    (pool.modify i w).pending + (pool.threads i).pending = pool.pending + w.pending :=
  sum_modify PoolThread.pending hi w

theorem pending_modify_eq (hi : i < pool.threadNum) {w : PoolThread κ}
    (hw : w.pending = (pool.threads i).pending) : (pool.modify i w).pending = pool.pending := by
  have h := pending_modify hi w
  rw [hw] at h
  exact add_right_cancel h

/-- `add_conn_task` puts one descriptor on its way. -/
theorem pending_addConnTask (sockfd : Int) :
    (pool.addConnTask sockfd).pending = {sockfd} + pool.pending := by
  have h := pending_modify pool.polling_lt ((pool.threads pool.polling).sendTask (.newConn sockfd))
  rw [PoolThread.pending_sendTask, ← add_assoc, add_comm pool.pending] at h
  exact add_right_cancel h

theorem work_modify (hi : i < pool.threadNum) (w : PoolThread κ) :
    (pool.modify i w).work + (pool.threads i).work = pool.work + w.work :=
  sum_modify PoolThread.work hi w

/-- A descriptor in a queue is three steps from being registered. -/
theorem work_addConnTask (sockfd : Int) : (pool.addConnTask sockfd).work = pool.work + 3 := by
  have h := work_modify pool.polling_lt ((pool.threads pool.polling).sendTask (.newConn sockfd))
  have hw : ((pool.threads pool.polling).sendTask (.newConn sockfd)).work =
      (pool.threads pool.polling).work + 3 := by
    simp only [PoolThread.work, PoolThread.sendTask, ThreadQueue.sendTask, List.length_append,
      List.length_singleton]
    omega
  rw [hw, ← add_assoc, add_right_comm] at h
  exact add_right_cancel h

theorem pending_new (threadNum : ℕ) (h : 0 < threadNum) (noticefd : ℕ → Int) :
    (new threadNum h noticefd : ThreadPool κ).pending = 0 :=
  Finset.sum_eq_zero fun _ _ ↦ rfl

end ThreadPool

namespace ConnLimit

variable {κ : Type} {s t : ConnLimit κ} {a : LimitAction}

/-- What one step does to the connections and to the descriptors on their way. -/
inductive Effect (s t : ConnLimit κ) : LimitAction → Prop
  /-- The limit is reached, and the descriptor is closed. -/
  | reject (fd : Int) : s.maxConnFd ≤ s.ser.conns.size → t = s → Effect s t (.accept fd)
  /-- One more descriptor is on its way. -/
  | accept (fd : Int) : ¬s.maxConnFd ≤ s.ser.conns.size → fd ∉ s.ser.conns → fd ∉ s.pending →
      t.ser.conns = s.ser.conns → t.pending = {fd} + s.pending → Effect s t (.accept fd)
  /-- A descriptor arrives. -/
  | register {a : LimitAction} (fd : Int) (conn : ℕ) : (∀ fd, a ≠ .accept fd) →
      s.pending = {fd} + t.pending → t.ser.conns = s.ser.conns.insert fd conn → Effect s t a
  /-- A connection is closed. -/
  | close (connfd : Int) : t.pending = s.pending → t.ser.conns = s.ser.conns.erase connfd →
      Effect s t (.decreaseConn connfd)
  /-- Descriptors move on. -/
  | quiet {a : LimitAction} : (∀ fd, a ≠ .accept fd) → t.pending = s.pending →
      t.ser.conns = s.ser.conns → Effect s t a

theorem effect_stepThread {i : ℕ} {f : PoolThread κ → Option (PoolThread κ)}
    (ha : ∀ fd, a ≠ .accept fd) (hf : ∀ w w', f w = some w' → w'.pending = w.pending)
    (h : s.stepThread i f = some t) : Effect s t a ∧ t.maxConnFd = s.maxConnFd := by
  unfold stepThread at h
  cases hpool : s.threadPool with
  | none =>
      rw [hpool] at h
      cases h
  | some pool =>
      simp only [hpool] at h
      split at h
      · rename_i hi
        obtain ⟨w, hw, rfl⟩ := Option.map_eq_some_iff.mp h
        refine ⟨.quiet ha ?_ rfl, rfl⟩
        simp only [pending, hpool, ThreadPool.pending_modify_eq hi (hf _ w hw)]
      · cases h

/-- Every step of the server has one of the effects on its descriptors. -/
theorem effect_of_step (h : s.step a = some t) : Effect s t a ∧ t.maxConnFd = s.maxConnFd := by
  cases a with
  | accept fd =>
      simp only [step] at h
      split at h
      · rename_i hfd
        obtain ⟨hacc, -, hconns, hpend⟩ := hfd
        split at h
        · rename_i hmax
          obtain rfl := Option.some.inj h
          exact ⟨.reject fd (by omega) rfl, rfl⟩
        · rename_i hmax
          obtain rfl := Option.some.inj h
          refine ⟨.accept fd (by omega) hconns hpend rfl ?_, rfl⟩
          simp only [pending, hacc, zero_add]
      · cases h
  | handOver conn =>
      simp only [step] at h
      cases hacc : s.accepted with
      | none =>
          rw [hacc] at h
          cases h
      | some fd =>
          cases hpool : s.threadPool with
          | none =>
              simp only [hacc, hpool] at h
              obtain rfl := Option.some.inj h
              refine ⟨.register fd conn (fun _ ↦ nofun) ?_ rfl, rfl⟩
              simp only [pending, hacc, hpool, zero_add]
          | some pool =>
              simp only [hacc, hpool] at h
              obtain rfl := Option.some.inj h
              refine ⟨.quiet (fun _ ↦ nofun) ?_ rfl, rfl⟩
              simp only [pending, hacc, hpool, ThreadPool.pending_addConnTask, zero_add]
  | sendAsync i asynCb args =>
      rw [step] at h
      refine effect_stepThread (fun _ ↦ nofun) (fun w w' hw ↦ ?_) h
      obtain rfl := Option.some.inj hw
      rw [PoolThread.pending_sendTask, ThreadTask.sockfds, zero_add]
  | recvTasks i =>
      rw [step] at h
      exact effect_stepThread (fun _ ↦ nofun) (fun _ _ hw ↦ PoolThread.pending_recvTasks hw) h
  | nextTask i conn =>
      rw [step] at h
      exact effect_stepThread (fun _ ↦ nofun) (fun _ _ hw ↦ PoolThread.pending_nextTask hw) h
  | increaseConn i =>
      simp only [step] at h
      cases hpool : s.threadPool with
      | none =>
          rw [hpool] at h
          cases h
      | some pool =>
          cases hconn : (pool.threads i).conn with
          | none =>
              simp only [hpool, hconn] at h
              cases h
          | some c =>
              obtain ⟨connfd, conn⟩ := c
              simp only [hpool, hconn] at h
              split at h
              · rename_i hi
                obtain rfl := Option.some.inj h
                refine ⟨.register connfd conn (fun _ ↦ nofun) ?_ rfl, rfl⟩
                have hmod := ThreadPool.pending_modify hi { pool.threads i with conn := none }
                have hw : (pool.threads i).pending = {connfd} +
                    PoolThread.pending { pool.threads i with conn := none } := by
                  simp only [PoolThread.pending, hconn]
                  abel
                rw [hw, ← add_assoc] at hmod
                have hmod := add_right_cancel hmod
                simp only [pending, hpool, ← hmod]
                abel
              · cases h
  | decreaseConn connfd =>
      obtain rfl := Option.some.inj h
      exact ⟨.close connfd rfl (TcpServer.conns_decreaseConn), rfl⟩

/-- Registered and pending connections. -/
def total (s : ConnLimit κ) : ℕ := s.ser.conns.size + s.pending.card

/-- The descriptors on their way are open, so they differ from each other and from those of
the registered connections. -/
structure Distinct (s : ConnLimit κ) : Prop where
  nodup : s.pending.Nodup
  notMem : ∀ fd ∈ s.pending, fd ∉ s.ser.conns

theorem distinct_new (h : s.pending = 0) : s.Distinct where
  nodup := by
    rw [h]
    exact Multiset.nodup_zero
  notMem fd hfd := by
    rw [h] at hfd
    exact absurd hfd (Multiset.notMem_zero fd)

/-- Every step keeps the descriptors apart. -/
theorem Distinct.of_effect (h : s.Distinct) (he : Effect s t a) : t.Distinct := by
  cases he with
  | reject fd _ ht => exact ht ▸ h
  | accept fd _ hconns hpend hc hp =>
      refine ⟨?_, fun fd' hfd' ↦ ?_⟩
      · rw [hp, Multiset.singleton_add]
        exact Multiset.nodup_cons.mpr ⟨hpend, h.nodup⟩
      · rw [hp, Multiset.singleton_add] at hfd'
        rw [hc]
        rcases Multiset.mem_cons.mp hfd' with rfl | hfd'
        · exact hconns
        · exact h.notMem fd' hfd'
  | register fd conn _ hp hc =>
      have hnodup := h.nodup
      rw [hp, Multiset.singleton_add] at hnodup
      obtain ⟨hnot, hnodup⟩ := Multiset.nodup_cons.mp hnodup
      refine ⟨hnodup, fun fd' hfd' hmem ↦ ?_⟩
      rw [hc, ExtTreeMap.mem_insert, Std.compare_eq_iff_eq] at hmem
      rcases hmem with rfl | hmem
      · exact hnot hfd'
      · refine h.notMem fd' ?_ hmem
        rw [hp]
        exact Multiset.mem_add.mpr (.inr hfd')
  | close connfd hp hc =>
      refine ⟨hp ▸ h.nodup, fun fd hfd hmem ↦ ?_⟩
      rw [hc] at hmem
      exact h.notMem fd (hp ▸ hfd) (ExtTreeMap.mem_of_mem_erase hmem)
  | quiet _ hp hc => exact ⟨hp ▸ h.nodup, fun fd hfd ↦ hc ▸ h.notMem fd (hp ▸ hfd)⟩

/-- The limit, for registered and pending connections together. -/
def Inv (s : ConnLimit κ) : Prop := (s.total : Int) ≤ s.maxConnFd

/-- An accept within the limit and every other step keep the limit. -/
theorem Inv.of_effect (h : s.Inv) (hm : t.maxConnFd = s.maxConnFd) (hw : s.WithinLimit a)
    (he : Effect s t a) : t.Inv := by
  unfold Inv total at *
  rw [hm]
  cases he with
  | reject fd _ ht => exact ht ▸ h
  | accept fd hlt _ _ hc hp =>
      rcases hw with hw | hw
      · exact absurd hw hlt
      · rw [hc, hp, Multiset.card_add, Multiset.card_singleton]
        omega
  | register fd conn _ hp hc =>
      rw [hp, Multiset.card_add, Multiset.card_singleton] at h
      have hsize : t.ser.conns.size ≤ s.ser.conns.size + 1 := by
        rw [hc]
        exact ExtTreeMap.size_insert_le
      omega
  | close connfd hp hc =>
      have hsize : t.ser.conns.size ≤ s.ser.conns.size := by
        rw [hc]
        exact ExtTreeMap.size_erase_le
      rw [hp]
      omega
  | quiet _ hp hc => rwa [hp, hc]

/-! ## Catching up -/

/-- Where no descriptor is accepted and no connection closed, the connections are as many
as before. -/
theorem total_of_effect (h : s.Distinct) (ha : ∀ fd, a ≠ .accept fd)
    (hd : ∀ fd, a ≠ .decreaseConn fd) (he : Effect s t a) : t.total = s.total := by
  unfold total
  cases he with
  | reject fd => exact absurd rfl (ha fd)
  | accept fd => exact absurd rfl (ha fd)
  | register fd conn _ hp hc =>
      have hnot : ¬s.ser.conns.contains fd = true := by
        refine h.notMem fd ?_
        rw [hp]
        exact Multiset.mem_add.mpr (.inl (Multiset.mem_singleton_self fd))
      rw [hc, hp, ExtTreeMap.size_insert, if_neg hnot, Multiset.card_add, Multiset.card_singleton]
      omega
  | close fd => exact absurd rfl (hd fd)
  | quiet _ hp hc => rw [hp, hc]

/-- The steps that the threads still have to take. -/
def work (s : ConnLimit κ) : ℕ :=
  (match s.accepted with
    | none => 0
    | some _ => 4) +
  match s.threadPool with
  | none => 0
  | some pool => pool.work

/-- While a descriptor is on its way, a thread can take it a step further. -/
theorem exists_progress (hp : s.pending ≠ 0) :
    ∃ a t, s.step a = some t ∧ (∀ fd, a ≠ .accept fd) ∧ (∀ fd, a ≠ .decreaseConn fd) ∧
      t.work < s.work := by
  cases hacc : s.accepted with
  | some fd =>
      cases hpool : s.threadPool with
      | none =>
          refine ⟨.handOver 0, _, by simp only [step, hacc, hpool]; rfl, fun _ ↦ nofun,
            fun _ ↦ nofun, ?_⟩
          simp [work, hacc, hpool]
      | some pool =>
          refine ⟨.handOver 0, _, by simp only [step, hacc, hpool]; rfl, fun _ ↦ nofun,
            fun _ ↦ nofun, ?_⟩
          simp only [work, hacc, hpool, ThreadPool.work_addConnTask]
          omega
  | none =>
      cases hpool : s.threadPool with
      | none => exact absurd (by simp [pending, hacc, hpool]) hp
      | some pool =>
          -- some worker has one of the descriptors
          obtain ⟨i, hi, hw⟩ : ∃ i < pool.threadNum, (pool.threads i).pending ≠ 0 := by
            by_contra hno
            simp only [not_exists, not_and, not_not] at hno
            refine hp ?_
            simp only [pending, hacc, hpool, zero_add]
            exact Finset.sum_eq_zero fun i hi ↦ hno i (Finset.mem_range.mp hi)
          have hwork : ∀ {w : PoolThread κ} {t : ConnLimit κ}, t.accepted = none →
              t.threadPool = some (pool.modify i w) → w.work < (pool.threads i).work →
              t.work < s.work := by
            intro w t ha ht hlt
            have h := ThreadPool.work_modify hi w
            simp only [work, hacc, hpool, ha, ht]
            omega
          have hthread : ∀ {f w}, f (pool.threads i) = some w →
              s.stepThread i f = some { s with threadPool := some (pool.modify i w) } := by
            intro f w hf
            simp only [stepThread, hpool, if_pos hi, hf, Option.map_some]
          cases hconn : (pool.threads i).conn with
          | some c =>
              refine ⟨.increaseConn i, { s with
                ser := s.ser.increaseConn c.1 c.2
                threadPool := some (pool.modify i { pool.threads i with conn := none }) },
                by simp only [step, hpool, hconn, if_pos hi], fun _ ↦ nofun, fun _ ↦ nofun,
                hwork hacc rfl ?_⟩
              simp [PoolThread.work, hconn]
          | none =>
              rcases PoolThread.exists_step hconn hw with ⟨w, hstep, hlt⟩ | ⟨w, hstep, hlt⟩
              · exact ⟨.recvTasks i, { s with threadPool := some (pool.modify i w) },
                  hthread hstep, fun _ ↦ nofun, fun _ ↦ nofun, hwork hacc rfl hlt⟩
              · exact ⟨.nextTask i 0, { s with threadPool := some (pool.modify i w) },
                  hthread hstep, fun _ ↦ nofun, fun _ ↦ nofun, hwork hacc rfl hlt⟩

/-- The threads can catch up without accepting and closing, and then every descriptor is
registered. -/
theorem exists_catchUp (maxConnFd : Int) (h : s.Distinct) :
    ∃ as t, (connLimit κ maxConnFd).Run s as t ∧ (∀ a ∈ as, ∀ fd, a ≠ .accept fd) ∧
      t.ser.conns.size = s.total := by
  induction hn : s.work using Nat.strongRecOn generalizing s with
  | ind n ih =>
      by_cases hp : s.pending = 0
      · exact ⟨[], s, .nil s, by simp, by simp [total, hp]⟩
      · obtain ⟨a, t, hst, ha, hd, hlt⟩ := exists_progress hp
        obtain ⟨he, -⟩ := effect_of_step hst
        obtain ⟨as, u, hrun, has, hsize⟩ := ih t.work (hn ▸ hlt) (h.of_effect he) rfl
        refine ⟨a :: as, u, .cons hst hrun, ?_, hsize.trans (total_of_effect h ha hd he)⟩
        intro a' ha'
        rcases List.mem_cons.mp ha' with rfl | ha'
        · exact ha
        · exact has a' ha'

/-! ## Runs -/

variable {maxConnFd : Int}

theorem new_spec (hmax : 1 ≤ maxConnFd) (h : (connLimit κ maxConnFd).init s) :
    s.Inv ∧ s.Distinct ∧ s.maxConnFd = maxConnFd := by
  have hp : s.pending = 0 ∧ s.ser = .new ∧ s.maxConnFd = maxConnFd := by
    rcases h with rfl | ⟨threadNum, hpos, noticefd, rfl⟩
    · exact ⟨rfl, rfl, rfl⟩
    · refine ⟨?_, rfl, rfl⟩
      simp only [pending, new, zero_add, ThreadPool.pending_new]
  obtain ⟨hp, hser, hm⟩ := hp
  refine ⟨?_, distinct_new hp, hm⟩
  have hsize : s.ser.conns.size = 0 := by
    rw [hser]
    rfl
  rw [Inv, total, hp, hm, hsize]
  exact (by decide : (((0 + Multiset.card (0 : Multiset Int) : ℕ)) : Int) ≤ 1).trans hmax

theorem inv_of_reachable (hmax : 1 ≤ maxConnFd)
    (h : ((connLimit κ maxConnFd).restrict WithinLimit).Reachable s) :
    s.Inv ∧ s.Distinct ∧ s.maxConnFd = maxConnFd := by
  refine LTS.Reachable.induction (I := fun s ↦ s.Inv ∧ s.Distinct ∧ s.maxConnFd = maxConnFd) ?_ ?_ h
  · exact fun s hi ↦ new_spec hmax hi
  · rintro s a t - ⟨hinv, hdist, hm⟩ ⟨hw, hst⟩
    obtain ⟨he, hm'⟩ := effect_of_step hst
    exact ⟨hinv.of_effect hm' hw he, hdist.of_effect he, hm'.trans hm⟩

/-- Where nothing is accepted the limit is kept. -/
theorem Inv.of_run (h : s.Inv) {as : List LimitAction} (hrun : (connLimit κ maxConnFd).Run s as t)
    (has : ∀ a ∈ as, ∀ fd, a ≠ .accept fd) : t.Inv := by
  induction hrun with
  | nil s => exact h
  | @cons s t u a as hst _ ih =>
      obtain ⟨he, hm⟩ := effect_of_step hst
      have hw : s.WithinLimit a := by
        cases a with
        | accept fd => exact absurd rfl (has _ (List.mem_cons_self ..) fd)
        | _ => trivial
      exact ih (h.of_effect hm hw he) fun a' ha' ↦ has a' (List.mem_cons_of_mem _ ha')

theorem Inv.size_le (h : s.Inv) : (s.ser.conns.size : Int) ≤ s.maxConnFd := by
  unfold Inv total at h
  omega

/-- **The limit is kept exactly by the accepts within it.**  In every state that steps
within the limit lead to, the connections are at most as many as allowed; and a step from
there is within the limit if and only if the connections stay so when the threads go on
without accepting another one. -/
theorem size_le_iff_withinLimit (hmax : 1 ≤ maxConnFd)
    (h : ((connLimit κ maxConnFd).restrict WithinLimit).Reachable s) :
    (s.ser.conns.size : Int) ≤ maxConnFd ∧
    ∀ a t, s.step a = some t →
      ((∀ as u, (connLimit κ maxConnFd).Run t as u → (∀ a' ∈ as, ∀ fd, a' ≠ .accept fd) →
        (u.ser.conns.size : Int) ≤ maxConnFd) ↔ s.WithinLimit a) := by
  obtain ⟨hinv, hdist, hm⟩ := inv_of_reachable hmax h
  refine ⟨hm ▸ hinv.size_le, fun a t hst ↦ ?_⟩
  obtain ⟨he, hm'⟩ := effect_of_step hst
  constructor
  · intro hkept
    by_contra hw
    -- the threads catch up with what has been accepted
    obtain ⟨as, u, hrun, has, hsize⟩ := exists_catchUp maxConnFd (hdist.of_effect he)
    have hle := hkept as u hrun has
    rw [hsize] at hle
    cases he with
    | reject fd hfull => exact hw (.inl hfull)
    | accept fd _ _ _ hc hp =>
        simp only [WithinLimit, not_or, not_le, not_lt] at hw
        rw [total, hc, hp, Multiset.card_add, Multiset.card_singleton] at hle
        omega
    | register fd conn ha => cases a with
      | accept fd => exact ha fd rfl
      | _ => exact hw trivial
    | close fd => exact hw trivial
    | quiet ha => cases a with
      | accept fd => exact ha fd rfl
      | _ => exact hw trivial
  · intro hw as u hrun has
    have hinv' := (hinv.of_effect hm' hw he).of_run hrun has
    have hmax' : u.maxConnFd = maxConnFd := by
      refine LTS.Run.invariant (I := fun u ↦ u.maxConnFd = maxConnFd) ?_ hrun (hm'.trans hm)
      exact fun s a t hs hst ↦ (effect_of_step hst).2.trans hs
    exact hmax' ▸ hinv'.size_le

/-- Workers do not come and go. -/
theorem threadPool_of_step (h : s.step a = some t) (ht : t.threadPool = none) :
    s.threadPool = none := by
  cases hpool : s.threadPool with
  | none => rfl
  | some pool =>
      have hthread : ∀ {i f}, s.stepThread i f = some t → t.threadPool ≠ none := by
        intro i f hf
        simp only [stepThread, hpool] at hf
        split at hf
        · obtain ⟨w, -, rfl⟩ := Option.map_eq_some_iff.mp hf
          exact nofun
        · cases hf
      cases a with
      | accept fd =>
          simp only [step] at h
          split at h
          · split at h <;> obtain rfl := Option.some.inj h <;> exact hpool.symm.trans ht
          · cases h
      | handOver conn =>
          simp only [step, hpool] at h
          split at h
          · cases h
          · obtain rfl := Option.some.inj h
            cases ht
      | sendAsync i asynCb args =>
          rw [step] at h
          exact absurd ht (hthread h)
      | recvTasks i =>
          rw [step] at h
          exact absurd ht (hthread h)
      | nextTask i conn =>
          rw [step] at h
          exact absurd ht (hthread h)
      | increaseConn i =>
          simp only [step, hpool] at h
          split at h
          · cases h
          · split at h
            · obtain rfl := Option.some.inj h
              cases ht
            · cases h
      | decreaseConn connfd =>
          obtain rfl := Option.some.inj h
          exact hpool.symm.trans ht

/-- Without workers every accept is within the limit. -/
theorem restrict_of_no_workers (h : (connLimit κ maxConnFd).Reachable s)
    (hpool : s.threadPool = none) :
    ((connLimit κ maxConnFd).restrict WithinLimit).Reachable s := by
  induction h with
  | init hi => exact .init hi
  | @step s t a _ hst ih =>
      have hpool' := threadPool_of_step hst hpool
      refine (ih hpool').step ⟨?_, hst⟩
      cases a with
      | accept fd =>
          -- nothing is on its way when the next descriptor is accepted
          have hacc : s.accepted = none := by
            by_contra hne
            change step s (.accept fd) = some t at hst
            simp [step, hne] at hst
          have hp : s.pending = 0 := by simp [pending, hacc, hpool']
          simp only [WithinLimit, hp, Multiset.card_zero]
          omega
      | _ => trivial

theorem size_le_of_no_workers (hmax : 1 ≤ maxConnFd) (h : (connLimit κ maxConnFd).Reachable s)
    (hpool : s.threadPool = none) : (s.ser.conns.size : Int) ≤ maxConnFd := by
  obtain ⟨hinv, -, hm⟩ := inv_of_reachable hmax (restrict_of_no_workers h hpool)
  exact hm ▸ hinv.size_le

/-- A server with a worker and a limit of one: when the worker has registered the connection that
was accepted first, the limit is reached, and the accept of another descriptor is within the limit,
for it is rejected. -/
theorem size_le_iff_withinLimit_first :
    ∃ s : ConnLimit Unit, s.ser.conns.size = 1 ∧ (s.ser.conns.size : Int) ≤ 1 ∧
      s.WithinLimit (.accept 9) ∧
      ∀ as u, (connLimit Unit 1).Run s as u → (∀ a' ∈ as, ∀ fd, a' ≠ .accept fd) →
        (u.ser.conns.size : Int) ≤ 1 := by
  have h₀ : ((connLimit Unit 1).restrict WithinLimit).Reachable
      (new 1 (some (.new 1 Nat.one_pos fun _ ↦ 4))) :=
    .init (.inr ⟨1, Nat.one_pos, fun _ ↦ 4, rfl⟩)
  have h₁ := h₀.next_restrict (.accept 8) (.inr (by decide)) rfl
  have h₂ := h₁.next_restrict (.handOver 0) trivial rfl
  have h₃ := h₂.next_restrict (.recvTasks 0) trivial rfl
  have h₄ := h₃.next_restrict (.nextTask 0 100) trivial rfl
  have h₅ := h₄.next_restrict (.increaseConn 0) trivial rfl
  obtain ⟨hle, hiff⟩ := size_le_iff_withinLimit (by decide) h₅
  refine ⟨_, ?_, hle, .inl ?_, (hiff (.accept 9) _ rfl).mpr (.inl ?_)⟩ <;> decide

/-- Two connections with a limit of one: both are accepted before a worker registers the
first. -/
theorem size_exceeds_limit :
    ∃ s, (connLimit Unit 1).Reachable s ∧ ¬(s.ser.conns.size : Int) ≤ 1 := by
  have h : (connLimit Unit 1).Reachable (new 1 (some (.new 2 Nat.two_pos fun _ ↦ 4))) :=
    .init (.inr ⟨2, Nat.two_pos, fun _ ↦ 4, rfl⟩)
  obtain ⟨t, ht, hsize⟩ : ∃ t, [.accept 8, .handOver 0, .accept 9, .handOver 0, .recvTasks 0,
      .nextTask 0 100, .increaseConn 0, .recvTasks 1, .nextTask 1 101, .increaseConn 1].foldlM step
      (new 1 (some (.new 2 Nat.two_pos fun _ ↦ 4)) : ConnLimit Unit) = some t ∧
      ¬(t.ser.conns.size : Int) ≤ 1 := ⟨_, rfl, by decide⟩
  exact ⟨t, h.run (.foldlM (fun _ _ _ h ↦ h) ht), hsize⟩

end ConnLimit

end Ylars.Reactor
