import Ylars.Lib.EventFd
import Ylars.Reactor.Epoll

/-!
# Task queues: `thread_queue`

A queue between threads: the tasks under a lock, and an event descriptor that a listener
waits on.  Every operation holds the lock from its beginning to its end, so a run of any
number of threads is a sequence of operations.

`handOver` is the queue with a record of what was sent and what was received;
`HandOver.Inv` says that the record and the tasks agree, and that the counter of the
descriptor is not zero when tasks are stored.
-/

namespace Ylars.Reactor

open Ylars.Lib

/-- A task queue, `thread_queue<T>`. -/
structure ThreadQueue (T κ : Type) where
  noticefd : Int
  /-- The counter behind `noticefd`. -/
  counter : EventFd
  tasks : List T
  loop : Option (EventLoop κ)

namespace ThreadQueue

variable {T κ : Type}

/-- The constructor. -/
def new (noticefd : Int) : ThreadQueue T κ where
  noticefd := noticefd
  counter := .zero
  tasks := []
  loop := none

/-- `send_task`. -/
def sendTask (task : T) (q : ThreadQueue T κ) : ThreadQueue T κ :=
  { q with
    tasks := q.tasks ++ [task]
    counter := q.counter.write 1 }

/-- `recv_tasks`: the tasks are swapped with those given, and the counter is taken. -/
def recvTasks (tasks : List T) (q : ThreadQueue T κ) : List T × ThreadQueue T κ :=
  (q.tasks, { q with
    tasks := tasks
    counter := q.counter.read })

/-- `set_event_loop`. -/
def setEventLoop (loop : EventLoop κ) (q : ThreadQueue T κ) : ThreadQueue T κ :=
  { q with loop := some loop }

/-- `set_task_cb`. -/
def setTaskCb (cb : κ) (q : ThreadQueue T κ) : Outcome (ThreadQueue T κ) :=
  match q.loop with
  | none => .error .nullDeref
  | some loop => .ok { q with loop := some (loop.addEvent q.noticefd .readable cb) }

/-- A callback waits for the notice descriptor. -/
def Listened (q : ThreadQueue T κ) : Prop :=
  ∃ loop, q.loop = some loop ∧ ∃ cb, loop.registered q.noticefd .epollin = some cb

/-- `epoll_wait` of the listener reports the notice descriptor, whenever it is called. -/
def Reported (q : ThreadQueue T κ) : Prop := q.Listened ∧ q.counter.Readable

end ThreadQueue

/-- A table of events as `add_event` and `del_event` leave it. -/
abbrev EventTable (κ : Type) := { loop : EventLoop κ // loop.Coherent }

/-- What the threads do with a queue. -/
inductive QueueAction (T κ : Type) where
  /-- A thread sends a task. -/
  | sendTask (thread : ℕ) (task : T)
  /-- A thread receives into an empty queue. -/
  | recvTasks (thread : ℕ)
  | setEventLoop (loop : EventTable κ)
  | setTaskCb (cb : κ)

/-- A queue, with what was sent and what was received. -/
structure HandOver (T κ : Type) where
  queue : ThreadQueue T κ
  /-- The tasks sent. -/
  sent : List T
  /-- The batches received. -/
  batches : List (List T)

namespace HandOver

variable {T κ : Type}

/-- A new queue. -/
def new (noticefd : Int) : HandOver T κ where
  queue := .new noticefd
  sent := []
  batches := []

/-- One operation. -/
def step (s : HandOver T κ) : QueueAction T κ → Outcome (HandOver T κ)
  | .sendTask _ task => .ok { s with
      queue := s.queue.sendTask task
      sent := s.sent ++ [task] }
  | .recvTasks _ =>
      let (batch, queue) := s.queue.recvTasks []
      .ok { s with
        queue := queue
        batches := s.batches ++ [batch] }
  | .setEventLoop loop => .ok { s with queue := s.queue.setEventLoop loop.1 }
  | .setTaskCb cb => do
      let queue ← s.queue.setTaskCb cb
      .ok { s with queue := queue }

end HandOver

/-- A queue and any number of threads. -/
def handOver (T κ : Type) : LTS (HandOver T κ) (QueueAction T κ) :=
  LTS.ofFn (fun s ↦ ∃ noticefd, s = HandOver.new noticefd) HandOver.step

namespace HandOver

variable {T κ : Type} {s t : HandOver T κ}

/-- What every operation keeps. -/
structure Inv (s : HandOver T κ) : Prop where
  /-- What was sent was received or is stored, in this order. -/
  delivered : s.batches.flatten ++ s.queue.tasks = s.sent
  /-- The counter tells whether tasks are stored. -/
  counted : s.queue.counter.Readable ↔ s.queue.tasks ≠ []
  /-- The listener has a coherent table. -/
  coherent : ∀ loop, s.queue.loop = some loop → loop.Coherent

theorem inv_new (noticefd : Int) : (new noticefd : HandOver T κ).Inv where
  delivered := rfl
  counted := ⟨fun h ↦ absurd h EventFd.not_readable_zero, fun h ↦ absurd rfl h⟩
  coherent loop h := by cases h

theorem setTaskCb_cases {q : ThreadQueue T κ} {cb : κ} {q' : ThreadQueue T κ}
    (h : q.setTaskCb cb = .ok q') :
    ∃ loop, q.loop = some loop ∧
      q' = { q with loop := some (loop.addEvent q.noticefd .readable cb) } := by
  unfold ThreadQueue.setTaskCb at h
  cases hl : q.loop with
  | none =>
      rw [hl] at h
      cases h
  | some loop =>
      rw [hl] at h
      exact ⟨loop, rfl, (Except.ok.inj h).symm⟩

/-- Every operation keeps the invariant. -/
theorem inv_step {a : QueueAction T κ} (h : s.Inv) (hst : s.step a = .ok t) : t.Inv := by
  cases a with
  | sendTask thread task =>
      obtain rfl := Except.ok.inj hst
      refine ⟨?_, ?_, h.coherent⟩
      · rw [← h.delivered]
        exact (List.append_assoc ..).symm
      · constructor
        · intro _
          exact List.append_ne_nil_of_right_ne_nil _ (List.cons_ne_nil _ _)
        · intro _
          exact EventFd.readable_write Nat.one_pos (by decide) _
  | recvTasks thread =>
      obtain rfl := Except.ok.inj hst
      refine ⟨?_, ?_, h.coherent⟩
      · show (s.batches ++ [s.queue.tasks]).flatten ++ [] = s.sent
        rw [List.flatten_append, List.flatten_singleton, List.append_nil]
        exact h.delivered
      · constructor
        · exact fun hr ↦ absurd hr (EventFd.not_readable_read s.queue.counter)
        · exact fun hne ↦ absurd rfl hne
  | setEventLoop loop =>
      obtain rfl := Except.ok.inj hst
      refine ⟨h.delivered, h.counted, fun loop' hl ↦ ?_⟩
      obtain rfl := Option.some.inj hl
      exact loop.2
  | setTaskCb cb =>
      obtain ⟨q, hq, ht⟩ := Outcome.bind_eq_ok.mp hst
      obtain rfl := Except.ok.inj ht
      obtain ⟨loop, hl, rfl⟩ := setTaskCb_cases hq
      refine ⟨h.delivered, h.counted, fun loop' hl' ↦ ?_⟩
      obtain rfl := Option.some.inj hl'
      exact (h.coherent loop hl).addEvent s.queue.noticefd .epollin cb

theorem inv_of_reachable (h : (handOver T κ).Reachable s) : s.Inv := by
  apply h.induction
  · rintro s ⟨noticefd, rfl⟩
    exact inv_new noticefd
  · exact fun s a t _ hi hst ↦ inv_step hi hst

/-- After `set_task_cb` a callback waits for the notice descriptor. -/
theorem listened_setTaskCb (h : s.Inv) {cb : κ} (hst : s.step (.setTaskCb cb) = .ok t) :
    t.queue.Listened := by
  obtain ⟨q, hq, ht⟩ := Outcome.bind_eq_ok.mp hst
  obtain rfl := Except.ok.inj ht
  obtain ⟨loop, hl, rfl⟩ := setTaskCb_cases hq
  refine ⟨_, rfl, ?_⟩
  rw [show (Mask.readable) = Event.epollin.mask from rfl,
    (h.coherent loop hl).registered_addEvent, if_pos ⟨rfl, rfl⟩]
  cases loop.registered s.queue.noticefd .epollin with
  | none => exact ⟨cb, rfl⟩
  | some cb' => exact ⟨cb', rfl⟩

end HandOver

/-- In every run the batches received and the tasks stored make up the tasks sent, in their
order; the notice descriptor is readable when tasks are stored and not otherwise; and a
listener is told of it from the moment it is registered. -/
theorem tasks_delivered (T κ : Type) (s : HandOver T κ) (h : (handOver T κ).Reachable s) :
    s.batches.flatten ++ s.queue.tasks = s.sent ∧
      (s.queue.counter.Readable ↔ s.queue.tasks ≠ []) ∧
      (s.queue.Listened → (s.queue.Reported ↔ s.queue.tasks ≠ [])) ∧
      ∀ cb t, s.step (.setTaskCb cb) = .ok t → (t.queue.Reported ↔ s.queue.tasks ≠ []) := by
  have hi := HandOver.inv_of_reachable h
  refine ⟨hi.delivered, hi.counted, fun hl ↦ (and_iff_right hl).trans hi.counted, ?_⟩
  intro cb t hst
  have hl := HandOver.listened_setTaskCb hi hst
  have ht := HandOver.inv_step hi hst
  obtain ⟨q, hq, rfl⟩ : ∃ q, s.queue.setTaskCb cb = .ok q ∧ t = { s with queue := q } := by
    obtain ⟨q, hq, ht⟩ := Outcome.bind_eq_ok.mp hst
    exact ⟨q, hq, (Except.ok.inj ht).symm⟩
  obtain ⟨loop, -, rfl⟩ := HandOver.setTaskCb_cases hq
  exact (and_iff_right hl).trans ht.counted

/-- Two tasks that are sent before a listener is registered are delivered to it. -/
theorem tasks_delivered_late :
    ∃ s t : HandOver ℕ ℕ, s.queue.tasks = [7, 8] ∧ s.sent = [7, 8] ∧
      s.step (.setTaskCb 1) = .ok t ∧ (t.queue.Reported ↔ s.queue.tasks ≠ []) := by
  have h₀ : (handOver ℕ ℕ).Reachable (.new 3) := .init ⟨3, rfl⟩
  have h₁ := h₀.next (.sendTask 1 7) rfl
  have h₂ := h₁.next (.sendTask 2 8) rfl
  have h₃ := h₂.next (.setEventLoop ⟨.new, EventLoop.coherent_new⟩) rfl
  exact ⟨_, _, rfl, rfl, rfl, (tasks_delivered ℕ ℕ _ h₃).2.2.2 1 _ rfl⟩

end Ylars.Reactor
