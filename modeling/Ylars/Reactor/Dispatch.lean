import Ylars.Reactor.Epoll

/-!
# Event dispatch: `start_process`

One turn of the inner loop looks up the descriptor of a fired event and calls one of its
callbacks.  The descriptor that the callback is given is that of the first fired event,
whichever the turn is; a missing callback makes the loop remove an event from the
descriptor whose number is the value of `events`; and a descriptor that has no read
callback has that callback called on `EPOLLHUP` and `EPOLLERR`.

`dispatch` is the loop over one batch.  What a callback does to the table is any list of
calls, so the turns that follow find any table that callbacks can leave.
-/

namespace Ylars.Reactor

open Ylars.Lib

/-- `MAXEVENTS`. -/
def maxEvents : ℕ := 10

/-- A fired event, `_fired_evs[i]`. -/
structure Fired where
  fd : Int
  epollin : Bool
  epollout : Bool
  epollhup : Bool
  epollerr : Bool
deriving DecidableEq, Repr

namespace Fired

/-- The value of `events`. -/
def events (ev : Fired) : Int :=
  ev.epollin.toInt + 4 * ev.epollout.toInt + 8 * ev.epollerr.toInt + 16 * ev.epollhup.toInt

/-- The event whose callback answers a fired event. -/
def slot (ev : Fired) : Event :=
  if ev.epollin then .epollin else if ev.epollout then .epollout else .epollin

/-- A fired event is not empty, and among the events of a mask, `EPOLLHUP` and
`EPOLLERR`. -/
structure Within (mask : Mask) (ev : Fired) : Prop where
  nonempty : ev.epollin ∨ ev.epollout ∨ ev.epollhup ∨ ev.epollerr
  epollin : ev.epollin → mask.epollin
  epollout : ev.epollout → mask.epollout

end Fired

/-- What a turn of the loop calls. -/
inductive Turn (κ : Type) where
  /-- The read or the write callback, which may be null, with a descriptor. -/
  | call (slot : Event) (cb : Option κ) (fd : Int)
  | delEvent (evnfd : Int)
  | delEventMask (evnfd : Int) (mask : Mask)

namespace EventLoop

variable {κ : Type}

/-- A turn of the inner loop of `start_process`; `first` is `_fired_evs->data.fd`. -/
def turn (first : Int) (ev : Fired) (loop : EventLoop κ) : Turn κ :=
  match loop.ioEvns[ev.fd]? with
  | none => .delEvent ev.fd
  | some evn =>
      if ev.fd ∉ loop.lfds then .delEvent ev.fd
      else if ev.epollin then
        match evn.readCb with
        | none => .delEventMask ev.events .readable
        | some cb => .call .epollin (some cb) first
      else if ev.epollout then
        match evn.writeCb with
        | none => .delEventMask ev.events .writable
        | some cb => .call .epollout (some cb) first
      else if ev.epollhup || ev.epollerr then
        match evn.readCb, evn.writeCb with
        | some cb, _ => .call .epollin (some cb) first
        -- the read callback is called here too
        | none, some _ => .call .epollin none first
        | none, none => .delEvent ev.fd
      else .delEvent ev.fd

/-- The calls that a callback makes to the table. -/
def runOps (ops : List (LoopOp κ)) (loop : EventLoop κ) : Outcome (EventLoop κ) :=
  ops.foldlM LoopOp.run loop

/-- What a turn does to the table; the callback makes the calls `ops`. -/
def take (ops : List (LoopOp κ)) (loop : EventLoop κ) : Turn κ → Outcome (EventLoop κ)
  | .call _ none _ => .error .nullDeref
  | .call _ (some _) _ => loop.runOps ops
  | .delEvent evnfd => .ok (loop.delEvent evnfd)
  | .delEventMask evnfd mask => loop.delEventMask evnfd mask

end EventLoop

/-- The loop over one batch. -/
structure Dispatch (κ : Type) where
  loop : EventLoop κ
  /-- The fired events. -/
  batch : List Fired
  /-- Those whose turn has not come. -/
  pending : List Fired

namespace Dispatch

variable {κ : Type}

/-- The descriptor of the first fired event. -/
def first (s : Dispatch κ) : Int := (s.batch.head?.map Fired.fd).getD 0

/-- What a batch starts from: a table as calls have left it, and fired events that the table
asks for. -/
structure Initial (s : Dispatch κ) : Prop where
  table : ∃ valid e, (epoll κ valid).Reachable e ∧ e.loop = s.loop
  size : 1 ≤ s.batch.length ∧ s.batch.length ≤ maxEvents
  fired : ∀ ev ∈ s.batch, ∃ mask, s.loop.maskOf ev.fd = some mask ∧ ev.Within mask
  pending : s.pending = s.batch

/-- One turn. -/
def Step (s : Dispatch κ) (ops : List (LoopOp κ)) (t : Dispatch κ) : Prop :=
  ∃ ev rest loop, s.pending = ev :: rest ∧ s.loop.take ops (s.loop.turn s.first ev) = .ok loop ∧
    t = { s with
      loop := loop
      pending := rest }

end Dispatch

/-- One batch, with any callbacks. -/
def dispatch (κ : Type) : LTS (Dispatch κ) (List (LoopOp κ)) where
  init := Dispatch.Initial
  step := Dispatch.Step

/-- A turn is faithful: for a descriptor that is registered it calls a callback that is
registered for it, with that descriptor, and events are removed from descriptors of the
batch only. -/
structure Faithful {κ : Type} (batch : List Fired) (loop : EventLoop κ) (ev : Fired)
    (t : Turn κ) : Prop where
  called : ev.fd ∈ loop.lfds →
    ∃ slot cb, t = .call slot (some cb) ev.fd ∧ loop.registered ev.fd slot = some cb
  removed : ∀ fd, (t = .delEvent fd ∨ ∃ mask, t = .delEventMask fd mask) →
    ∃ ev' ∈ batch, ev'.fd = fd

namespace EventLoop

variable {κ : Type} {loop loop' : EventLoop κ} {first fd : Int} {ev : Fired} {evn : IoEvent κ}
  {slot : Event} {cb : Option κ}

theorem turn_of_none (first : Int) (h : loop.ioEvns[ev.fd]? = none) :
    loop.turn first ev = .delEvent ev.fd := by
  rw [turn, h]

/-- A callback is called with the first descriptor, and it is that of the event's slot. -/
theorem turn_eq_call (h : loop.turn first ev = .call slot cb fd) : fd = first ∧ slot = ev.slot := by
  unfold turn at h
  cases he : loop.ioEvns[ev.fd]? with
  | none =>
      rw [he] at h
      cases h
  | some evn =>
      simp only [he] at h
      unfold Fired.slot
      repeat' split at h
      all_goals cases h
      -- what is left are the calls, in the order of the events
      all_goals exact ⟨rfl, by simp [*]⟩

/-- When the event's slot is in the mask, the callback registered for it is called. -/
theorem turn_of_has (first : Int) (hc : loop.Coherent) (he : loop.ioEvns[ev.fd]? = some evn)
    (hne : ev.epollin ∨ ev.epollout ∨ ev.epollhup ∨ ev.epollerr)
    (hm : evn.mask.has ev.slot = true) :
    ∃ cb, loop.turn first ev = .call ev.slot (some cb) first ∧
      loop.registered ev.fd ev.slot = some cb := by
  obtain ⟨cb, hcb⟩ := hc.callback ev.fd evn ev.slot he hm
  have hmem : ev.fd ∈ loop.lfds := (hc.keys _).mpr (Table.mem_iff_getElem?.mpr ⟨evn, he⟩)
  refine ⟨cb, ?_, by rw [registered_of_some he, if_pos hm, hcb]⟩
  simp only [turn, he, hmem, not_true_eq_false, if_false]
  unfold Fired.slot at hcb ⊢
  by_cases hin : ev.epollin = true
  · rw [if_pos hin] at hcb ⊢
    rw [if_pos hin, show evn.readCb = some cb from hcb]
  · rw [if_neg hin] at hcb ⊢
    rw [if_neg hin]
    by_cases hout : ev.epollout = true
    · rw [if_pos hout] at hcb ⊢
      rw [if_pos hout, show evn.writeCb = some cb from hcb]
    · rw [if_neg hout] at hcb ⊢
      have hother : (ev.epollhup || ev.epollerr) = true := by simpa [hin, hout] using hne
      rw [if_neg hout, if_pos hother, show evn.readCb = some cb from hcb]

/-- The calls of a callback keep a table coherent. -/
theorem Coherent.runOps {ops : List (LoopOp κ)} (hc : loop.Coherent)
    (h : loop.runOps ops = .ok loop') : loop'.Coherent := by
  induction ops generalizing loop with
  | nil =>
      obtain rfl := Except.ok.inj h
      exact hc
  | cons op ops ih =>
      rw [EventLoop.runOps, List.foldlM_cons] at h
      obtain ⟨loop₁, h₁, h₂⟩ := Outcome.bind_eq_ok.mp h
      exact ih (hc.run h₁) h₂

/-- A turn keeps the table coherent. -/
theorem Coherent.take {ops : List (LoopOp κ)} {t : Turn κ} (hc : loop.Coherent)
    (h : loop.take ops t = .ok loop') : loop'.Coherent := by
  cases t with
  | call slot cb fd =>
      cases cb with
      | none => cases h
      | some cb => exact hc.runOps h
  | delEvent fd =>
      obtain rfl := Except.ok.inj h
      exact hc.delEvent fd
  | delEventMask fd mask => exact hc.delEventMask h

end EventLoop

namespace Dispatch

variable {κ : Type} {s t : Dispatch κ}

/-- What holds at every turn of a batch. -/
structure Inv (s : Dispatch κ) : Prop where
  coherent : s.loop.Coherent
  /-- The events that wait are events of the batch. -/
  suffix : s.pending <:+ s.batch
  nonempty : ∀ ev ∈ s.batch, ev.epollin ∨ ev.epollout ∨ ev.epollhup ∨ ev.epollerr

/-- A batch begins with a coherent table. -/
theorem Initial.inv (h : s.Initial) : s.Inv where
  coherent := by
    obtain ⟨valid, e, he, hl⟩ := h.table
    rw [← hl]
    exact (Epoll.inv_of_reachable he).coherent
  suffix := ⟨[], h.pending⟩
  nonempty ev hev := by
    obtain ⟨mask, -, hw⟩ := h.fired ev hev
    exact hw.nonempty

/-- Every turn keeps the table of a batch coherent. -/
theorem inv_step {ops : List (LoopOp κ)} (h : s.Inv) (hst : s.Step ops t) : t.Inv := by
  obtain ⟨ev, rest, loop, hp, hl, rfl⟩ := hst
  refine ⟨h.coherent.take hl, ?_, h.nonempty⟩
  have hsuf := h.suffix
  rw [hp] at hsuf
  exact (List.suffix_cons ev rest).trans hsuf

/-- The invariant holds at every turn, whatever the callbacks do. -/
theorem inv_of_reachable (h : (dispatch κ).Reachable s) : s.Inv := by
  apply h.induction
  · exact fun s hi ↦ hi.inv
  · exact fun s ops t _ hi hst ↦ inv_step hi hst

end Dispatch

/-- At every turn of every batch, whatever the callbacks of the turns before have done: the turn
is faithful when its descriptor, if it is still registered, is that of the first fired
event and the event's slot is still in the mask, and not otherwise. -/
theorem faithful_iff {κ : Type} {s : Dispatch κ} (h : (dispatch κ).Reachable s) {ev : Fired}
    {rest : List Fired} (hp : s.pending = ev :: rest) :
    Faithful s.batch s.loop ev (s.loop.turn s.first ev) ↔
      ∀ evn, s.loop.ioEvns[ev.fd]? = some evn →
        ev.fd = s.first ∧ evn.mask.has ev.slot = true := by
  have hi := Dispatch.inv_of_reachable h
  have hev : ev ∈ s.batch := hi.suffix.mem (hp ▸ List.mem_cons_self)
  constructor
  · intro hf evn he
    obtain ⟨slot, cb, hturn, hreg⟩ :=
      hf.called ((hi.coherent.keys _).mpr (Table.mem_iff_getElem?.mpr ⟨evn, he⟩))
    obtain ⟨hfirst, rfl⟩ := EventLoop.turn_eq_call hturn
    exact ⟨hfirst, (hi.coherent.registered_iff he).mp ⟨cb, hreg⟩⟩
  · intro hcond
    cases he : s.loop.ioEvns[ev.fd]? with
    | none =>
        have hturn := EventLoop.turn_of_none s.first he
        refine ⟨fun hmem ↦ ?_, fun fd hfd ↦ ⟨ev, hev, ?_⟩⟩
        · obtain ⟨evn, he'⟩ := Table.mem_iff_getElem?.mp ((hi.coherent.keys _).mp hmem)
          rw [he] at he'
          cases he'
        · rw [hturn] at hfd
          rcases hfd with hfd | ⟨mask, hfd⟩
          · cases hfd
            rfl
          · cases hfd
    | some evn =>
        obtain ⟨hfirst, hm⟩ := hcond evn he
        obtain ⟨cb, hturn, hreg⟩ :=
          EventLoop.turn_of_has s.first hi.coherent he (hi.nonempty ev hev) hm
        rw [hturn]
        refine ⟨fun _ ↦ ⟨ev.slot, cb, by rw [hfirst], hreg⟩, fun fd hfd ↦ ?_⟩
        rcases hfd with hfd | ⟨mask, hfd⟩ <;> cases hfd

/-- Two descriptors with a read callback each, both with something to read. -/
def twoReady : Dispatch ℕ where
  loop := (EventLoop.new.addEvent 5 .readable 1).addEvent 6 .readable 2
  batch := [⟨5, true, false, false, false⟩, ⟨6, true, false, false, false⟩]
  pending := [⟨5, true, false, false, false⟩, ⟨6, true, false, false, false⟩]

theorem initial_twoReady : twoReady.Initial where
  table := by
    have h₀ : (epoll ℕ fun _ ↦ true).Reachable Epoll.new := .init rfl
    have h₁ := h₀.next (.addEvent 5 .epollin 1) rfl
    have h₂ := h₁.next (.addEvent 6 .epollin 2) rfl
    exact ⟨fun _ ↦ true, _, h₂, rfl⟩
  size := by decide
  fired ev hev := by
    rcases List.mem_cons.mp hev with rfl | hev
    · exact ⟨.readable, by decide, .inl rfl, fun h ↦ h, fun h ↦ h⟩
    · obtain rfl := List.mem_singleton.mp hev
      exact ⟨.readable, by decide, .inl rfl, fun h ↦ h, fun h ↦ h⟩
  pending := rfl

/-- The first turn of the batch is faithful. -/
theorem faithful_iff_twoReady :
    Faithful twoReady.batch twoReady.loop ⟨5, true, false, false, false⟩
      (twoReady.loop.turn 5 ⟨5, true, false, false, false⟩) := by
  refine (faithful_iff (.init initial_twoReady) rfl).mpr fun evn he ↦ ⟨rfl, ?_⟩
  have hall : (twoReady.loop.ioEvns[(5 : Int)]?).all (fun evn ↦ evn.mask.has .epollin) = true := by
    decide
  rw [he] at hall
  exact hall

/-- The second turn calls the callback of descriptor 6 with descriptor 5. -/
theorem twoReady_not_faithful :
    ∃ s : Dispatch ℕ, (dispatch ℕ).Run twoReady [[]] s ∧ (dispatch ℕ).Reachable s ∧
      s.pending = [⟨6, true, false, false, false⟩] ∧ (6 : Int) ∈ s.loop.lfds ∧
      s.loop.turn s.first ⟨6, true, false, false, false⟩ = .call .epollin (some 2) 5 ∧
      ¬Faithful s.batch s.loop ⟨6, true, false, false, false⟩
        (s.loop.turn s.first ⟨6, true, false, false, false⟩) := by
  have hrun : (dispatch ℕ).Run twoReady [[]] { twoReady with pending := twoReady.pending.tail } :=
    .cons ⟨_, _, _, rfl, rfl, rfl⟩ (.nil _)
  refine ⟨_, hrun, LTS.Reachable.run (.init initial_twoReady) hrun, rfl, by decide, rfl, ?_⟩
  intro hf
  obtain ⟨slot, cb, hturn, -⟩ := hf.called (by decide)
  cases hturn

end Ylars.Reactor
