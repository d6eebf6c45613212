import Mathlib.Data.List.Basic
import Ylars.Fault

/-!
# The event table: `event_loop`

The loop files for each descriptor a mask of events and a callback for each of them,
and keeps the set of descriptors it listens on.  A callback is a value of a type `κ`,
which names the function and the object it is called for.

`add_event` for an event that is already in the mask does nothing, the callback
included: the first one registered stays.  The removal of one event reads the mask
before it looks whether the descriptor is filed.
-/

namespace Ylars.Reactor

open Std (ExtTreeMap ExtTreeSet)

/-- A set of events: `EPOLLIN`, `EPOLLOUT`. -/
structure Mask where
  epollin : Bool
  epollout : Bool
deriving DecidableEq, Repr

namespace Mask

/-- `EPOLLIN`. -/
def readable : Mask := ⟨true, false⟩

/-- `EPOLLOUT`. -/
def writable : Mask := ⟨false, true⟩

/-- `a | b`. -/
def union (a b : Mask) : Mask := ⟨a.epollin || b.epollin, a.epollout || b.epollout⟩

/-- `a & b` is not 0. -/
def meets (a b : Mask) : Bool := (a.epollin && b.epollin) || (a.epollout && b.epollout)

/-- `a & ~b`. -/
def diff (a b : Mask) : Mask := ⟨a.epollin && !b.epollin, a.epollout && !b.epollout⟩

/-- No event is left. -/
def isEmpty (a : Mask) : Bool := !a.epollin && !a.epollout

end Mask

/-- The events of a descriptor, `io_event`. -/
structure IoEvent (κ : Type) where
  mask : Mask
  readCb : Option κ
  writeCb : Option κ

/-- The event table, `event_loop`. -/
structure EventLoop (κ : Type) where
  ioEvns : ExtTreeMap Int (IoEvent κ)
  lfds : ExtTreeSet Int

namespace EventLoop

variable {κ : Type}

/-- A loop without events. -/
def new : EventLoop κ where
  ioEvns := ∅
  lfds := ∅

/-- `del_event(fd)`: forget a descriptor. -/
def delEvent (evnfd : Int) (loop : EventLoop κ) : EventLoop κ where
  ioEvns := loop.ioEvns.erase evnfd
  lfds := loop.lfds.erase evnfd

/-- `del_event(fd, mask)`: remove events from the mask of a descriptor, and forget it when
none is left. -/
def delEventMask (evnfd : Int) (mask : Mask) (loop : EventLoop κ) : Outcome (EventLoop κ) :=
  match loop.ioEvns[evnfd]? with
  | none => .error .endIterator
  | some evn =>
      let newMask := evn.mask.diff mask
      if newMask.isEmpty || evnfd ∉ loop.lfds then .ok (loop.delEvent evnfd)
      else .ok { loop with ioEvns := loop.ioEvns.insert evnfd { evn with mask := newMask } }

/-- The new entry of `add_event`: the callback is filed under the first event of `mask`. -/
def withCb (mask : Mask) (cb : κ) (evn : IoEvent κ) : IoEvent κ :=
  if mask.epollin then { evn with readCb := some cb } else { evn with writeCb := some cb }

/-- `add_event`. -/
def addEvent (evnfd : Int) (mask : Mask) (cb : κ) (loop : EventLoop κ) : EventLoop κ :=
  match loop.ioEvns[evnfd]? with
  | some evn =>
      if evn.mask.meets mask || mask.isEmpty then loop
      else
        { ioEvns := loop.ioEvns.insert evnfd
            (withCb mask cb { evn with mask := evn.mask.union mask })
          lfds := loop.lfds.insert evnfd }
  | none =>
      if mask.isEmpty then loop
      else
        { ioEvns := loop.ioEvns.insert evnfd (withCb mask cb ⟨mask, none, none⟩)
          lfds := loop.lfds.insert evnfd }

/-- The callback that `EPOLLOUT` on a descriptor runs, if the event is registered. -/
def writeCallback (evnfd : Int) (loop : EventLoop κ) : Option κ :=
  match loop.ioEvns[evnfd]? with
  | some evn => if evn.mask.epollout then evn.writeCb else none
  | none => none

variable {loop : EventLoop κ} {fd : Int}

/-- The removal of an event of a filed descriptor succeeds. -/
theorem exists_delEventMask (mask : Mask) {cb : κ} (h : loop.writeCallback fd = some cb) :
    ∃ loop', loop.delEventMask fd mask = .ok loop' := by
  unfold writeCallback at h
  cases he : loop.ioEvns[fd]? with
  | none =>
      rw [he] at h
      cases h
  | some evn =>
      simp only [delEventMask, he]
      split <;> exact ⟨_, rfl⟩

end EventLoop

end Ylars.Reactor
