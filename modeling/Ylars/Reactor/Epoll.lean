import Ylars.Lib.Table
import Ylars.Lib.Transition
import Ylars.Reactor.EventLoop

/-!
# The event table and the kernel

What `add_event` and `del_event` file is kept three times: in the set of descriptors, in
the map of entries, and in the interest set of the kernel, which they change by
`epoll_ctl`.  `Event` names one bit of a mask and `registered` is the callback that the
table has for it, so that a table is described by one lookup; `Coherent` is what its
operations keep, and `epoll` is the table and the interest set over any calls.

The kernel refuses a descriptor that is not open.
-/

namespace Ylars.Reactor

open Std (ExtTreeMap ExtTreeSet)
open Ylars.Lib

/-- One event of a mask. -/
inductive Event where
  | epollin
  | epollout
deriving DecidableEq, Repr

namespace Event

/-- The mask of one event. -/
def mask : Event → Mask
  | epollin => .readable
  | epollout => .writable

end Event

namespace Mask

/-- An event is in a mask. -/
def has (m : Mask) : Event → Bool
  | .epollin => m.epollin
  | .epollout => m.epollout

variable {m n : Mask} {ev ev' : Event}

/-- A mask is empty when it has no event. -/
theorem isEmpty_eq_false : m.isEmpty = false ↔ ∃ ev, m.has ev = true := by
  constructor
  · intro h
    cases hin : m.epollin with
    | true => exact ⟨.epollin, hin⟩
    | false =>
        refine ⟨.epollout, ?_⟩
        rw [isEmpty, hin] at h
        simpa [has] using h
  · rintro ⟨ev, h⟩
    cases ev with
    | epollin => simp [isEmpty, show m.epollin = true from h]
    | epollout => simp [isEmpty, show m.epollout = true from h]

@[simp] theorem has_union : (m.union n).has ev = (m.has ev || n.has ev) := by
  cases ev <;> rfl

@[simp] theorem has_diff : (m.diff n).has ev = (m.has ev && !n.has ev) := by
  cases ev <;> rfl

@[simp] theorem has_mask : ev.mask.has ev' = decide (ev' = ev) := by
  cases ev <;> cases ev' <;> rfl

@[simp] theorem isEmpty_mask : ev.mask.isEmpty = false := by
  cases ev <;> rfl

@[simp] theorem meets_mask : m.meets ev.mask = m.has ev := by
  cases ev <;> simp [meets, Event.mask, readable, writable, has]

end Mask

namespace IoEvent

variable {κ : Type}

/-- The callback stored for an event. -/
def cb (evn : IoEvent κ) : Event → Option κ
  | .epollin => evn.readCb
  | .epollout => evn.writeCb

@[simp] theorem cb_setMask (evn : IoEvent κ) (m : Mask) (ev : Event) :
    ({ evn with mask := m } : IoEvent κ).cb ev = evn.cb ev := by
  cases ev <;> rfl

end IoEvent

namespace EventLoop

variable {κ : Type}

/-- The callback registered for an event: the stored one, when the event is in the mask. -/
def registered (evnfd : Int) (ev : Event) (loop : EventLoop κ) : Option κ :=
  match loop.ioEvns[evnfd]? with
  | some evn => if evn.mask.has ev then evn.cb ev else none
  | none => none

/-- The mask of a descriptor. -/
def maskOf (evnfd : Int) (loop : EventLoop κ) : Option Mask :=
  (loop.ioEvns[evnfd]?).map IoEvent.mask

/-- What the operations of the table keep. -/
structure Coherent (loop : EventLoop κ) : Prop where
  /-- The set has the descriptors of the map. -/
  keys : ∀ fd, fd ∈ loop.lfds ↔ fd ∈ loop.ioEvns
  /-- No entry is without events. -/
  nonempty : ∀ (fd : Int) (evn : IoEvent κ), loop.ioEvns[fd]? = some evn → evn.mask.isEmpty = false
  /-- Every event of a mask has a callback. -/
  callback : ∀ (fd : Int) (evn : IoEvent κ) (ev : Event), loop.ioEvns[fd]? = some evn →
    evn.mask.has ev = true → ∃ cb, evn.cb ev = some cb

variable {loop loop' : EventLoop κ} {fd fd' : Int} {ev ev' : Event} {evn : IoEvent κ}
  {m : Mask} {cb : κ}

/-! ## Lookups -/

theorem cb_withCb (evn : IoEvent κ) :
    (withCb ev.mask cb evn).cb ev' = if ev' = ev then some cb else evn.cb ev' := by
  cases ev <;> cases ev' <;> rfl

@[simp] theorem mask_withCb (evn : IoEvent κ) : (withCb m cb evn).mask = evn.mask := by
  unfold withCb
  split <;> rfl

theorem registered_of_some (h : loop.ioEvns[fd]? = some evn) :
    loop.registered fd ev = if evn.mask.has ev then evn.cb ev else none := by
  rw [registered, h]

theorem registered_of_none (h : loop.ioEvns[fd]? = none) : loop.registered fd ev = none := by
  rw [registered, h]

theorem registered_congr (h : loop'.ioEvns[fd]? = loop.ioEvns[fd]?) :
    loop'.registered fd ev = loop.registered fd ev := by
  rw [registered, h, registered]

/-- In a coherent table an event has a callback registered when it is in the mask. -/
theorem Coherent.registered_iff (hc : loop.Coherent) (h : loop.ioEvns[fd]? = some evn) :
    (∃ cb, loop.registered fd ev = some cb) ↔ evn.mask.has ev = true := by
  rw [registered_of_some h]
  constructor
  · rintro ⟨cb, hcb⟩
    by_contra hno
    rw [if_neg hno] at hcb
    cases hcb
  · intro hm
    rw [if_pos hm]
    exact hc.callback fd evn ev h hm

/-! ## What the operations do -/

theorem coherent_new : (new : EventLoop κ).Coherent where
  keys fd := by
    constructor
    · exact fun h ↦ absurd h ExtTreeSet.not_mem_empty
    · exact fun h ↦ absurd h ExtTreeMap.not_mem_empty
  nonempty fd evn h := by simp [new] at h
  callback fd evn ev h := by simp [new] at h

theorem registered_new : (new : EventLoop κ).registered fd ev = none :=
  registered_of_none ExtTreeMap.getElem?_empty

theorem registered_delEvent :
    (loop.delEvent fd).registered fd' ev = if fd' = fd then none else loop.registered fd' ev := by
  have h : (loop.delEvent fd).ioEvns[fd']? = if fd' = fd then none else loop.ioEvns[fd']? :=
    Table.getElem?_erase
  by_cases e : fd' = fd
  · rw [if_pos e] at h ⊢
    exact registered_of_none h
  · rw [if_neg e] at h ⊢
    exact registered_congr h

/-- `del_event(fd)` keeps a table coherent. -/
theorem Coherent.delEvent (hc : loop.Coherent) (fd : Int) : (loop.delEvent fd).Coherent := by
  have hsub : ∀ {fd' : Int} {evn : IoEvent κ}, (loop.delEvent fd).ioEvns[fd']? = some evn →
      loop.ioEvns[fd']? = some evn := by
    intro fd' evn h
    rw [show (loop.delEvent fd).ioEvns = loop.ioEvns.erase fd from rfl, Table.getElem?_erase] at h
    split at h
    · cases h
    · exact h
  refine ⟨fun fd' ↦ ?_, fun fd' evn h ↦ hc.nonempty fd' evn (hsub h),
    fun fd' evn ev h ↦ hc.callback fd' evn ev (hsub h)⟩
  rw [show (loop.delEvent fd).lfds = loop.lfds.erase fd from rfl,
    show (loop.delEvent fd).ioEvns = loop.ioEvns.erase fd from rfl, Table.mem_erase, hc.keys,
    ExtTreeMap.mem_erase]
  exact and_congr_left fun _ ↦ not_congr (eq_comm.trans Std.compare_eq_iff_eq.symm)

/-- An entry put in the place of another, or of none. -/
def file (evnfd : Int) (evn : IoEvent κ) (loop : EventLoop κ) : EventLoop κ where
  ioEvns := loop.ioEvns.insert evnfd evn
  lfds := loop.lfds.insert evnfd

theorem registered_file :
    (loop.file fd evn).registered fd' ev =
      if fd' = fd then (if evn.mask.has ev then evn.cb ev else none)
      else loop.registered fd' ev := by
  have h : (loop.file fd evn).ioEvns[fd']? = if fd' = fd then some evn else loop.ioEvns[fd']? :=
    Table.getElem?_insert
  by_cases e : fd' = fd
  · rw [if_pos e] at h ⊢
    exact registered_of_some h
  · rw [if_neg e] at h ⊢
    exact registered_congr h

/-- Putting an entry with events that all have callbacks keeps a table coherent. -/
theorem Coherent.file (hc : loop.Coherent) (hne : evn.mask.isEmpty = false)
    (hcb : ∀ ev, evn.mask.has ev = true → ∃ cb, evn.cb ev = some cb) :
    (loop.file fd evn).Coherent := by
  have hget : ∀ fd' : Int, (loop.file fd evn).ioEvns[fd']? =
      if fd' = fd then some evn else loop.ioEvns[fd']? := fun _ ↦ Table.getElem?_insert
  refine ⟨fun fd' ↦ ?_, fun fd' evn' h ↦ ?_, fun fd' evn' ev h ↦ ?_⟩
  · rw [show (loop.file fd evn).lfds = loop.lfds.insert fd from rfl, Table.mem_insert, hc.keys,
      show (loop.file fd evn).ioEvns = loop.ioEvns.insert fd evn from rfl, ExtTreeMap.mem_insert,
      Std.compare_eq_iff_eq, eq_comm]
  · rw [hget] at h
    split at h
    · obtain rfl := Option.some.inj h
      exact hne
    · exact hc.nonempty fd' evn' h
  · rw [hget] at h
    split at h
    · obtain rfl := Option.some.inj h
      exact hcb ev
    · exact hc.callback fd' evn' ev h

/-- What `del_event(fd, mask)` does: the descriptor is filed, and it is forgotten or keeps
the events that are left. -/
theorem delEventMask_cases (hc : loop.Coherent) (h : loop.delEventMask fd m = .ok loop') :
    ∃ evn, loop.ioEvns[fd]? = some evn ∧
      (((evn.mask.diff m).isEmpty = true ∧ loop' = loop.delEvent fd) ∨
        ((evn.mask.diff m).isEmpty = false ∧
          loop' = loop.file fd { evn with mask := evn.mask.diff m })) := by
  unfold delEventMask at h
  cases he : loop.ioEvns[fd]? with
  | none =>
      rw [he] at h
      cases h
  | some evn =>
      refine ⟨evn, rfl, ?_⟩
      have hmem : fd ∈ loop.lfds := (hc.keys fd).mpr (Table.mem_iff_getElem?.mpr ⟨evn, he⟩)
      simp only [he, hmem, not_true_eq_false, decide_false, Bool.or_false] at h
      cases hempty : (evn.mask.diff m).isEmpty with
      | true =>
          rw [if_pos hempty] at h
          exact .inl ⟨rfl, (Except.ok.inj h).symm⟩
      | false =>
          rw [if_neg (by simp [hempty])] at h
          refine .inr ⟨rfl, (Except.ok.inj h).symm.trans ?_⟩
          have hins : loop.lfds.insert fd = loop.lfds := by
            ext fd'
            rw [Table.mem_insert]
            exact ⟨fun h ↦ h.elim (fun h ↦ h ▸ hmem) id, .inr⟩
          rw [file, hins]

/-- What `add_event` does: nothing when the event is in the mask, and otherwise the event
and its callback join the entry. -/
theorem addEvent_cases (fd : Int) (ev : Event) (cb : κ) (loop : EventLoop κ) :
    (∃ evn, loop.ioEvns[fd]? = some evn ∧ evn.mask.has ev = true ∧
        loop.addEvent fd ev.mask cb = loop) ∨
      (∃ evn, loop.ioEvns[fd]? = some evn ∧ evn.mask.has ev = false ∧
        loop.addEvent fd ev.mask cb =
          loop.file fd (withCb ev.mask cb { evn with mask := evn.mask.union ev.mask })) ∨
      (loop.ioEvns[fd]? = none ∧
        loop.addEvent fd ev.mask cb = loop.file fd (withCb ev.mask cb ⟨ev.mask, none, none⟩)) := by
  unfold addEvent
  cases he : loop.ioEvns[fd]? with
  | none =>
      refine .inr (.inr ⟨rfl, ?_⟩)
      simp only [Mask.isEmpty_mask]
      rfl
  | some evn =>
      simp only [Mask.isEmpty_mask, Bool.or_false, Mask.meets_mask]
      cases hm : evn.mask.has ev with
      | true => exact .inl ⟨evn, rfl, hm, rfl⟩
      | false => exact .inr (.inl ⟨evn, rfl, hm, rfl⟩)

theorem mem_addEvent (fd : Int) (ev : Event) (cb : κ) (loop : EventLoop κ) :
    fd ∈ (loop.addEvent fd ev.mask cb).ioEvns := by
  rcases addEvent_cases fd ev cb loop with ⟨evn, he, -, e⟩ | ⟨evn, -, -, e⟩ | ⟨-, e⟩ <;> rw [e]
  · exact Table.mem_iff_getElem?.mpr ⟨evn, he⟩
  · exact ExtTreeMap.mem_insert_self
  · exact ExtTreeMap.mem_insert_self

/-- `add_event` keeps a table coherent. -/
theorem Coherent.addEvent (hc : loop.Coherent) (fd : Int) (ev : Event) (cb : κ) :
    (loop.addEvent fd ev.mask cb).Coherent := by
  rcases addEvent_cases fd ev cb loop with ⟨evn, -, -, h⟩ | ⟨evn, he, -, h⟩ | ⟨-, h⟩ <;> rw [h]
  · exact hc
  · refine hc.file ?_ fun ev' hev ↦ ?_
    · rw [mask_withCb]
      exact Mask.isEmpty_eq_false.mpr ⟨ev, by simp⟩
    · rw [cb_withCb]
      by_cases e : ev' = ev
      · exact ⟨cb, if_pos e⟩
      · rw [if_neg e]
        simp only [mask_withCb, Mask.has_union, Mask.has_mask, e, decide_false,
          Bool.or_false] at hev
        exact hc.callback fd evn ev' he hev
  · refine hc.file ?_ fun ev' hev ↦ ?_
    · rw [mask_withCb]
      exact Mask.isEmpty_mask
    · rw [mask_withCb, Mask.has_mask, decide_eq_true_eq] at hev
      rw [cb_withCb]
      exact ⟨cb, if_pos hev⟩

/-- `add_event` registers its callback, unless there is one for the event. -/
theorem Coherent.registered_addEvent (hc : loop.Coherent) (fd : Int) (ev : Event) (cb : κ)
    (fd' : Int) (ev' : Event) :
    (loop.addEvent fd ev.mask cb).registered fd' ev' =
      if fd' = fd ∧ ev' = ev then (loop.registered fd ev).or (some cb)
      else loop.registered fd' ev' := by
  rcases addEvent_cases fd ev cb loop with ⟨evn, he, hm, h⟩ | ⟨evn, he, hm, h⟩ | ⟨he, h⟩ <;> rw [h]
  · split
    · rename_i e
      obtain ⟨rfl, rfl⟩ := e
      obtain ⟨cb', hcb⟩ := (hc.registered_iff he).mpr hm
      rw [hcb, Option.some_or]
    · rfl
  · rw [registered_file, mask_withCb, cb_withCb]
    by_cases e : fd' = fd
    · subst e
      rw [registered_of_some he, registered_of_some he, hm]
      by_cases e' : ev' = ev <;> simp [e', IoEvent.cb]
    · rw [if_neg e, if_neg fun h ↦ e h.1]
  · rw [registered_file, mask_withCb, cb_withCb]
    by_cases e : fd' = fd
    · subst e
      rw [registered_of_none he, registered_of_none he]
      by_cases e' : ev' = ev <;> simp [e']
    · rw [if_neg e, if_neg fun h ↦ e h.1]

/-- `del_event(fd, mask)` keeps a table coherent. -/
theorem Coherent.delEventMask (hc : loop.Coherent) (h : loop.delEventMask fd m = .ok loop') :
    loop'.Coherent := by
  obtain ⟨evn, he, ⟨-, rfl⟩ | ⟨hne, rfl⟩⟩ := delEventMask_cases hc h
  · exact hc.delEvent fd
  · refine hc.file hne fun ev hev ↦ hc.callback fd evn ev he ?_
    simp only [Mask.has_diff, Bool.and_eq_true] at hev
    exact hev.1

theorem Coherent.registered_delEventMask (hc : loop.Coherent)
    (h : loop.delEventMask fd m = .ok loop') (fd' : Int) (ev : Event) :
    loop'.registered fd' ev =
      if fd' = fd ∧ m.has ev = true then none else loop.registered fd' ev := by
  obtain ⟨evn, he, ⟨hempty, rfl⟩ | ⟨-, rfl⟩⟩ := delEventMask_cases hc h
  · rw [registered_delEvent]
    by_cases e : fd' = fd
    · subst e
      rw [if_pos rfl]
      -- every event that was registered is in the mask that is removed
      by_cases hm : m.has ev = true
      · rw [if_pos ⟨rfl, hm⟩]
      · have hno : ¬evn.mask.has ev = true := fun hev ↦ by
          have : (evn.mask.diff m).isEmpty = false :=
            Mask.isEmpty_eq_false.mpr ⟨ev, by simp [hev, hm]⟩
          rw [this] at hempty
          cases hempty
        rw [if_neg fun h ↦ hm h.2, registered_of_some he, if_neg hno]
    · rw [if_neg e, if_neg fun h ↦ e h.1]
  · rw [registered_file]
    by_cases e : fd' = fd
    · subst e
      rw [if_pos rfl, IoEvent.cb_setMask, registered_of_some he, Mask.has_diff]
      cases m.has ev <;> simp
    · rw [if_neg e, if_neg fun h ↦ e h.1]

/-! ## The calls to `epoll_ctl` -/

end EventLoop

/-- The first argument of `epoll_ctl` after the descriptor of the instance. -/
inductive CtlOp where
  | add
  | mod
  | del
deriving DecidableEq, Repr

/-- One call to `epoll_ctl`. -/
structure EpollCtl where
  opt : CtlOp
  evnfd : Int
  events : Mask
deriving DecidableEq, Repr

/-- The interest set of the kernel. -/
abbrev Interest := ExtTreeMap Int Mask

namespace EpollCtl

/-- What the kernel makes of a call: an open descriptor is added once, and only one that is
there is changed or removed. -/
def apply (valid : Int → Bool) (ctl : EpollCtl) (set : Interest) : Interest :=
  match ctl.opt with
  | .add => if valid ctl.evnfd ∧ ctl.evnfd ∉ set then set.insert ctl.evnfd ctl.events else set
  | .mod => if ctl.evnfd ∈ set then set.insert ctl.evnfd ctl.events else set
  | .del => set.erase ctl.evnfd

variable {valid : Int → Bool} {set : Interest} {fd fd' : Int} {m : Mask}

theorem getElem?_apply_add :
    (apply valid ⟨.add, fd, m⟩ set)[fd']? =
      if fd' = fd ∧ valid fd = true ∧ fd ∉ set then some m else set[fd']? := by
  show (if _ then _ else _ : Interest)[fd']? = _
  by_cases h : valid fd = true ∧ fd ∉ set
  · rw [if_pos h, Table.getElem?_insert]
    simp only [h, and_true, not_false_eq_true]
  · rw [if_neg h, if_neg fun h' ↦ h h'.2]

theorem getElem?_apply_mod :
    (apply valid ⟨.mod, fd, m⟩ set)[fd']? =
      if fd' = fd ∧ fd ∈ set then some m else set[fd']? := by
  show (if _ then _ else _ : Interest)[fd']? = _
  by_cases h : fd ∈ set
  · rw [if_pos h, Table.getElem?_insert]
    simp only [h, and_true]
  · rw [if_neg h, if_neg fun h' ↦ h h'.2]

theorem getElem?_apply_del :
    (apply valid ⟨.del, fd, m⟩ set)[fd']? = if fd' = fd then none else set[fd']? :=
  Table.getElem?_erase

end EpollCtl

namespace EventLoop

variable {κ : Type} {loop : EventLoop κ} {fd fd' : Int} {evn : IoEvent κ}

/-- The call of `del_event(fd)`. -/
def delEventCtl (evnfd : Int) : EpollCtl where
  opt := .del
  evnfd := evnfd
  events := ⟨false, false⟩

/-- The call of `del_event(fd, mask)`. -/
def delEventMaskCtl (evnfd : Int) (mask : Mask) (loop : EventLoop κ) : Option EpollCtl :=
  match loop.ioEvns[evnfd]? with
  | none => none
  | some evn =>
      let newMask := evn.mask.diff mask
      if newMask.isEmpty || evnfd ∉ loop.lfds then some (delEventCtl evnfd)
      else some ⟨.mod, evnfd, newMask⟩

/-- The call of `add_event`, if it gets that far. -/
def addEventCtl (evnfd : Int) (mask : Mask) (loop : EventLoop κ) : Option EpollCtl :=
  match loop.ioEvns[evnfd]? with
  | some evn =>
      if evn.mask.meets mask || mask.isEmpty then none
      else some ⟨.mod, evnfd, evn.mask.union mask⟩
  | none => if mask.isEmpty then none else some ⟨.add, evnfd, mask⟩

/-- The interest set has the descriptors and masks of the table, as far as the kernel accepts
them. -/
def Mirrored (valid : Int → Bool) (set : Interest) (loop : EventLoop κ) : Prop :=
  ∀ fd : Int, set[fd]? = if valid fd then loop.maskOf fd else none

variable {valid : Int → Bool} {set : Interest}

theorem maskOf_file :
    (loop.file fd evn).maskOf fd' = if fd' = fd then some evn.mask else loop.maskOf fd' := by
  rw [maskOf, show (loop.file fd evn).ioEvns = loop.ioEvns.insert fd evn from rfl,
    Table.getElem?_insert]
  split <;> rfl

theorem maskOf_delEvent :
    (loop.delEvent fd).maskOf fd' = if fd' = fd then none else loop.maskOf fd' := by
  rw [maskOf, show (loop.delEvent fd).ioEvns = loop.ioEvns.erase fd from rfl,
    Table.getElem?_erase]
  split <;> rfl

theorem Mirrored.mem_iff (h : loop.Mirrored valid set) (he : loop.ioEvns[fd]? = some evn) :
    fd ∈ set ↔ valid fd = true := by
  rw [Table.mem_iff_getElem?, h fd, maskOf, he]
  cases valid fd <;> simp

theorem Mirrored.notMem (h : loop.Mirrored valid set) (he : loop.ioEvns[fd]? = none) :
    fd ∉ set := by
  rw [Table.mem_iff_getElem?, h fd, maskOf, he]
  cases valid fd <;> simp

theorem Mirrored.del (h : loop.Mirrored valid set) (fd : Int) :
    (loop.delEvent fd).Mirrored valid ((delEventCtl fd).apply valid set) := by
  intro fd'
  rw [delEventCtl, EpollCtl.getElem?_apply_del, maskOf_delEvent, h fd']
  split <;> simp

/-- `EPOLL_CTL_MOD` follows an entry that is put in the place of another. -/
theorem Mirrored.mod (h : loop.Mirrored valid set) (he : loop.ioEvns[fd]? = some evn)
    (evn' : IoEvent κ) :
    (loop.file fd evn').Mirrored valid (EpollCtl.apply valid ⟨.mod, fd, evn'.mask⟩ set) := by
  intro fd'
  rw [EpollCtl.getElem?_apply_mod, maskOf_file, h fd']
  simp only [h.mem_iff he]
  by_cases e : fd' = fd
  · subst e
    cases valid fd' <;> simp
  · simp [e]

/-- `EPOLL_CTL_ADD` follows an entry that is new. -/
theorem Mirrored.add (h : loop.Mirrored valid set) (he : loop.ioEvns[fd]? = none)
    (evn' : IoEvent κ) :
    (loop.file fd evn').Mirrored valid (EpollCtl.apply valid ⟨.add, fd, evn'.mask⟩ set) := by
  intro fd'
  rw [EpollCtl.getElem?_apply_add, maskOf_file, h fd']
  by_cases e : fd' = fd
  · subst e
    cases valid fd' <;> simp [h.notMem he]
  · simp [e]

end EventLoop

/-- A call to the table. -/
inductive LoopOp (κ : Type) where
  | addEvent (evnfd : Int) (ev : Event) (cb : κ)
  | delEvent (evnfd : Int)
  | delEventMask (evnfd : Int) (mask : Mask)

namespace LoopOp

variable {κ : Type}

/-- What a call does to the table. -/
def run (loop : EventLoop κ) : LoopOp κ → Outcome (EventLoop κ)
  | addEvent evnfd ev cb => .ok (loop.addEvent evnfd ev.mask cb)
  | delEvent evnfd => .ok (loop.delEvent evnfd)
  | delEventMask evnfd mask => loop.delEventMask evnfd mask

/-- The descriptor of a call. -/
def evnfd : LoopOp κ → Int
  | addEvent evnfd _ _ => evnfd
  | delEvent evnfd => evnfd
  | delEventMask evnfd _ => evnfd

/-- What a call asks of the kernel. -/
def ctl (loop : EventLoop κ) : LoopOp κ → Option EpollCtl
  | addEvent evnfd ev _ => loop.addEventCtl evnfd ev.mask
  | delEvent evnfd => some (EventLoop.delEventCtl evnfd)
  | delEventMask evnfd mask => loop.delEventMaskCtl evnfd mask

/-- The callback of the first `add_event` for an event since it was last cleared; the last
call is at the front of the list. -/
def firstCb (evnfd : Int) (ev : Event) : List (LoopOp κ) → Option κ
  | [] => none
  | addEvent evnfd' ev' cb :: ops =>
      if evnfd = evnfd' ∧ ev = ev' then (firstCb evnfd ev ops).or (some cb)
      else firstCb evnfd ev ops
  | delEvent evnfd' :: ops => if evnfd = evnfd' then none else firstCb evnfd ev ops
  | delEventMask evnfd' mask :: ops =>
      if evnfd = evnfd' ∧ mask.has ev = true then none else firstCb evnfd ev ops

end LoopOp

namespace EventLoop

variable {κ : Type} {loop loop' : EventLoop κ} {op : LoopOp κ} {fd : Int} {ev : Event}

/-- A call keeps the table coherent. -/
theorem Coherent.run (hc : loop.Coherent) (h : op.run loop = .ok loop') : loop'.Coherent := by
  cases op with
  | addEvent fd ev cb =>
      obtain rfl := Except.ok.inj h
      exact hc.addEvent fd ev cb
  | delEvent fd =>
      obtain rfl := Except.ok.inj h
      exact hc.delEvent fd
  | delEventMask fd mask => exact hc.delEventMask h

/-- A call leaves the entries of other descriptors alone. -/
theorem Coherent.getElem?_run (hc : loop.Coherent) (h : op.run loop = .ok loop')
    (hne : fd ≠ op.evnfd) : loop'.ioEvns[fd]? = loop.ioEvns[fd]? := by
  have hfile : ∀ evn, (loop.file op.evnfd evn).ioEvns[fd]? = loop.ioEvns[fd]? := fun evn ↦
    Table.getElem?_insert.trans (if_neg hne)
  have hdel : (loop.delEvent op.evnfd).ioEvns[fd]? = loop.ioEvns[fd]? :=
    Table.getElem?_erase.trans (if_neg hne)
  cases op with
  | addEvent fd' ev cb =>
      obtain rfl := Except.ok.inj h
      rcases addEvent_cases fd' ev cb loop with ⟨evn, -, -, e⟩ | ⟨evn, -, -, e⟩ | ⟨-, e⟩ <;>
        rw [e]
      · exact hfile _
      · exact hfile _
  | delEvent fd' =>
      obtain rfl := Except.ok.inj h
      exact hdel
  | delEventMask fd' mask =>
      obtain ⟨evn, -, ⟨-, rfl⟩ | ⟨-, rfl⟩⟩ := delEventMask_cases hc h
      · exact hdel
      · exact hfile _

theorem Coherent.registered_run (hc : loop.Coherent) (h : op.run loop = .ok loop')
    (hne : fd ≠ op.evnfd) : loop'.registered fd ev = loop.registered fd ev :=
  registered_congr (hc.getElem?_run h hne)

theorem delEventMask_of_none {m : Mask} (h : loop.ioEvns[fd]? = none) :
    loop.delEventMask fd m = .error .endIterator := by
  rw [delEventMask, h]

end EventLoop

/-- A table with the interest set of its `epoll` instance. -/
structure Epoll (κ : Type) where
  loop : EventLoop κ
  interest : Interest
  /-- The calls made, the last one first. -/
  ops : List (LoopOp κ)

namespace Epoll

variable {κ : Type} {valid : Int → Bool}

/-- A fresh `event_loop`. -/
def new : Epoll κ where
  loop := EventLoop.new
  interest := ∅
  ops := []

/-- One call to the table. -/
def step (valid : Int → Bool) (s : Epoll κ) (op : LoopOp κ) : Outcome (Epoll κ) := do
  let loop ← op.run s.loop
  .ok {
    loop := loop
    interest := (op.ctl s.loop).elim s.interest fun ctl ↦ ctl.apply valid s.interest
    ops := op :: s.ops }

end Epoll

/-- The table over any calls; the kernel accepts the descriptors that are `valid`. -/
def epoll (κ : Type) (valid : Int → Bool) : LTS (Epoll κ) (LoopOp κ) :=
  LTS.ofFn (· = Epoll.new) (Epoll.step valid)

namespace Epoll

variable {κ : Type} {valid : Int → Bool} {s : Epoll κ}

/-- What holds of a table and its interest set after any calls. -/
structure Inv (valid : Int → Bool) (s : Epoll κ) : Prop where
  /-- The set, the map and the callbacks agree. -/
  coherent : s.loop.Coherent
  /-- The first callback since an event was cleared is registered for it. -/
  registered : ∀ fd ev, s.loop.registered fd ev = LoopOp.firstCb fd ev s.ops
  /-- The kernel has what the table has. -/
  mirrored : s.loop.Mirrored valid s.interest

theorem inv_new : (new : Epoll κ).Inv valid where
  coherent := EventLoop.coherent_new
  registered fd ev := EventLoop.registered_new
  mirrored fd := by
    rw [show (new : Epoll κ).interest = ∅ from rfl, ExtTreeMap.getElem?_empty, EventLoop.maskOf,
      show (new : Epoll κ).loop.ioEvns = ∅ from rfl, ExtTreeMap.getElem?_empty]
    simp

/-- The kernel follows every call to a coherent table. -/
theorem mirrored_step {loop : EventLoop κ} {op : LoopOp κ} (h : s.Inv valid)
    (hop : op.run s.loop = .ok loop) :
    loop.Mirrored valid ((op.ctl s.loop).elim s.interest fun ctl ↦ ctl.apply valid s.interest) := by
  cases op with
  | addEvent fd ev cb =>
      obtain rfl := Except.ok.inj hop
      rcases EventLoop.addEvent_cases fd ev cb s.loop with
        ⟨evn, he, hm, hl⟩ | ⟨evn, he, hm, hl⟩ | ⟨he, hl⟩ <;>
        rw [hl, LoopOp.ctl, EventLoop.addEventCtl, he]
      · simp only [Mask.meets_mask, hm, Bool.true_or, if_true]
        exact h.mirrored
      · simp only [Mask.meets_mask, hm, Mask.isEmpty_mask, Bool.or_false]
        have := h.mirrored.mod he
          (EventLoop.withCb ev.mask cb { evn with mask := evn.mask.union ev.mask })
        rwa [EventLoop.mask_withCb] at this
      · simp only [Mask.isEmpty_mask]
        have := h.mirrored.add he (EventLoop.withCb ev.mask cb ⟨ev.mask, none, none⟩)
        rwa [EventLoop.mask_withCb] at this
  | delEvent fd =>
      obtain rfl := Except.ok.inj hop
      exact h.mirrored.del fd
  | delEventMask fd m =>
      obtain ⟨evn, he, hl⟩ := EventLoop.delEventMask_cases h.coherent hop
      have hmem : fd ∈ s.loop.lfds :=
        (h.coherent.keys fd).mpr (Table.mem_iff_getElem?.mpr ⟨evn, he⟩)
      rw [LoopOp.ctl, EventLoop.delEventMaskCtl, he]
      simp only [hmem, not_true_eq_false, decide_false, Bool.or_false]
      rcases hl with ⟨hempty, rfl⟩ | ⟨hne, rfl⟩
      · rw [if_pos hempty]
        exact h.mirrored.del fd
      · rw [if_neg (by simp [hne])]
        exact h.mirrored.mod he { evn with mask := evn.mask.diff m }

/-- A call keeps the table coherent and registers what `firstCb` says. -/
theorem registered_step {loop : EventLoop κ} {op : LoopOp κ} (h : s.Inv valid)
    (hop : op.run s.loop = .ok loop) :
    loop.Coherent ∧ ∀ fd ev, loop.registered fd ev = LoopOp.firstCb fd ev (op :: s.ops) := by
  cases op with
  | addEvent fd ev cb =>
      obtain rfl := Except.ok.inj hop
      refine ⟨h.coherent.addEvent fd ev cb, fun fd' ev' ↦ ?_⟩
      rw [h.coherent.registered_addEvent, LoopOp.firstCb, h.registered, h.registered]
      split
      · rename_i e
        rw [e.1, e.2]
      · rfl
  | delEvent fd =>
      obtain rfl := Except.ok.inj hop
      refine ⟨h.coherent.delEvent fd, fun fd' ev' ↦ ?_⟩
      rw [EventLoop.registered_delEvent, LoopOp.firstCb, h.registered]
  | delEventMask fd m =>
      refine ⟨h.coherent.delEventMask hop, fun fd' ev' ↦ ?_⟩
      rw [h.coherent.registered_delEventMask hop, LoopOp.firstCb, h.registered]

theorem inv_step {t : Epoll κ} {op : LoopOp κ} (h : s.Inv valid)
    (hst : step valid s op = .ok t) : t.Inv valid := by
  obtain ⟨loop, hop, ht⟩ := Outcome.bind_eq_ok.mp hst
  obtain rfl := Except.ok.inj ht
  obtain ⟨hc, hr⟩ := registered_step h hop
  exact ⟨hc, hr, mirrored_step h hop⟩

theorem inv_of_reachable (h : (epoll κ valid).Reachable s) : s.Inv valid := by
  apply h.induction
  · rintro s rfl
    exact inv_new
  · exact fun s op t _ hi hst ↦ inv_step hi hst

end Epoll

/-- After any calls to `add_event` and `del_event` the set has the descriptors of the map; no
mask is empty; an event of a mask has the callback of the first `add_event` for it since it
was last cleared, and the other events have none; and the interest set of the kernel has
the descriptors and masks of the map, among the descriptors that the kernel accepts. -/
theorem table_in_step (κ : Type) (valid : Int → Bool) (s : Epoll κ)
    (h : (epoll κ valid).Reachable s) :
    (∀ fd, fd ∈ s.loop.lfds ↔ fd ∈ s.loop.ioEvns) ∧
      (∀ (fd : Int) (evn : IoEvent κ), s.loop.ioEvns[fd]? = some evn →
        evn.mask.isEmpty = false ∧
          ∀ ev, if evn.mask.has ev then
              ∃ cb, evn.cb ev = some cb ∧ LoopOp.firstCb fd ev s.ops = some cb
            else LoopOp.firstCb fd ev s.ops = none) ∧
      ∀ fd : Int, s.interest[fd]? =
        if valid fd then (s.loop.ioEvns[fd]?).map IoEvent.mask else none := by
  have hi := Epoll.inv_of_reachable h
  refine ⟨hi.coherent.keys, fun fd evn he ↦ ⟨hi.coherent.nonempty fd evn he, fun ev ↦ ?_⟩,
    hi.mirrored⟩
  rw [← hi.registered, EventLoop.registered_of_some he]
  by_cases hm : evn.mask.has ev = true
  · obtain ⟨cb, hcb⟩ := hi.coherent.callback fd evn ev he hm
    rw [if_pos hm, if_pos hm]
    exact ⟨cb, hcb, hcb⟩
  · rw [if_neg hm, if_neg hm]

/-- A descriptor registered for both events, and then for one only, is in step with the kernel. -/
theorem table_in_step_rearmed :
    ∃ s : Epoll ℕ, s.interest[(5 : Int)]? = some .writable ∧
      (∀ fd, fd ∈ s.loop.lfds ↔ fd ∈ s.loop.ioEvns) ∧
      ∀ fd : Int, s.interest[fd]? =
        if true then (s.loop.ioEvns[fd]?).map IoEvent.mask else none := by
  have h₀ : (epoll ℕ fun _ ↦ true).Reachable Epoll.new := .init rfl
  have h₁ := h₀.next (.addEvent 5 .epollin 1) rfl
  have h₂ := h₁.next (.addEvent 5 .epollout 2) rfl
  have h₃ := h₂.next (.delEventMask 5 .readable) rfl
  obtain ⟨hkeys, -, hset⟩ := table_in_step ℕ (fun _ ↦ true) _ h₃
  exact ⟨_, by decide, hkeys, hset⟩

/-- The descriptor -1 of a closed connection, which a kernel that knows the descriptors from 0 on
refuses: the table files it, and the interest set does not have it. -/
theorem table_files_refused :
    ∃ s : Epoll ℕ, (epoll ℕ fun fd ↦ decide (0 ≤ fd)).Reachable s ∧
      s.loop.maskOf (-1) = some .writable ∧ s.interest[(-1 : Int)]? = none ∧
      ¬∀ fd : Int, s.interest[fd]? = (s.loop.ioEvns[fd]?).map IoEvent.mask := by
  have h₀ : (epoll ℕ fun fd ↦ decide (0 ≤ fd)).Reachable Epoll.new := .init rfl
  have h₁ := h₀.next (.addEvent (-1) .epollout 1) rfl
  refine ⟨_, h₁, by decide, by decide, fun hset ↦ ?_⟩
  exact absurd (hset (-1)) (by decide)

end Ylars.Reactor
