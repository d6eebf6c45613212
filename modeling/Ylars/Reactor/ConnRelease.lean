import Ylars.Lib.Transition
import Ylars.Reactor.TcpServer

/-!
# The release of connections: `do_release`

Worker threads hand connections over with `decrease_conn`; the main thread is woken by the
event descriptor and takes them with `do_release`.  The steps are the sections under the
lock.  Between the section that finds the queue empty and the one that clears the event
and raises the flag again, a hand-over is not announced: it finds the flag still cleared,
and the event it relies on is cleared behind it.

`Woken` is what a hand-over can rely on.  It holds in every run without a hand-over in
that window, and a hand-over in the window ends it.
-/

namespace Ylars.Reactor

open Ylars.Lib

/-- Where the main thread is. -/
inductive ReleasePc where
  /-- Not in `do_release`. -/
  | outside
  /-- In the loop. -/
  | looping
  /-- Between the loop and the second section. -/
  | leaving
deriving DecidableEq, Repr

/-- What the threads do. -/
inductive ReleaseAction where
  | increaseConn (thread : ℕ) (connfd : Int) (conn : ℕ)
  | decreaseConn (thread : ℕ) (connfd : Int)
  /-- The main loop has an event for `_activatefd`. -/
  | enter
  /-- The first section: take a connection and delete it, or leave the loop. -/
  | takeRel
  /-- The second section. -/
  | rearm

/-- The server and its main thread. -/
structure Release where
  ser : TcpServer
  pc : ReleasePc
  /-- The objects deleted. -/
  deleted : List ℕ

namespace Release

/-- Before the first connection. -/
def new : Release where
  ser := .new
  pc := .outside
  deleted := []

/-- One section, where the main thread is there to take it. -/
def step (s : Release) : ReleaseAction → Option Release
  | .increaseConn _ connfd conn => some { s with ser := s.ser.increaseConn connfd conn }
  | .decreaseConn _ connfd => some { s with ser := s.ser.decreaseConn connfd }
  | .enter =>
      if s.pc = .outside ∧ s.ser.activate.Readable then some { s with pc := .looping } else none
  | .takeRel =>
      if s.pc = .looping then
        match s.ser.takeRel with
        | none => some { s with pc := .leaving }
        | some (conn, ser) => some { s with
            ser := ser
            deleted := s.deleted ++ conn.toList }
      else none
  | .rearm =>
      if s.pc = .leaving then some { s with
        ser := s.ser.rearm
        pc := .outside }
      else none

/-- A hand-over that waits has an event pending, when the main thread is not in
`do_release`. -/
def Woken (s : Release) : Prop :=
  s.pc = .outside → s.ser.relConns ≠ [] → s.ser.activate.Readable

/-- No hand-over between the two last sections of `do_release`. -/
def NotLeaving (s : Release) : ReleaseAction → Prop
  | .decreaseConn _ _ => s.pc ≠ .leaving
  | _ => True

end Release

/-- The server with any threads. -/
def release : LTS Release ReleaseAction where
  init s := s = Release.new
  step s a t := s.step a = some t

namespace Release

variable {s t : Release} {a : ReleaseAction}

/-- What every section keeps, when no hand-over falls into the window. -/
structure Inv (s : Release) : Prop where
  woken : s.Woken
  /-- A cleared flag announces an event. -/
  flag : s.pc = .outside → s.ser.isactivate = false → s.ser.activate.Readable
  /-- Nothing waits in the window. -/
  window : s.pc = .leaving → s.ser.relConns = []

theorem inv_new : new.Inv where
  woken _ h := absurd rfl h
  flag _ h := by cases h
  window h := by cases h

theorem inv_decreaseConn (h : s.Inv) (hpc : s.pc ≠ .leaving) (connfd : Int) :
    ({ s with ser := s.ser.decreaseConn connfd } : Release).Inv where
  woken hout _ := TcpServer.readable_decreaseConn (h.flag hout)
  flag hout _ := TcpServer.readable_decreaseConn (h.flag hout)
  window hleave := absurd hleave hpc

theorem inv_takeRel (hst : s.step .takeRel = some t) : t.Inv := by
  simp only [step] at hst
  split at hst
  · rename_i hpc
    cases htake : s.ser.takeRel with
    | none =>
        rw [htake] at hst
        obtain rfl := Option.some.inj hst
        refine ⟨fun hout ↦ (by cases hout), fun hout ↦ (by cases hout), fun _ ↦ ?_⟩
        unfold TcpServer.takeRel at htake
        cases hrel : s.ser.relConns with
        | nil => rfl
        | cons conn rest =>
            rw [hrel] at htake
            cases htake
    | some p =>
        rw [htake] at hst
        obtain rfl := Option.some.inj hst
        have hout : ¬(s.pc = .outside) := by
          rw [hpc]
          exact fun h ↦ by cases h
        have hleave : ¬(s.pc = .leaving) := by
          rw [hpc]
          exact fun h ↦ by cases h
        exact ⟨fun h ↦ absurd h hout, fun h ↦ absurd h hout, fun h ↦ absurd h hleave⟩
  · cases hst

theorem inv_rearm (h : s.Inv) (hst : s.step .rearm = some t) : t.Inv := by
  simp only [step] at hst
  split at hst
  · rename_i hpc
    obtain rfl := Option.some.inj hst
    exact ⟨fun _ hne ↦ absurd (h.window hpc) hne, fun _ hflag ↦ (by cases hflag),
      fun hleave ↦ (by cases hleave)⟩
  · cases hst

/-- Every section keeps the invariant, unless it is a hand-over in the window. -/
theorem inv_step (h : s.Inv) (hc : s.NotLeaving a) (hst : s.step a = some t) : t.Inv := by
  cases a with
  | increaseConn thread connfd conn =>
      obtain rfl := Option.some.inj hst
      exact ⟨h.woken, h.flag, h.window⟩
  | decreaseConn thread connfd =>
      obtain rfl := Option.some.inj hst
      exact inv_decreaseConn h hc connfd
  | enter =>
      simp only [step] at hst
      split at hst
      · obtain rfl := Option.some.inj hst
        exact ⟨fun hout ↦ (by cases hout), fun hout ↦ (by cases hout), fun h ↦ (by cases h)⟩
      · cases hst
  | takeRel => exact inv_takeRel hst
  | rearm => exact inv_rearm h hst

/-- The invariant holds in every run without a hand-over in the window. -/
theorem inv_of_reachable (h : (release.restrict NotLeaving).Reachable s) : s.Inv := by
  apply h.induction
  · rintro s rfl
    exact inv_new
  · exact fun s a t _ hi hst ↦ inv_step hi hst.1 hst.2

/-- When the main thread leaves `do_release`, what is in the queue has no event pending. -/
theorem woken_rearm (hst : s.step .rearm = some t) : t.Woken ↔ s.ser.relConns = [] := by
  simp only [step] at hst
  split at hst
  · obtain rfl := Option.some.inj hst
    constructor
    · intro hw
      by_contra hne
      exact EventFd.not_readable_read s.ser.activate (hw rfl hne)
    · exact fun he _ hne ↦ absurd he hne
  · cases hst

end Release

open Release

/-- In every run in which no hand-over falls between the last two sections of `do_release`, a
hand-over that waits has an event pending whenever the main thread is not in `do_release`.
In any run, a hand-over that does fall there has none when the main thread has left. -/
theorem woken_unless_leaving (s : Release) :
    ((release.restrict NotLeaving).Reachable s → s.Woken) ∧
      (release.Reachable s → s.pc = .leaving → ∀ thread connfd t u,
        release.step s (.decreaseConn thread connfd) t → release.step t .rearm u → ¬u.Woken) := by
  refine ⟨fun h ↦ (inv_of_reachable h).woken, fun _ _ thread connfd t u ht hu ↦ ?_⟩
  obtain rfl := Option.some.inj ht
  rw [woken_rearm hu, TcpServer.relConns_decreaseConn]
  exact List.append_ne_nil_of_right_ne_nil _ (List.cons_ne_nil _ _)

/-- A connection is handed over outside the window. -/
theorem woken_unless_leaving_once :
    ∃ s, (release.restrict NotLeaving).Reachable s ∧ s.ser.relConns = [some 100] ∧
      s.ser.activate.Readable := by
  have h₀ : (release.restrict NotLeaving).Reachable new := .init rfl
  have h₁ := h₀.next_restrict (.increaseConn 1 5 100) trivial rfl
  have h₂ := h₁.next_restrict (.decreaseConn 1 5) (fun h ↦ by cases h) rfl
  exact ⟨_, h₂, by decide, (woken_unless_leaving _).1 h₂ rfl (by decide)⟩

/-- A connection is released, and a second one is handed over in the window. -/
def lateHandOver : List ReleaseAction :=
  [.increaseConn 1 5 100, .increaseConn 2 6 200, .decreaseConn 1 5, .enter, .takeRel, .takeRel,
    .decreaseConn 2 6, .rearm]

/-- A second connection, handed over in the window, waits and nothing wakes the main thread. -/
theorem lateHandOver_not_woken :
    ∃ s, release.Run .new lateHandOver s ∧ s.pc = .outside ∧ s.deleted = [100] ∧
      s.ser.relConns = [some 200] ∧ ¬s.ser.activate.Readable ∧ ¬s.Woken := by
  obtain ⟨s, hs⟩ : ∃ s, lateHandOver.foldlM step new = some s :=
    Option.isSome_iff_exists.mp (by decide)
  have hall : (lateHandOver.foldlM step new).all (fun s ↦ decide (s.pc = .outside ∧
      s.deleted = [100] ∧ s.ser.relConns = [some 200] ∧ ¬s.ser.activate.Readable)) = true := by
    decide
  rw [hs] at hall
  obtain ⟨hpc, hdel, hrel, hread⟩ := of_decide_eq_true hall
  refine ⟨s, LTS.Run.foldlM (fun _ _ _ h ↦ h) hs, hpc, hdel, hrel, hread, fun hw ↦ ?_⟩
  exact hread (hw hpc (by rw [hrel]; exact List.cons_ne_nil _ _))

end Ylars.Reactor
