import Ylars.Dns.MissedUpdate

/-!
# One connection of the server

What the steps of the server are for a connection that stays open: the worker takes a
request of it in hand (`conn_request`), and everything else leaves its set of modules and
appends to what has been buffered for it (`conn_step`).  A module that the worker has in
hand stays there until a response for it is buffered.
-/

namespace Ylars.Dns

open Std (ExtTreeMap ExtTreeSet)
open Ylars.Lib Ylars.Proto

/-- The worker will buffer a response for a module on a connection. -/
def Pc.InHand (pc : Pc) (fd : Int) (m : UInt64) : Prop :=
  pc.Reads fd m ∨ ∃ a, pc.Carries fd a ∧ a.mod = m

/-- Whether an event is neither a request on a connection nor its end. -/
def Event.spares (fd : Int) : Event → Bool
  | .request _ fd' _ _ => fd' ≠ fd
  | .close _ fd' => fd' ≠ fd
  | _ => true

/-- What has been buffered for a connection. -/
def answersOf (fd : Int) (s : DnsServer) : List Answer := (s.conns[fd]?.map Conn.answers).getD []

/-- A worker between two callbacks has nothing in hand. -/
theorem Pc.not_inHand_idle (fd : Int) (m : UInt64) : ¬Pc.idle.InHand fd m := by
  rintro (h | ⟨a, h, -⟩)
  · exact h
  · exact h

namespace DnsServer

variable {s t : DnsServer} {fd : Int} {c : Conn} {i : ℕ}

/-- What a step makes of a connection: at most one response has been buffered, one that the
worker carried, and what was in hand is still, or is that response. -/
structure Serves (s t : DnsServer) (fd : Int) (c c' : Conn) (new : List Answer) : Prop where
  conn : t.conns[fd]? = some c'
  worker : c'.worker = c.worker
  modSet : c'.modSet = c.modSet
  open_ : ¬(t.workers c.worker).pc.Closes fd
  answers : c'.answers = c.answers ++ new
  carried : ∀ a ∈ new, new = [a] ∧ (s.workers c.worker).pc.Carries fd a
  inHand : ∀ m, (s.workers c.worker).pc.InHand fd m →
    (t.workers c.worker).pc.InHand fd m ∨ ∃ a ∈ new, a.mod = m

theorem Serves.refl (hc : t.conns[fd]? = some c) (hopen : ¬(s.workers c.worker).pc.Closes fd)
    (hpc : (t.workers c.worker).pc = (s.workers c.worker).pc) : Serves s t fd c c [] where
  conn := hc
  worker := rfl
  modSet := rfl
  open_ := by rwa [hpc]
  answers := (List.append_nil _).symm
  carried _ ha := absurd ha List.not_mem_nil
  inHand m hm := .inl (by rwa [hpc])

theorem Serves.of_not_inHand (hc : t.conns[fd]? = some c)
    (hopen : ¬(t.workers c.worker).pc.Closes fd)
    (hs : ∀ m, ¬(s.workers c.worker).pc.InHand fd m) : Serves s t fd c c [] where
  conn := hc
  worker := rfl
  modSet := rfl
  open_ := hopen
  answers := (List.append_nil _).symm
  carried _ ha := absurd ha List.not_mem_nil
  inHand m hm := absurd hm (hs m)

theorem Inv.worker_of_touches (hi : s.Inv) (hc : s.conns[fd]? = some c)
    (ht : (s.workers i).pc.Touches fd) : c.worker = i :=
  hi.worker_of_listed ((hi.worker i).touches fd ht) hc

/-- A step of another worker leaves the connection as it is. -/
theorem conn_proceed_ne (hi : s.Inv) (hs : s.proceed i = some t) (hc : s.conns[fd]? = some c)
    (hopen : ¬(s.workers c.worker).pc.Closes fd) (hw : c.worker ≠ i) : Serves s t fd c c [] := by
  have hafter : ∀ {w conns sub}, conns[fd]? = some c →
      Serves s (s.after i w conns sub) fd c c [] := fun h ↦
    .refl h hopen (congrArg Worker.pc (after_workers_ne hw))
  cases hi.proceeds hs with
  | subscribe => exact hafter hc
  | getHosts => exact hafter hc
  | @sendMsg fd' a rest c₀ hpc =>
      have hfd : fd ≠ fd' := by
        rintro rfl
        exact hw (hi.worker_of_touches hc (by rw [hpc]; exact .inl rfl))
      refine hafter ?_
      rw [Table.getElem?_insert, if_neg hfd, hc]
  | makePublishMap => exact hafter hc
  | unsubscribe => exact hafter hc
  | @erase fd' hpc =>
      have hfd : fd ≠ fd' := by
        rintro rfl
        exact hw (hi.worker_of_touches hc (by rw [hpc]; exact rfl))
      refine hafter ?_
      rw [Table.getElem?_erase, if_neg hfd, hc]

/-- The loop of `publish_change_task` closes no connection. -/
theorem not_closes_next {rest : List (Int × UInt64)} : ¬(Pc.next rest).Closes fd := by
  cases rest with
  | nil => exact id
  | cons => exact id

/-- A step of its own worker takes a connection along the steps that `Serves` lists. -/
theorem conn_proceed_self (hs : s.Proceeds c.worker t) (hc : s.conns[fd]? = some c)
    (hopen : ¬(s.workers c.worker).pc.Closes fd) : ∃ c' new, Serves s t fd c c' new := by
  cases hs with
  | @subscribe fd' modid cmdid hpc =>
      refine ⟨c, [], ⟨hc, rfl, rfl, ?_, (List.append_nil _).symm,
        fun _ ha ↦ absurd ha List.not_mem_nil, fun m hm ↦ .inl ?_⟩⟩
      · rw [after_workers_self]
        exact id
      · rw [after_workers_self]
        rw [hpc] at hm
        rcases hm with hm | ⟨a, hm, -⟩
        · exact .inl (.inl hm)
        · cases hm
  | @getHosts fd' modid cmdid rest hpc =>
      refine ⟨c, [], ⟨hc, rfl, rfl, ?_, (List.append_nil _).symm,
        fun _ ha ↦ absurd ha List.not_mem_nil, fun m hm ↦ .inl ?_⟩⟩
      · rw [after_workers_self]
        exact id
      · rw [after_workers_self]
        rw [hpc] at hm
        rcases hm with (⟨rfl, hm⟩ | hm) | ⟨a, hm, -⟩
        · exact .inr ⟨_, ⟨rfl, rfl⟩, hm⟩
        · exact .inl hm
        · cases hm
  | @sendMsg fd' a rest c₀ hpc hc₀ =>
      have hrest : ∀ m, (s.workers c.worker).pc.Reads fd m → (Pc.next rest).InHand fd m := by
        rw [hpc]
        exact fun m hm ↦ .inl (Pc.reads_next hm)
      by_cases hfd : fd' = fd
      · -- a response for this connection
        subst hfd
        obtain rfl := Option.some.inj (hc.symm.trans hc₀)
        refine ⟨{ c with answers := c.answers ++ [a] }, [a],
          ⟨ExtTreeMap.getElem?_insert_self, rfl, rfl, ?_, rfl, fun a' ha' ↦ ?_, fun m hm ↦ ?_⟩⟩
        · rw [after_workers_self]
          exact not_closes_next
        · obtain rfl := List.mem_singleton.mp ha'
          exact ⟨rfl, by rw [hpc]; exact ⟨rfl, rfl⟩⟩
        · rw [after_workers_self]
          rcases hm with hm | ⟨a', hm, hmod⟩
          · exact .inl (hrest m hm)
          · rw [hpc] at hm
            obtain ⟨-, rfl⟩ := hm
            exact .inr ⟨a, List.mem_singleton.mpr rfl, hmod⟩
      · refine ⟨c, [], ⟨?_, rfl, rfl, ?_, (List.append_nil _).symm,
        fun _ ha ↦ absurd ha List.not_mem_nil, fun m hm ↦ .inl ?_⟩⟩
        · rw [after, Table.getElem?_insert, if_neg (Ne.symm hfd), hc]
        · rw [after_workers_self]
          exact not_closes_next
        · rw [after_workers_self]
          rcases hm with hm | ⟨a', hm, -⟩
          · exact hrest m hm
          · rw [hpc] at hm
            exact absurd hm.1 hfd
  | @makePublishMap fds hpc =>
      refine ⟨c, [], .of_not_inHand hc ?_ fun m hm ↦ ?_⟩
      · rw [after_workers_self]
        exact not_closes_next
      · rw [hpc] at hm
        exact Pc.not_inHand_idle fd _ hm
  | @unsubscribe fd' mod mods hpc =>
      refine ⟨c, [], .of_not_inHand hc ?_ fun m hm ↦ ?_⟩
      · rw [after_workers_self]
        rw [hpc] at hopen
        exact hopen
      · rw [hpc] at hm
        exact Pc.not_inHand_idle fd _ hm
  | @erase fd' hpc =>
      rw [hpc] at hopen
      refine ⟨c, [], .of_not_inHand ?_ ?_ fun m hm ↦ ?_⟩
      · rw [after, Table.getElem?_erase, if_neg (Ne.symm hopen), hc]
      · rw [after_workers_self]
        exact id
      · rw [hpc] at hm
        exact Pc.not_inHand_idle fd _ hm

theorem Serves.start {w : Worker} (hpc : (s.workers i).pc = .idle) (hc : t.conns[fd]? = some c)
    (hw : t.workers = Function.update s.workers i w) (hcl : ¬w.pc.Closes fd)
    (hopen : ¬(s.workers c.worker).pc.Closes fd) : Serves s t fd c c [] := by
  by_cases e : c.worker = i
  · refine .of_not_inHand hc ?_ fun m hm ↦ ?_
    · rw [hw, e, Function.update_self]
      exact hcl
    · rw [e, hpc] at hm
      exact Pc.not_inHand_idle fd _ hm
  · exact .refl hc hopen (by rw [hw, Function.update_of_ne e])

/-- What a step does to a connection that it is no request of and does not end. -/
theorem conn_step {e : Event} (hi : s.Inv) (hs : s.step e = some t) (hc : s.conns[fd]? = some c)
    (hopen : ¬(s.workers c.worker).pc.Closes fd) (he : e.spares fd = true) :
    ∃ c' new, Serves s t fd c c' new := by
  cases e with
  | updater a =>
      obtain rfl := Option.some.inj hs
      have hkeep : (s.updater a).conns = s.conns ∧
          ((s.updater a).workers c.worker).pc = (s.workers c.worker).pc := by
        unfold DnsServer.updater
        split
        · exact ⟨rfl, rfl⟩
        · split
          · refine ⟨rfl, ?_⟩
            simp only [setWorker, Function.update_apply]
            split
            · rename_i hk
              rw [hk]
            · rfl
          · exact ⟨rfl, rfl⟩
        · exact ⟨rfl, rfl⟩
        · exact ⟨rfl, rfl⟩
      exact ⟨c, [], .refl (by rw [hkeep.1, hc]) hopen hkeep.2⟩
  | deal i =>
      simp only [DnsServer.step, Option.ite_none_right_eq_some] at hs
      obtain rfl := Option.some.inj hs.2
      have hpc := (of_isIdle hs.1).1
      exact ⟨c, [], .start hpc hc rfl (by rw [hpc]; exact id) hopen⟩
  | task i =>
      simp only [DnsServer.step, startTask, Option.ite_none_right_eq_some] at hs
      obtain rfl := Option.some.inj hs.2.2
      exact ⟨c, [], .start (of_isIdle hs.1).1 hc rfl id hopen⟩
  | request i fd' modid cmdid =>
      simp only [DnsServer.step, Option.ite_none_right_eq_some] at hs
      obtain ⟨hidle, hs⟩ := hs
      have hfd : fd ≠ fd' := Ne.symm (of_decide_eq_true he)
      unfold getReq at hs
      split at hs
      · simp only [Option.ite_none_left_eq_some] at hs
        obtain ⟨-, hs⟩ := hs
        split at hs
        · obtain rfl := Option.some.inj hs
          exact ⟨c, [], .start (of_isIdle hidle).1 hc rfl id hopen⟩
        · obtain rfl := Option.some.inj hs
          exact ⟨c, [], .start (of_isIdle hidle).1
            (by rw [Table.getElem?_insert, if_neg hfd, hc]) rfl id hopen⟩
      · cases hs
  | connect i fd' =>
      simp only [DnsServer.step, Option.ite_none_right_eq_some] at hs
      obtain ⟨hidle, hs⟩ := hs
      have hpc := (of_isIdle hidle).1
      unfold connect at hs
      split at hs
      · cases hs
      · rename_i hnone
        obtain rfl := Option.some.inj hs
        have hfd : fd ≠ fd' := by
          rintro rfl
          rw [hc] at hnone
          cases hnone
        exact ⟨c, [], .start hpc (by rw [Table.getElem?_insert, if_neg hfd, hc]) rfl
          (by rw [hpc]; exact id) hopen⟩
  | close i fd' =>
      simp only [DnsServer.step, Option.ite_none_right_eq_some] at hs
      obtain ⟨hidle, hs⟩ := hs
      unfold close at hs
      split at hs
      · simp only [Option.ite_none_right_eq_some] at hs
        obtain rfl := Option.some.inj hs.2
        have hfd : fd' ≠ fd := of_decide_eq_true he
        exact ⟨c, [], .start (of_isIdle hidle).1 hc rfl hfd hopen⟩
      · cases hs
  | proceed i =>
      by_cases hw : c.worker = i
      · exact conn_proceed_self (hw ▸ hi.proceeds hs) hc hopen
      · exact ⟨c, [], conn_proceed_ne hi hs hc hopen hw⟩

/-- A request on the connection: its module is in the set, and the worker has it in hand. -/
theorem conn_request {modid cmdid : UInt32} (hi : s.Inv)
    (hs : s.step (.request i fd modid cmdid) = some t) (hc : s.conns[fd]? = some c) :
    ∃ c', t.conns[fd]? = some c' ∧ c'.worker = c.worker ∧ c'.answers = c.answers ∧
      bookKey modid cmdid ∈ c'.modSet ∧ (∀ m ∈ c.modSet, m ∈ c'.modSet) ∧
      (t.workers c.worker).pc.InHand fd (bookKey modid cmdid) ∧
      ¬(t.workers c.worker).pc.Closes fd ∧ ∀ m, ¬(s.workers c.worker).pc.InHand fd m := by
  simp only [DnsServer.step, Option.ite_none_right_eq_some] at hs
  obtain ⟨hidle, hs⟩ := hs
  unfold getReq at hs
  rw [hc] at hs
  simp only [Option.ite_none_left_eq_some, not_not] at hs
  obtain ⟨hlisted, hs⟩ := hs
  have hw : c.worker = i := hi.worker_of_listed hlisted hc
  have hnone : ∀ m, ¬(s.workers c.worker).pc.InHand fd m := fun m ↦ by
    rw [hw, (of_isIdle hidle).1]
    exact Pc.not_inHand_idle fd m
  subst hw
  split at hs
  · rename_i hmem
    obtain rfl := Option.some.inj hs
    refine ⟨c, hc, rfl, rfl, hmem, fun _ h ↦ h, .inl ?_, ?_, hnone⟩
    · simp only [setWorker, Function.update_self]
      exact .inl ⟨rfl, rfl⟩
    · simp only [setWorker, Function.update_self]
      exact id
  · obtain rfl := Option.some.inj hs
    refine ⟨_, ExtTreeMap.getElem?_insert_self, rfl, rfl, ExtTreeSet.mem_insert_self, fun m hm ↦ ?_,
      .inl ?_, ?_, hnone⟩
    · exact Table.mem_insert.mpr (.inr hm)
    · simp only [setWorker, Function.update_self]
      exact ⟨rfl, rfl⟩
    · simp only [setWorker, Function.update_self]
      exact id

end DnsServer

end Ylars.Dns
