import Ylars.Dns.MissedUpdate
import Ylars.Lib.Table

/-!
# A push goes to the connection that has asked

`clean_subscribe` takes the subscriptions of a connection out of the book list.  What has
been filed for its descriptor in the push list stays there, and is sent to the next
connection that is given the descriptor.

`dnsProcess` is the server with `do_release`, which closes the descriptors: a new connection
is given one that no connection has and that is not waiting to be closed.  `Targeted` says
where the modules that will be sent on a connection can come from; it holds in every run
in which a new connection finds nothing filed for its descriptor.
-/

namespace Ylars.Dns

open Std (ExtTreeMap ExtTreeSet)
open Ylars.Lib

/-- The server and the main thread, which closes descriptors. -/
structure DnsProcess where
  dns : DnsServer
  /-- The descriptors in `_rel_conns`. -/
  relConns : List Int

/-- What happens next. -/
inductive ProcessEvent where
  | dns (e : Event)
  /-- `do_release` closes a descriptor. -/
  | release

namespace DnsServer

/-- The descriptor that a step hands over to be closed: `decrease_conn` follows the last
`unsubscribe`. -/
def handsOver (s : DnsServer) : Event → Option Int
  | .proceed i =>
      match (s.workers i).pc with
      | .unsubscribe fd [] => some fd
      | _ => none
  | _ => none

end DnsServer

namespace DnsProcess

/-- The kernel may give the descriptor of a new connection. -/
def mayConnect (s : DnsProcess) : Event → Bool
  | .connect _ fd => fd ∉ s.relConns
  | _ => true

/-- One step. -/
def step (s : DnsProcess) : ProcessEvent → Option DnsProcess
  | .dns e =>
      if s.mayConnect e then
        (s.dns.step e).map fun dns ↦ ⟨dns, s.relConns ++ (s.dns.handsOver e).toList⟩
      else none
  | .release =>
      match s.relConns with
      | [] => none
      | _ :: rest => some { s with relConns := rest }

/-- A new connection finds nothing filed for its descriptor. -/
def Unpushed (s : DnsProcess) : ProcessEvent → Prop
  | .dns (.connect _ fd) => ∀ m, m ∉ MultiMap.lookup s.dns.sub.pushList fd
  | _ => True

/-- Every response on a connection is for a module that it has asked for. -/
def OwnAnswers (s : DnsProcess) : Prop :=
  ∀ (fd : Int) (c : Conn), s.dns.conns[fd]? = some c → ∀ a ∈ c.answers, a.mod ∈ c.modSet

end DnsProcess

/-- The runs of the server with `do_release`. -/
def dnsProcess : LTS DnsProcess ProcessEvent where
  init s := dnsServer.init s.dns ∧ s.relConns = []
  step s e t := s.step e = some t

namespace Pc

/-- The worker is going to send a module on a connection. -/
def Sends (fd : Int) (m : UInt64) : Pc → Prop
  | .subscribe fd' modid cmdid => fd' = fd ∧ bookKey modid cmdid = m
  | .getHosts fd' modid cmdid rest => (fd' = fd ∧ bookKey modid cmdid = m) ∨ (fd, m) ∈ rest
  | .sendMsg fd' a rest => (fd' = fd ∧ a.mod = m) ∨ (fd, m) ∈ rest
  | _ => False

variable {fd : Int} {m : UInt64} {rest : List (Int × UInt64)} {pc : Pc}

/-- What the loop of `publish_change_task` sends is what it has left. -/
theorem sends_next (h : (next rest).Sends fd m) : (fd, m) ∈ rest := by
  cases rest with
  | nil => cases h
  | cons p rest =>
      rcases h with ⟨rfl, hm⟩ | h
      · obtain rfl : p.2 = m := (pack_unpack p.2).symm.trans hm
        exact List.mem_cons_self
      · exact List.mem_cons_of_mem _ h

/-- A worker sends on connections it has to do with. -/
theorem touches_of_sends (h : pc.Sends fd m) : pc.Touches fd := by
  cases pc with
  | subscribe fd' modid cmdid => exact h.1
  | getHosts fd' modid cmdid rest => exact h.imp And.left fun h ↦ ⟨m, h⟩
  | sendMsg fd' a rest => exact h.imp And.left fun h ↦ ⟨m, h⟩
  | idle => cases h
  | makePublishMap fds => cases h
  | unsubscribe fd' mods => cases h

end Pc

/-- A connection later: on the same worker, with no fewer modules. -/
structure Conn.Grows (c c' : Conn) : Prop where
  worker : c'.worker = c.worker
  modSet : ∀ m ∈ c.modSet, m ∈ c'.modSet

theorem Conn.Grows.refl (c : Conn) : c.Grows c := ⟨rfl, fun _ h ↦ h⟩

namespace DnsServer

/-- What is subscribed, filed and sent for a connection is in its module set. -/
structure Targeted (s : DnsServer) : Prop where
  /-- Subscriptions are those of live connections; while one is closed, the worker has still to
  take them back. -/
  book : ∀ (fd : Int) (m : UInt64), fd ∈ MultiMap.lookup s.sub.bookList m →
    ∃ c, s.conns[fd]? = some c ∧ m ∈ c.modSet ∧
      ∀ mods, (s.workers c.worker).pc = .unsubscribe fd mods → m ∈ mods
  push : ∀ (fd : Int) (m : UInt64), m ∈ MultiMap.lookup s.sub.pushList fd →
    ∀ c, s.conns[fd]? = some c → m ∈ c.modSet
  sends : ∀ (i : Nat) (fd : Int) (m : UInt64), (s.workers i).pc.Sends fd m →
    ∀ c, s.conns[fd]? = some c → m ∈ c.modSet
  sent : ∀ (fd : Int) (c : Conn), s.conns[fd]? = some c → ∀ a ∈ c.answers, a.mod ∈ c.modSet

/-- `conns'` has the connections of `conns`, some of them at a later time. -/
def GrowsTo (conns conns' : ExtTreeMap Int Conn) : Prop :=
  ∀ fd : Int, (∀ c', conns'[fd]? = some c' → ∃ c, conns[fd]? = some c ∧ c.Grows c') ∧
    ∀ c, conns[fd]? = some c → ∃ c', conns'[fd]? = some c' ∧ c.Grows c'

theorem GrowsTo.refl (conns : ExtTreeMap Int Conn) : GrowsTo conns conns := fun _ ↦
  ⟨fun c h ↦ ⟨c, h, .refl c⟩, fun c h ↦ ⟨c, h, .refl c⟩⟩

theorem GrowsTo.insert {conns : ExtTreeMap Int Conn} {fd : Int} {c c' : Conn}
    (hc : conns[fd]? = some c) (hg : c.Grows c') : GrowsTo conns (conns.insert fd c') := by
  intro fd'
  rw [Table.getElem?_insert]
  by_cases e : fd' = fd
  · subst e
    rw [if_pos rfl, hc]
    constructor
    · rintro _ ⟨rfl⟩
      exact ⟨c, rfl, hg⟩
    · rintro _ ⟨rfl⟩
      exact ⟨c', rfl, hg⟩
  · rw [if_neg e]
    exact GrowsTo.refl conns fd'

variable {s t : DnsServer} {fd : Int} {c : Conn} {i : Nat} {m : UInt64} {w : Worker}
  {conns : ExtTreeMap Int Conn} {sub : SubscribeList}

/-- A step of a worker that only lets connections grow, subscribes to nothing and files
nothing. -/
theorem Targeted.after (h : s.Targeted) (hconns : GrowsTo s.conns conns)
    (hbook : sub.bookList = s.sub.bookList)
    (hpush : ∀ (fd : Int) (m : UInt64), m ∈ MultiMap.lookup sub.pushList fd →
      m ∈ MultiMap.lookup s.sub.pushList fd)
    (hclose : ∀ fd mods, w.pc = .unsubscribe fd mods → ∀ c, conns[fd]? = some c →
      ∀ m ∈ c.modSet, m ∈ mods)
    (hsends : ∀ fd m, w.pc.Sends fd m → ∀ c, conns[fd]? = some c → m ∈ c.modSet)
    (hsent : ∀ (fd : Int) (c : Conn), conns[fd]? = some c → ∀ a ∈ c.answers, a.mod ∈ c.modSet) :
    (s.after i w conns sub).Targeted where
  book fd m hm := by
    change fd ∈ MultiMap.lookup sub.bookList m at hm
    rw [hbook] at hm
    obtain ⟨c, hc, hmod, hcl⟩ := h.book fd m hm
    obtain ⟨c', hc', hg⟩ := (hconns fd).2 c hc
    refine ⟨c', hc', hg.modSet m hmod, fun mods hpc ↦ ?_⟩
    by_cases e : c'.worker = i
    · rw [e, after_workers_self] at hpc
      exact hclose fd mods hpc c' hc' m (hg.modSet m hmod)
    · rw [after_workers_ne e, hg.worker] at hpc
      exact hcl mods hpc
  push fd m hm c' hc' := by
    obtain ⟨c, hc, hg⟩ := (hconns fd).1 c' hc'
    exact hg.modSet m (h.push fd m (hpush fd m hm) c hc)
  sends j fd m hm c' hc' := by
    by_cases e : j = i
    · subst e
      rw [after_workers_self] at hm
      exact hsends fd m hm c' hc'
    · rw [after_workers_ne e] at hm
      obtain ⟨c, hc, hg⟩ := (hconns fd).1 c' hc'
      exact hg.modSet m (h.sends j fd m hm c hc)
  sent := hsent

/-- A step that leaves the workers where they are and files only what is subscribed. -/
theorem Targeted.frame (h : s.Targeted) (hpc : ∀ i, (t.workers i).pc = (s.workers i).pc)
    (hconns : t.conns = s.conns) (hbook : t.sub.bookList = s.sub.bookList)
    (hpush : ∀ (fd : Int) (m : UInt64), m ∈ MultiMap.lookup t.sub.pushList fd →
      m ∈ MultiMap.lookup s.sub.pushList fd ∨ fd ∈ MultiMap.lookup s.sub.bookList m) :
    t.Targeted where
  book := by
    rw [hbook, hconns]
    simp only [hpc]
    exact h.book
  push := by
    rw [hconns]
    intro fd m hm c hc
    rcases hpush fd m hm with hm | hm
    · exact h.push fd m hm c hc
    · obtain ⟨c', hc', hmod, -⟩ := h.book fd m hm
      rw [hc] at hc'
      exact Option.some.inj hc' ▸ hmod
  sends := by
    rw [hconns]
    simp only [hpc]
    exact h.sends
  sent := by
    rw [hconns]
    exact h.sent

theorem Targeted.updater (h : s.Targeted) (a : Answers) : (s.updater a).Targeted := by
  unfold DnsServer.updater
  split
  · exact h.frame (fun _ ↦ rfl) rfl rfl fun _ _ hm ↦
      (SubscribeList.mem_pushList_publish.mp hm).imp_right And.right
  · rename_i k _ _
    split
    · refine h.frame (fun i ↦ ?_) rfl rfl fun _ _ hm ↦ .inl hm
      change (Function.update s.workers k _ i).pc = (s.workers i).pc
      by_cases e : i = k
      · subst e
        rw [Function.update_self]
      · rw [Function.update_of_ne e]
    · exact h.frame (fun _ ↦ rfl) rfl rfl fun _ _ hm ↦ .inl hm
  · exact h.frame (fun _ ↦ rfl) rfl rfl fun _ _ hm ↦ .inl hm
  · exact h.frame (fun _ ↦ rfl) rfl rfl fun _ _ hm ↦ .inl hm

theorem Targeted.move (h : s.Targeted)
    (hclose : ∀ fd mods, w.pc = .unsubscribe fd mods → ∀ c, s.conns[fd]? = some c →
      ∀ m ∈ c.modSet, m ∈ mods)
    (hsends : ∀ fd m, w.pc.Sends fd m → ∀ c, s.conns[fd]? = some c → m ∈ c.modSet) :
    (s.after i w s.conns s.sub).Targeted :=
  h.after (.refl _) rfl (fun _ _ hm ↦ hm) hclose hsends h.sent

theorem Targeted.deal (h : s.Targeted) (hpc : (s.workers i).pc = .idle) :
    (s.deal i).Targeted := by
  change (s.after i { s.workers i with
    queue := 0, asyncTasks := (s.workers i).asyncTasks + (s.workers i).queue } s.conns
    s.sub).Targeted
  refine h.move (fun fd mods hw ↦ ?_) fun fd m hm ↦ ?_
  · cases hpc.symm.trans hw
  · change (s.workers i).pc.Sends fd m at hm
    rw [hpc] at hm
    cases hm

theorem Targeted.startTask (h : s.Targeted) (hs : s.startTask i = some t) : t.Targeted := by
  unfold DnsServer.startTask at hs
  simp only at hs
  split at hs
  · obtain rfl := Option.some.inj hs
    change (s.after i { s.workers i with
      pc := .makePublishMap (s.workers i).lfds, asyncTasks := (s.workers i).asyncTasks - 1 }
      s.conns s.sub).Targeted
    exact h.move (fun fd mods hw ↦ by cases hw) fun fd m hm ↦ by cases hm
  · cases hs

theorem Targeted.getReq {modid cmdid : UInt32} (h : s.Targeted)
    (hs : s.getReq i fd modid cmdid = some t) : t.Targeted := by
  unfold DnsServer.getReq at hs
  simp only at hs
  cases hc : s.conns[fd]? with
  | none =>
      rw [hc] at hs
      cases hs
  | some c =>
      rw [hc] at hs
      simp only at hs
      split at hs
      · cases hs
      split at hs
      · rename_i hmem
        obtain rfl := Option.some.inj hs
        change (s.after i { s.workers i with pc := .getHosts fd modid cmdid [] } s.conns
          s.sub).Targeted
        refine h.move (fun fd mods hw ↦ by cases hw) fun fd' m hm c' hc' ↦ ?_
        rcases hm with ⟨rfl, rfl⟩ | hm
        · rw [hc] at hc'
          exact Option.some.inj hc' ▸ hmem
        · cases hm
      · obtain rfl := Option.some.inj hs
        -- the module joins the set before it is subscribed to
        have hg : c.Grows { c with modSet := c.modSet.insert (bookKey modid cmdid) } :=
          ⟨rfl, fun m hm ↦ Table.mem_insert.mpr (.inr hm)⟩
        change (s.after i { s.workers i with pc := .subscribe fd modid cmdid }
          (s.conns.insert fd { c with modSet := c.modSet.insert (bookKey modid cmdid) })
          s.sub).Targeted
        refine h.after (.insert hc hg) rfl (fun _ _ hm ↦ hm) (fun fd mods hw ↦ by cases hw)
          (fun fd' m hm c' hc' ↦ ?_) fun fd' c' hc' a ha ↦ ?_
        · obtain ⟨rfl, rfl⟩ := hm
          rw [Table.getElem?_insert, if_pos rfl] at hc'
          obtain rfl := Option.some.inj hc'
          exact Table.mem_insert.mpr (.inl rfl)
        · rw [Table.getElem?_insert] at hc'
          split at hc'
          · obtain rfl := Option.some.inj hc'
            exact hg.modSet _ (h.sent fd c hc a ha)
          · exact h.sent fd' c' hc' a ha

/-- A new connection, for which nothing is filed, keeps the push list targeted. -/
theorem Targeted.connect (h : s.Targeted) (hi : s.Inv) (hpc : (s.workers i).pc = .idle)
    (hun : ∀ m, m ∉ MultiMap.lookup s.sub.pushList fd) (hs : s.connect i fd = some t) :
    t.Targeted := by
  unfold DnsServer.connect at hs
  simp only at hs
  cases hc : s.conns[fd]? with
  | some c =>
      rw [hc] at hs
      cases hs
  | none =>
      rw [hc] at hs
      obtain rfl := Option.some.inj hs
      have hget : ∀ fd' : Int, fd' ≠ fd →
          (s.conns.insert fd { worker := i, modSet := ∅, answers := [] })[fd']? =
            s.conns[fd']? := fun fd' e ↦ by rw [Table.getElem?_insert, if_neg e]
      have hnone : ∀ c, s.conns[fd]? ≠ some c := fun c hc' ↦ by
        rw [hc] at hc'
        cases hc'
      have hworkers : ∀ j, (Function.update s.workers i
          { s.workers i with lfds := (s.workers i).lfds.insert fd } j).pc = (s.workers j).pc := by
        intro j
        by_cases e : j = i
        · subst e
          rw [Function.update_self]
        · rw [Function.update_of_ne e]
      refine ⟨fun fd' m hm ↦ ?_, fun fd' m hm c' hc' ↦ ?_, fun j fd' m hm c' hc' ↦ ?_,
        fun fd' c' hc' a ha ↦ ?_⟩
      · obtain ⟨c', hc', hmod, hcl⟩ := h.book fd' m hm
        refine ⟨c', ?_, hmod, fun mods hw ↦ hcl mods ((hworkers _).symm.trans hw)⟩
        exact (hget fd' fun e ↦ hnone c' (e ▸ hc')).trans hc'
      · by_cases e : fd' = fd
        · exact absurd hm (e ▸ hun m)
        · exact h.push fd' m hm c' ((hget fd' e).symm.trans hc')
      · have hm' : (s.workers j).pc.Sends fd' m := hworkers j ▸ hm
        by_cases e : fd' = fd
        · -- a worker has to do with the connections of its loop only
          have hl := (hi.worker j).touches fd' (Pc.touches_of_sends hm')
          obtain ⟨c, hc', -⟩ := (hi.worker j).owns fd' hl
          exact absurd (e ▸ hc') (hnone c)
        · exact h.sends j fd' m hm' c' ((hget fd' e).symm.trans hc')
      · by_cases e : fd' = fd
        · subst e
          change (s.conns.insert fd' _)[fd']? = some c' at hc'
          rw [Table.getElem?_insert, if_pos rfl] at hc'
          obtain rfl := Option.some.inj hc'
          cases ha
        · exact h.sent fd' c' ((hget fd' e).symm.trans hc') a ha

theorem Targeted.close (h : s.Targeted) (hs : s.close i fd = some t) : t.Targeted := by
  unfold DnsServer.close at hs
  simp only at hs
  cases hc : s.conns[fd]? with
  | none =>
      rw [hc] at hs
      cases hs
  | some c =>
      rw [hc] at hs
      simp only at hs
      split at hs
      · obtain rfl := Option.some.inj hs
        change (s.after i { s.workers i with pc := .unsubscribe fd c.modSet.toList } s.conns
          s.sub).Targeted
        refine h.move (fun fd' mods hw c' hc' m hm ↦ ?_) fun fd m hm ↦ by cases hm
        cases hw
        rw [hc] at hc'
        obtain rfl := Option.some.inj hc'
        exact ExtTreeSet.mem_toList.mpr hm
      · cases hs

/-- A worker subscribes to a module of the set. -/
theorem Targeted.subscribe {modid cmdid : UInt32} (h : s.Targeted) (hi : s.Inv)
    (hpc : (s.workers i).pc = .subscribe fd modid cmdid) :
    (s.after i { s.workers i with pc := .getHosts fd modid cmdid [] } s.conns
      (s.sub.subscribe (bookKey modid cmdid) fd)).Targeted := by
  have htouch : fd ∈ (s.workers i).lfds := (hi.worker i).touches fd (by rw [hpc]; rfl)
  obtain ⟨c, hc, hown⟩ := (hi.worker i).owns fd htouch
  have hreq : bookKey modid cmdid ∈ c.modSet := by
    refine h.sends i fd _ ?_ c hc
    rw [hpc]
    exact ⟨rfl, rfl⟩
  -- up to the new subscription it is a move
  have hmove : (s.after i { s.workers i with pc := .getHosts fd modid cmdid [] } s.conns
      s.sub).Targeted := by
    refine h.move (fun fd mods hw ↦ by cases hw) fun fd' m hm c' hc' ↦ ?_
    rcases hm with ⟨rfl, rfl⟩ | hm
    · rw [hc] at hc'
      exact Option.some.inj hc' ▸ hreq
    · cases hm
  refine ⟨fun fd' m hm ↦ ?_, hmove.push, hmove.sends, hmove.sent⟩
  rcases SubscribeList.mem_bookList_subscribe.mp hm with hm | ⟨rfl, rfl⟩
  · exact hmove.book fd' m hm
  · refine ⟨c, hc, hreq, fun mods hw ↦ ?_⟩
    rw [hown] at hw
    have hself : (s.after i { s.workers i with pc := .getHosts fd' modid cmdid [] } s.conns
        (s.sub.subscribe (bookKey modid cmdid) fd')).workers i =
          { s.workers i with pc := .getHosts fd' modid cmdid [] } := after_workers_self
    rw [hself] at hw
    cases hw

theorem Targeted.getHosts {modid cmdid : UInt32} {rest : List (Int × UInt64)} (h : s.Targeted)
    (hpc : (s.workers i).pc = .getHosts fd modid cmdid rest) :
    (s.after i { s.workers i with pc := .sendMsg fd (s.answer modid cmdid) rest } s.conns
      s.sub).Targeted := by
  refine h.move (fun fd mods hw ↦ by cases hw) fun fd' m hm c hc ↦ h.sends i fd' m ?_ c hc
  rw [hpc]
  exact hm

/-- A worker buffers a response. -/
theorem Targeted.sendMsg {a : Answer} {rest : List (Int × UInt64)} (h : s.Targeted)
    (hpc : (s.workers i).pc = .sendMsg fd a rest) (hc : s.conns[fd]? = some c) :
    (s.after i { s.workers i with pc := .next rest }
      (s.conns.insert fd { c with answers := c.answers ++ [a] }) s.sub).Targeted := by
  have hmod : a.mod ∈ c.modSet := by
    refine h.sends i fd _ ?_ c hc
    rw [hpc]
    exact .inl ⟨rfl, rfl⟩
  have hgrows : GrowsTo s.conns (s.conns.insert fd { c with answers := c.answers ++ [a] }) :=
    .insert hc ⟨rfl, fun _ hm ↦ hm⟩
  refine h.after hgrows rfl (fun _ _ hm ↦ hm) (fun fd mods hw ↦ ?_) (fun fd' m hm c' hc' ↦ ?_)
    fun fd' c' hc' a' ha' ↦ ?_
  · have hw' : Pc.next rest = .unsubscribe fd mods := hw
    cases rest <;> cases hw'
  · obtain ⟨c₀, hc₀, hg⟩ := (hgrows fd').1 c' hc'
    refine hg.modSet m (h.sends i fd' m ?_ c₀ hc₀)
    rw [hpc]
    exact .inr (Pc.sends_next hm)
  · rw [Table.getElem?_insert] at hc'
    split at hc'
    · obtain rfl := Option.some.inj hc'
      rcases List.mem_append.mp ha' with ha' | ha'
      · exact h.sent fd c hc a' ha'
      · obtain rfl := List.mem_singleton.mp ha'
        exact hmod
    · exact h.sent fd' c' hc' a' ha'

/-- A worker takes what is filed for its connections. -/
theorem Targeted.makePublishMap {fds : ExtTreeSet Int} (h : s.Targeted) :
    (s.after i { s.workers i with pc := .next (s.sub.makePublishMap fds).1 } s.conns
      (s.sub.makePublishMap fds).2).Targeted := by
  refine h.after (.refl _) rfl
    (fun fd m hm ↦ (SubscribeList.mem_pushList_makePublishMap.mp hm).2) (fun fd mods hw ↦ ?_)
    (fun fd m hm c hc ↦ ?_) h.sent
  · have hw' : Pc.next (s.sub.needPublish fds) = .unsubscribe fd mods := hw
    cases hn : s.sub.needPublish fds <;> rw [hn] at hw' <;> cases hw'
  · exact h.push fd m (SubscribeList.mem_needPublish.mp (Pc.sends_next hm)).2 c hc

/-- `clean_subscribe` takes one subscription away. -/
theorem Targeted.unsubscribe {mod : UInt64} {mods : List UInt64} (h : s.Targeted) (hi : s.Inv)
    (hpc : (s.workers i).pc = .unsubscribe fd (mod :: mods)) :
    (s.after i { s.workers i with pc := .unsubscribe fd mods } s.conns
      (s.sub.unsubscribe mod fd)).Targeted := by
  have htouch : fd ∈ (s.workers i).lfds := (hi.worker i).touches fd (by rw [hpc]; rfl)
  refine ⟨fun fd' m hm ↦ ?_, h.push, fun j fd' m hm ↦ ?_, h.sent⟩
  · obtain ⟨hm, hne⟩ := SubscribeList.mem_bookList_unsubscribe.mp hm
    obtain ⟨c, hc, hmod, hcl⟩ := h.book fd' m hm
    refine ⟨c, hc, hmod, fun mods' hw ↦ ?_⟩
    by_cases e : c.worker = i
    · rw [e, after_workers_self] at hw
      cases hw
      rcases List.mem_cons.mp (hcl (mod :: mods) (e ▸ hpc)) with rfl | hm
      · exact absurd ⟨rfl, rfl⟩ hne
      · exact hm
    · rw [after_workers_ne e] at hw
      exact hcl mods' hw
  · by_cases e : j = i
    · subst e
      rw [after_workers_self] at hm
      cases hm
    · rw [after_workers_ne e] at hm
      exact h.sends j fd' m hm

/-- A connection is gone, and its subscriptions with it. -/
theorem Targeted.erase (h : s.Targeted) (hi : s.Inv)
    (hpc : (s.workers i).pc = .unsubscribe fd []) :
    (s.after i { s.workers i with pc := .idle, lfds := (s.workers i).lfds.erase fd }
      (s.conns.erase fd) s.sub).Targeted := by
  have htouch : fd ∈ (s.workers i).lfds := (hi.worker i).touches fd (by rw [hpc]; rfl)
  have hsub : ∀ {fd' : Int} {c : Conn}, (s.conns.erase fd)[fd']? = some c →
      s.conns[fd']? = some c := by
    intro fd' c hc
    rw [Table.getElem?_erase] at hc
    split at hc
    · cases hc
    · exact hc
  refine ⟨fun fd' m hm ↦ ?_, fun fd' m hm c hc ↦ h.push fd' m hm c (hsub hc),
    fun j fd' m hm c hc ↦ ?_, fun fd' c hc ↦ h.sent fd' c (hsub hc)⟩
  · obtain ⟨c, hc, hmod, hcl⟩ := h.book fd' m hm
    by_cases e : fd' = fd
    · -- every subscription has been taken back
      subst e
      have hown : c.worker = i := hi.worker_of_listed htouch hc
      exact absurd (hcl [] (hown ▸ hpc)) List.not_mem_nil
    · refine ⟨c, ?_, hmod, fun mods hw ↦ ?_⟩
      · change (s.conns.erase fd)[fd']? = some c
        rw [Table.getElem?_erase, if_neg e]
        exact hc
      · by_cases e' : c.worker = i
        · rw [e', after_workers_self] at hw
          cases hw
        · rw [after_workers_ne e'] at hw
          exact hcl mods hw
  · by_cases e : j = i
    · subst e
      rw [after_workers_self] at hm
      cases hm
    · rw [after_workers_ne e] at hm
      exact h.sends j fd' m hm c (hsub hc)

theorem Targeted.proceed (h : s.Targeted) (hi : s.Inv) (hs : s.proceed i = some t) :
    t.Targeted := by
  cases hi.proceeds hs with
  | subscribe hpc => exact h.subscribe hi hpc
  | getHosts hpc => exact h.getHosts hpc
  | sendMsg hpc hc => exact h.sendMsg hpc hc
  | makePublishMap hpc => exact h.makePublishMap
  | unsubscribe hpc => exact h.unsubscribe hi hpc
  | erase hpc => exact h.erase hi hpc

end DnsServer

namespace DnsProcess

variable {s t : DnsProcess}

/-- Every step keeps what is sent on a connection in its module set, when a new connection
finds nothing filed. -/
theorem targeted_step {e : Event} {dns : DnsServer} (h : s.dns.Targeted) (hi : s.dns.Inv)
    (hun : s.Unpushed (.dns e)) (hs : s.dns.step e = some dns) : dns.Targeted := by
  cases e with
  | updater a =>
      obtain rfl := Option.some.inj hs
      exact h.updater a
  | deal i =>
      simp only [DnsServer.step, Option.ite_none_right_eq_some] at hs
      obtain rfl := Option.some.inj hs.2
      exact h.deal (DnsServer.of_isIdle hs.1).1
  | task i =>
      simp only [DnsServer.step, Option.ite_none_right_eq_some] at hs
      exact h.startTask hs.2
  | request i fd modid cmdid =>
      simp only [DnsServer.step, Option.ite_none_right_eq_some] at hs
      exact h.getReq hs.2
  | connect i fd =>
      simp only [DnsServer.step, Option.ite_none_right_eq_some] at hs
      exact h.connect hi (DnsServer.of_isIdle hs.1).1 hun hs.2
  | close i fd =>
      simp only [DnsServer.step, Option.ite_none_right_eq_some] at hs
      exact h.close hs.2
  | proceed i => exact h.proceed hi hs

/-- A step of the process is one of the server, or closes a descriptor. -/
theorem step_cases {e : ProcessEvent} (hs : s.step e = some t) :
    (∃ e', e = .dns e' ∧ s.dns.step e' = some t.dns) ∨ t.dns = s.dns := by
  cases e with
  | dns e' =>
      simp only [step, Option.ite_none_right_eq_some, Option.map_eq_some_iff] at hs
      obtain ⟨-, dns, hdns, rfl⟩ := hs
      exact .inl ⟨e', rfl, hdns⟩
  | release =>
      simp only [step] at hs
      split at hs
      · cases hs
      · obtain rfl := Option.some.inj hs
        exact .inr rfl

/-- In every run in which a new connection finds nothing filed for its descriptor. -/
theorem targeted_of_reachable (h : (dnsProcess.restrict Unpushed).Reachable s) :
    s.dns.Inv ∧ s.dns.Targeted := by
  refine h.induction (I := fun s ↦ s.dns.Inv ∧ s.dns.Targeted) ?_ ?_
  · rintro ⟨dns, rel⟩ ⟨hinit, -⟩
    refine ⟨DnsServer.inv_of_reachable (.init hinit), ?_⟩
    obtain ⟨threadNum, res, rfl⟩ := hinit
    refine ⟨fun fd m hm ↦ ?_, fun fd m hm ↦ ?_, fun i fd m hm ↦ ?_, fun fd c hc ↦ ?_⟩
    · exact absurd hm (by simp [DnsServer.start])
    · exact absurd hm (by simp [DnsServer.start])
    · cases hm
    · simp [DnsServer.start] at hc
  · rintro s e t - ⟨hi, h⟩ ⟨hun, hst⟩
    rcases step_cases hst with ⟨e', rfl, hdns⟩ | hdns
    · exact ⟨hi.step hdns, targeted_step h hi hun hdns⟩
    · rw [hdns]
      exact ⟨hi, h⟩

end DnsProcess

open DnsProcess

/-- In every run in which a new connection is given a descriptor that nothing is filed for in
the push list, every response on a connection is for a module that it has asked for. -/
theorem own_answers {s : DnsProcess} (h : (dnsProcess.restrict Unpushed).Reachable s) :
    s.OwnAnswers :=
  (targeted_of_reachable h).2.sent

/-- The process with one worker. -/
def DnsProcess.start : DnsProcess where
  dns := DnsServer.start 1 (Router.new .noResult)
  relConns := []

/-- Events without a new connection meet the condition. -/
theorem run_unpushed {s t : DnsProcess} {es : List ProcessEvent}
    (hes : ∀ e ∈ es, ∀ i fd, e ≠ .dns (.connect i fd)) (h : es.foldlM step s = some t) :
    (dnsProcess.restrict Unpushed).Run s es t := by
  induction es generalizing s with
  | nil =>
      obtain rfl := Option.some.inj h
      exact .nil _
  | cons e es ih =>
      rw [List.foldlM_cons] at h
      obtain ⟨mid, hmid, h⟩ := Option.bind_eq_some_iff.mp h
      obtain ⟨he, hes⟩ := List.forall_mem_cons.mp hes
      refine .cons ⟨?_, hmid⟩ (ih hes h)
      cases e with
      | release => trivial
      | dns e =>
          cases e with
          | connect i fd => exact absurd rfl (he i fd)
          | updater | deal | task | request | close | proceed => trivial

/-- The connection asks for a module and is answered, and the module is published and pushed. -/
def pushedOnce : List ProcessEvent :=
  [.request 0 5 1 1, .proceed 0, .proceed 0, .proceed 0,
    .updater newVersion, .updater newVersion, .updater newVersion, .updater newVersion,
    .updater newVersion, .updater newVersion, .updater newVersion,
    .deal 0, .task 0, .proceed 0, .proceed 0, .proceed 0].map .dns

/-- The connection ends, and its descriptor is closed. -/
def leaves : List ProcessEvent :=
  [.close 0 5, .proceed 0, .proceed 0].map .dns ++ [.release]

/-- The next connection asks for another module. -/
def asksAgain : List ProcessEvent := [.request 0 5 1 2, .proceed 0, .proceed 0, .proceed 0].map .dns

/-- The state after some events, if they can happen. -/
def DnsProcess.after (s : DnsProcess) (es : List ProcessEvent) : DnsProcess :=
  (es.foldlM step s).getD s

theorem foldlM_after {s : DnsProcess} {es : List ProcessEvent}
    (h : (es.foldlM step s).isSome = true) : es.foldlM step s = some (s.after es) := by
  obtain ⟨t, ht⟩ := Option.isSome_iff_exists.mp h
  rw [DnsProcess.after, ht]
  rfl

/-- The state after the push. -/
def pushed : DnsProcess := (DnsProcess.start.after [.dns (.connect 0 5)]).after pushedOnce

/-- The state after the descriptor has been given to another connection. -/
def reused : DnsProcess := (pushed.after leaves).after [.dns (.connect 0 5)]

/-- A connection is answered and pushed the module that it has asked for, and the next connection
with its descriptor is answered another one. -/
theorem own_answers_asked :
    (dnsProcess.restrict Unpushed).Reachable pushed ∧ pushed.OwnAnswers ∧
      (∃ c, pushed.dns.conns[(5 : Int)]? = some c ∧
        c.answers.map Answer.mod = [bookKey 1 1, bookKey 1 1]) ∧
      (dnsProcess.restrict Unpushed).Reachable (reused.after asksAgain) ∧
      (reused.after asksAgain).OwnAnswers ∧
      ∃ c, (reused.after asksAgain).dns.conns[(5 : Int)]? = some c ∧
        c.answers.map Answer.mod = [bookKey 1 2] := by
  have h₀ : (dnsProcess.restrict Unpushed).Reachable DnsProcess.start :=
    .init ⟨⟨1, _, rfl⟩, rfl⟩
  have h₁ := h₀.next_restrict (.dns (.connect 0 5)) (fun _ ↦ MultiMap.notMem_empty) rfl
  have h₂ : (dnsProcess.restrict Unpushed).Reachable pushed :=
    h₁.run (run_unpushed (by simp [pushedOnce]) (foldlM_after rfl))
  have h₃ : (dnsProcess.restrict Unpushed).Reachable (pushed.after leaves) :=
    h₂.run (run_unpushed (by simp [leaves]) (foldlM_after rfl))
  have h₄ : (dnsProcess.restrict Unpushed).Reachable reused :=
    h₃.next_restrict (.dns (.connect 0 5)) (fun _ ↦ MultiMap.notMem_empty) rfl
  have h₅ : (dnsProcess.restrict Unpushed).Reachable (reused.after asksAgain) :=
    h₄.run (run_unpushed (by simp [asksAgain]) (foldlM_after rfl))
  exact ⟨h₂, own_answers h₂, ⟨_, rfl, by decide⟩, h₅, own_answers h₅, _, rfl, by decide⟩

/-- A connection asks for a module, the module is published, and the connection is closed
before the task runs; the next connection is given its descriptor. -/
def staleEntry : List ProcessEvent :=
  [.connect 0 5, .request 0 5 1 1, .proceed 0, .proceed 0, .proceed 0,
    .updater newVersion, .updater newVersion, .updater newVersion, .updater newVersion,
    .updater newVersion, .updater newVersion, .updater newVersion,
    .close 0 5, .proceed 0, .proceed 0].map .dns ++
  [.release] ++
  [.connect 0 5, .deal 0, .task 0, .proceed 0, .proceed 0, .proceed 0].map .dns

/-- The new connection has asked for nothing and is sent the module. -/
theorem staleEntry_not_own :
    ∃ s, dnsProcess.Run DnsProcess.start staleEntry s ∧ dnsProcess.Reachable s ∧
      (∃ c, s.dns.conns[(5 : Int)]? = some c ∧ c.answers.map Answer.mod = [bookKey 1 1] ∧
        c.modSet.toList = []) ∧ ¬s.OwnAnswers := by
  obtain ⟨s, hs⟩ : ∃ s, staleEntry.foldlM step DnsProcess.start = some s :=
    Option.isSome_iff_exists.mp (by decide)
  have hall : (staleEntry.foldlM step DnsProcess.start).all (fun s ↦
      s.dns.conns[(5 : Int)]?.any fun c ↦
        decide (c.answers.map Answer.mod = [bookKey 1 1] ∧ c.modSet.toList = [])) = true := by
    decide
  rw [hs, Option.all_some] at hall
  obtain ⟨c, hc⟩ : ∃ c, s.dns.conns[(5 : Int)]? = some c := by
    rw [← Option.isSome_iff_exists]
    exact Option.isSome_of_any hall
  rw [hc, Option.any_some] at hall
  obtain ⟨hans, hmods⟩ := of_decide_eq_true hall
  have hrun : dnsProcess.Run DnsProcess.start staleEntry s := LTS.Run.foldlM (fun _ _ _ h ↦ h) hs
  refine ⟨s, hrun, LTS.Reachable.run (.init ⟨⟨1, _, rfl⟩, rfl⟩) hrun, ⟨c, hc, hans, hmods⟩, ?_⟩
  intro hown
  obtain ⟨a, ha, hmod⟩ := List.mem_map.mp (hans ▸ List.mem_singleton_self (bookKey 1 1))
  have hmem := ExtTreeSet.mem_toList.mpr (hown 5 c hc a ha)
  rw [hmods] at hmem
  cases hmem

end Ylars.Dns
