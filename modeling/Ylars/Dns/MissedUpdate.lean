import Ylars.Dns.DnsServer
import Ylars.Lib.Table

/-!
# No update is missed

A connection that has asked for a module is sent the table of every swap that the module
was published after, or a later one.  `Covered` says of one such connection and one such
swap where the update is at any moment: sent; in the push list with a task to fetch it; or
in the hands of the worker.  It rests on two facts about a worker: between the entry into
the module set and the subscription it is in `get_req` and will read the table afterwards,
and what it buffers for a connection it reads in the order it buffers it.
-/

namespace Ylars.Dns

open Std (ExtTreeMap ExtTreeSet)
open Ylars.Lib Ylars.Proto

namespace Pc

/-- The worker is in `get_req`, before the subscription to a module. -/
def Subscribes (fd : Int) (m : UInt64) : Pc → Prop
  | .subscribe fd' modid cmdid => fd' = fd ∧ bookKey modid cmdid = m
  | _ => False

/-- The worker will read the hosts of a module for a connection. -/
def Reads (fd : Int) (m : UInt64) : Pc → Prop
  | .subscribe fd' modid cmdid => fd' = fd ∧ bookKey modid cmdid = m
  | .getHosts fd' modid cmdid rest => (fd' = fd ∧ bookKey modid cmdid = m) ∨ (fd, m) ∈ rest
  | .sendMsg _ _ rest => (fd, m) ∈ rest
  | _ => False

/-- The worker has read a response for a connection and is about to buffer it. -/
def Carries (fd : Int) (a : Answer) : Pc → Prop
  | .sendMsg fd' a' _ => fd' = fd ∧ a' = a
  | _ => False

/-- The worker is about to take from the push list what concerns a connection. -/
def Collects (fd : Int) : Pc → Prop
  | .makePublishMap fds => fd ∈ fds
  | _ => False

/-- The worker is closing a connection. -/
def Closes (fd : Int) : Pc → Prop
  | .unsubscribe fd' _ => fd' = fd
  | _ => False

/-- The connections that the worker has to do with. -/
def Touches (fd : Int) : Pc → Prop
  | .idle => False
  | .subscribe fd' _ _ => fd' = fd
  | .getHosts fd' _ _ rest => fd' = fd ∨ ∃ m, (fd, m) ∈ rest
  | .sendMsg fd' _ rest => fd' = fd ∨ ∃ m, (fd, m) ∈ rest
  | .makePublishMap fds => fd ∈ fds
  | .unsubscribe fd' _ => fd' = fd

variable {fd : Int} {m : UInt64} {rest : List (Int × UInt64)}

/-- The loop of `publish_change_task` reads what is left of `need_publish`. -/
theorem reads_next (h : (fd, m) ∈ rest) : (next rest).Reads fd m := by
  cases rest with
  | nil => cases h
  | cons p rest =>
      rcases List.mem_cons.mp h with rfl | h
      · exact .inl ⟨rfl, pack_unpack m⟩
      · exact .inr h

theorem touches_next (h : (next rest).Touches fd) : ∃ m, (fd, m) ∈ rest := by
  cases rest with
  | nil => cases h
  | cons p rest =>
      rcases h with rfl | ⟨m, h⟩
      · exact ⟨p.2, List.mem_cons_self⟩
      · exact ⟨m, List.mem_cons_of_mem _ h⟩

theorem not_carries_next {a : Answer} : ¬(next rest).Carries fd a := by
  cases rest with
  | nil => exact id
  | cons => exact id

end Pc

/-- The last response buffered for a module was read from the given table or a later one. -/
def Conn.Fresh (m : UInt64) (g : Nat) (c : Conn) : Prop := ∃ a, c.last m = some a ∧ g ≤ a.gen

/-- A response was read from the table with its number. -/
def Answer.Genuine (tables : List RouterMap) (a : Answer) : Prop :=
  ∃ t, tables[a.gen]? = some t ∧
    a.res = routeResponse a.res.modid a.res.cmdid
      (MultiMap.lookup t (routeKey a.res.modid a.res.cmdid))

theorem Answer.Genuine.mono {a : Answer} {ts us : List RouterMap} (h : a.Genuine ts)
    (hp : ts <+: us) : a.Genuine us := by
  obtain ⟨t, ht, hres⟩ := h
  obtain ⟨rest, rfl⟩ := hp
  obtain ⟨hlt, -⟩ := List.getElem?_eq_some_iff.mp ht
  exact ⟨t, (List.getElem?_append_left hlt).trans ht, hres⟩

namespace DnsServer

/-- A task that will look into the push list for a connection is under way to its worker. -/
def TaskDue (s : DnsServer) (fd : Int) (i : Nat) : Prop :=
  0 < (s.workers i).queue ∨ 0 < (s.workers i).asyncTasks ∨
    (∃ k, s.sending = some k ∧ k ≤ i) ∨ (s.workers i).pc.Collects fd

/-- Where an update is: buffered, in the push list, or with the worker. -/
def Covered (s : DnsServer) (fd : Int) (c : Conn) (g : Nat) (m : UInt64) : Prop :=
  c.Fresh m g ∨ (m ∈ MultiMap.lookup s.sub.pushList fd ∧ s.TaskDue fd c.worker) ∨
    (s.workers c.worker).pc.Reads fd m ∨
    ∃ a, (s.workers c.worker).pc.Carries fd a ∧ a.mod = m ∧ g ≤ a.gen

/-- The invariant of a connection. -/
structure ConnInv (s : DnsServer) (fd : Int) (c : Conn) : Prop where
  inRange : c.worker < s.threadNum
  listed : fd ∈ (s.workers c.worker).lfds
  genuine : ∀ a ∈ c.answers, a.Genuine s.tables
  ordered : ∀ a, (s.workers c.worker).pc.Carries fd a → ∀ a' ∈ c.answers, a'.gen ≤ a.gen
  booked : ¬(s.workers c.worker).pc.Closes fd → ∀ m ∈ c.modSet,
    fd ∈ MultiMap.lookup s.sub.bookList m ∨ (s.workers c.worker).pc.Subscribes fd m
  covered : ¬(s.workers c.worker).pc.Closes fd → ∀ p ∈ s.published, ∀ m ∈ p.2, m ∈ c.modSet →
    s.Covered fd c p.1 m

/-- The invariant of a worker. -/
structure WorkerInv (s : DnsServer) (i : Nat) : Prop where
  owns : ∀ fd ∈ (s.workers i).lfds, ∃ c, s.conns[fd]? = some c ∧ c.worker = i
  touches : ∀ fd, (s.workers i).pc.Touches fd → fd ∈ (s.workers i).lfds
  genuine : ∀ fd a, (s.workers i).pc.Carries fd a → a.Genuine s.tables

/-- The invariant of the server. -/
structure Inv (s : DnsServer) : Prop where
  conn : ∀ fd c, s.conns[fd]? = some c → s.ConnInv fd c
  worker : ∀ i, s.WorkerInv i
  published : ∀ p ∈ s.published, p.1 ≤ s.gen

variable {s t : DnsServer} {fd : Int} {c : Conn} {i : Nat} {m : UInt64} {g : Nat}

theorem ConnInv.subscribed {pc : Pc} (h : s.ConnInv fd c) (hpc : (s.workers c.worker).pc = pc)
    (hopen : ¬pc.Closes fd) (hnot : ∀ m, ¬pc.Subscribes fd m) (hm : m ∈ c.modSet) :
    fd ∈ MultiMap.lookup s.sub.bookList m := by
  subst hpc
  exact (h.booked hopen m hm).resolve_right (hnot m)

theorem ConnInv.covered_at {pc : Pc} {p : Nat × List UInt64} (h : s.ConnInv fd c)
    (hpc : (s.workers c.worker).pc = pc) (hopen : ¬pc.Closes fd) (hp : p ∈ s.published)
    (hm : m ∈ p.2) (hreq : m ∈ c.modSet) :
    c.Fresh m p.1 ∨
      (m ∈ MultiMap.lookup s.sub.pushList fd ∧
        (0 < (s.workers c.worker).queue ∨ 0 < (s.workers c.worker).asyncTasks ∨
          (∃ k, s.sending = some k ∧ k ≤ c.worker) ∨ pc.Collects fd)) ∨
      pc.Reads fd m ∨ ∃ a, pc.Carries fd a ∧ a.mod = m ∧ p.1 ≤ a.gen := by
  subst hpc
  exact h.covered hopen p hp m hm hreq

/-- A response was read from a table that has been installed. -/
theorem gen_le_of_genuine {a : Answer} (h : a.Genuine s.tables) : a.gen ≤ s.gen := by
  obtain ⟨t, ht, -⟩ := h
  obtain ⟨hlt, -⟩ := List.getElem?_eq_some_iff.mp ht
  rw [tables, List.length_append, List.length_singleton] at hlt
  exact Nat.le_of_lt_succ hlt

theorem genuine_answer (modid cmdid : UInt32) : (s.answer modid cmdid).Genuine s.tables :=
  ⟨s.publisher.router.data, by simp [tables, gen, answer], rfl⟩

/-! ## Steps that do not concern a connection -/

/-- What a step leaves of the things that a connection of worker `i` depends on. -/
structure Frame (s t : DnsServer) (fd : Int) (i : Nat) : Prop where
  threadNum : t.threadNum = s.threadNum
  pc : (t.workers i).pc = (s.workers i).pc
  lfds : (t.workers i).lfds = (s.workers i).lfds
  book : ∀ m, fd ∈ MultiMap.lookup s.sub.bookList m → fd ∈ MultiMap.lookup t.sub.bookList m
  push : ∀ m, m ∈ MultiMap.lookup s.sub.pushList fd → m ∈ MultiMap.lookup t.sub.pushList fd
  due : s.TaskDue fd i → t.TaskDue fd i
  published : t.published = s.published
  tables : s.tables <+: t.tables

theorem ConnInv.frame (h : s.ConnInv fd c) (f : Frame s t fd c.worker) : t.ConnInv fd c where
  inRange := by rw [f.threadNum]; exact h.inRange
  listed := by rw [f.lfds]; exact h.listed
  genuine := fun a ha ↦ (h.genuine a ha).mono f.tables
  ordered := by rw [f.pc]; exact h.ordered
  booked := by
    rw [f.pc]
    exact fun hc m hm ↦ (h.booked hc m hm).imp_left (f.book m)
  covered := by
    rw [f.pc, f.published]
    intro hc p hp m hm hreq
    unfold Covered
    rw [f.pc]
    rcases h.covered hc p hp m hm hreq with h | ⟨hpush, hdue⟩ | h
    · exact .inl h
    · exact .inr (.inl ⟨f.push m hpush, f.due hdue⟩)
    · exact .inr (.inr h)

theorem WorkerInv.frame (h : s.WorkerInv i) (hpc : (t.workers i).pc = (s.workers i).pc)
    (hl : (t.workers i).lfds = (s.workers i).lfds)
    (hc : ∀ (fd : Int) (c : Conn), s.conns[fd]? = some c → c.worker = i → t.conns[fd]? = some c)
    (ht : s.tables <+: t.tables) : t.WorkerInv i where
  owns := by
    rw [hl]
    intro fd hfd
    obtain ⟨c, hs, hi⟩ := h.owns fd hfd
    exact ⟨c, hc fd c hs hi, hi⟩
  touches := by
    rw [hpc, hl]
    exact h.touches
  genuine := by
    rw [hpc]
    exact fun fd a ha ↦ (h.genuine fd a ha).mono ht

theorem gen_le_gen (ht : s.tables <+: t.tables) : s.gen ≤ t.gen := by
  have := ht.length_le
  simp only [tables, List.length_append, List.length_singleton] at this
  unfold gen
  omega

/-! ## The update thread -/

theorem Inv.frame (h : s.Inv)
    (hw : ∀ i, (t.workers i).pc = (s.workers i).pc ∧ (t.workers i).lfds = (s.workers i).lfds)
    (hc : t.conns = s.conns)
    (hf : ∀ (fd : Int) (c : Conn), s.conns[fd]? = some c → Frame s t fd c.worker)
    (ht : s.tables <+: t.tables) (hp : t.published = s.published) : t.Inv where
  conn := by
    rw [hc]
    exact fun fd c hfd ↦ (h.conn fd c hfd).frame (hf fd c hfd)
  worker i := (h.worker i).frame (hw i).1 (hw i).2 (by rw [hc]; exact fun _ _ h _ ↦ h) ht
  published := by
    rw [hp]
    exact fun p hps ↦ (h.published p hps).trans (gen_le_gen ht)

end DnsServer

/-- Only the swap changes the served table. -/
theorem Publisher.step_data {a : Answers} {p : Publisher} (h : ∀ b, p.phase ≠ .swap b) :
    (p.step a).router.data = p.router.data := by
  obtain ⟨r, phase⟩ := p
  cases phase with
  | checkVersion =>
      rw [Publisher.step_checkVersion]
      have hkeep := (r.checkVersion_tables a.version).1
      split
      · exact hkeep
      · split
        · split
          · exact hkeep
          · exact hkeep
        · exact hkeep
  | swap b => exact absurd rfl (h b)
  | loadRouteData | loadChangeMod | publish | dropSynchronousMod | ended => rfl

namespace DnsServer

variable {s t : DnsServer} {fd : Int} {c : Conn} {i : Nat} {m : UInt64} {g : Nat}

theorem Inv.publisher {p : Publisher} (h : s.Inv)
    (hdata : p.router.data = s.publisher.router.data) : Inv { s with publisher := p } := by
  have ht : s.tables <+: tables { s with publisher := p } := by
    simp only [tables, hdata, List.prefix_rfl]
  exact h.frame (fun _ ↦ ⟨rfl, rfl⟩) rfl
    (fun _ _ _ ↦ ⟨rfl, rfl, rfl, fun _ h ↦ h, fun _ h ↦ h, fun h ↦ h, rfl, ht⟩) ht rfl

theorem Inv.swap {p : Publisher} (h : s.Inv) :
    Inv { s with publisher := p, past := s.past ++ [s.publisher.router.data] } := by
  have ht : s.tables <+:
      tables { s with publisher := p, past := s.past ++ [s.publisher.router.data] } :=
    List.prefix_append _ _
  exact h.frame (fun _ ↦ ⟨rfl, rfl⟩) rfl
    (fun _ _ _ ↦ ⟨rfl, rfl, rfl, fun _ h ↦ h, fun _ h ↦ h, fun h ↦ h, rfl, ht⟩) ht rfl

theorem Inv.send {k : Nat} (h : s.Inv) (hs : s.sending = some k) :
    Inv { s.setWorker k { s.workers k with queue := (s.workers k).queue + 1 } with
      sending := some (k + 1) } := by
  have hw : ∀ i, (Function.update s.workers k
        { s.workers k with queue := (s.workers k).queue + 1 } i).pc = (s.workers i).pc ∧
      (Function.update s.workers k
        { s.workers k with queue := (s.workers k).queue + 1 } i).lfds = (s.workers i).lfds := by
    intro i
    by_cases e : i = k
    · subst e
      rw [Function.update_self]
      exact ⟨rfl, rfl⟩
    · rw [Function.update_of_ne e]
      exact ⟨rfl, rfl⟩
  refine h.frame hw rfl (fun fd c _ ↦ ⟨rfl, (hw _).1, (hw _).2, fun _ h ↦ h, fun _ h ↦ h, ?_, rfl,
    List.prefix_rfl⟩) List.prefix_rfl rfl
  intro hdue
  by_cases e : c.worker = k
  · refine .inl ?_
    change 0 < (Function.update s.workers k _ c.worker).queue
    rw [e, Function.update_self]
    exact Nat.succ_pos _
  · have hne : Function.update s.workers k
        { s.workers k with queue := (s.workers k).queue + 1 } c.worker = s.workers c.worker :=
      Function.update_of_ne e _ _
    unfold TaskDue at hdue ⊢
    simp only [setWorker, hne]
    rcases hdue with h | h | ⟨k', hk', hle⟩ | h
    · exact .inl h
    · exact .inr (.inl h)
    · obtain rfl := Option.some.inj (hs.symm.trans hk')
      exact .inr (.inr (.inl ⟨_, rfl, by omega⟩))
    · exact .inr (.inr (.inr h))

/-- `publish` files what is subscribed, and its tasks are to be sent. -/
theorem Inv.scan {mods : List UInt64} (h : s.Inv) (hs : s.sending = none) :
    Inv { s with
      sub := s.sub.publish mods
      sending := some 0
      published := (s.gen, mods) :: s.published } := by
  -- what was published before stays covered
  have hold : Inv { s with sub := s.sub.publish mods, sending := some 0 } := by
    refine h.frame (fun _ ↦ ⟨rfl, rfl⟩) rfl (fun fd c _ ↦ ⟨rfl, rfl, rfl, fun _ h ↦ h,
      fun m hm ↦ SubscribeList.mem_pushList_publish.mpr (.inl hm), ?_, rfl, List.prefix_rfl⟩)
      List.prefix_rfl rfl
    intro hdue
    rcases hdue with h | h | ⟨k, hk, -⟩ | h
    · exact .inl h
    · exact .inr (.inl h)
    · rw [hs] at hk
      cases hk
    · exact .inr (.inr (.inr h))
  refine ⟨fun fd c hc ↦ ?_, fun i ↦ ?_, ?_⟩
  · have hci := hold.conn fd c hc
    refine ⟨hci.inRange, hci.listed, hci.genuine, hci.ordered, hci.booked, ?_⟩
    intro hcl p hp m hm hreq
    rcases List.mem_cons.mp hp with rfl | hp
    · rcases hci.booked hcl m hreq with hb | hsub
      · refine .inr (.inl ⟨SubscribeList.mem_pushList_publish.mpr (.inr ⟨hm, hb⟩), ?_⟩)
        exact .inr (.inr (.inl ⟨0, rfl, Nat.zero_le _⟩))
      · -- not subscribed yet: the worker is going to read the table
        refine .inr (.inr (.inl ?_))
        change (s.workers c.worker).pc.Subscribes fd m at hsub
        change (s.workers c.worker).pc.Reads fd m
        cases hpc : (s.workers c.worker).pc with
        | subscribe fd' modid cmdid =>
            rw [hpc] at hsub
            exact hsub
        | _ =>
            rw [hpc] at hsub
            cases hsub
    · exact hci.covered hcl p hp m hm hreq
  · exact ⟨(hold.worker i).owns, (hold.worker i).touches, (hold.worker i).genuine⟩
  · intro p hp
    rcases List.mem_cons.mp hp with rfl | hp
    · exact Nat.le_refl _
    · exact h.published p hp

/-- The update thread keeps the invariant. -/
theorem Inv.updater (h : s.Inv) (a : Answers) : (s.updater a).Inv := by
  cases hphase : s.publisher.phase with
  | publish mods =>
      have hdata : (s.publisher.step a).router.data = s.publisher.router.data :=
        Publisher.step_data (by simp [hphase])
      cases hs : s.sending with
      | none =>
          simp only [DnsServer.updater, hphase, hs]
          exact h.scan hs
      | some k =>
          simp only [DnsServer.updater, hphase, hs]
          split
          · exact h.send hs
          · rename_i hk
            -- every queue has been given the task
            have hpub : Inv { s with publisher := s.publisher.step a } := h.publisher hdata
            refine hpub.frame (fun _ ↦ ⟨rfl, rfl⟩) rfl (fun fd c hc ↦ ⟨rfl, rfl, rfl, fun _ h ↦ h,
              fun _ h ↦ h, ?_, rfl, List.prefix_rfl⟩) List.prefix_rfl rfl
            have hrange := (h.conn fd c hc).inRange
            intro hdue
            rcases hdue with h | h | ⟨k', hk', hle⟩ | h
            · exact .inl h
            · exact .inr (.inl h)
            · obtain rfl := Option.some.inj (hs.symm.trans hk')
              omega
            · exact .inr (.inr (.inr h))
  | swap b =>
      simp only [DnsServer.updater, hphase]
      exact h.swap
  | checkVersion | loadRouteData _ | loadChangeMod | dropSynchronousMod | ended =>
      simp only [DnsServer.updater, hphase]
      exact h.publisher (Publisher.step_data (by simp [hphase]))

/-! ## The workers -/

/-- The state after a step of worker `i`. -/
def after (s : DnsServer) (i : Nat) (w : Worker) (conns : ExtTreeMap Int Conn)
    (sub : SubscribeList) : DnsServer :=
  { s.setWorker i w with conns := conns, sub := sub }

variable {w : Worker} {conns : ExtTreeMap Int Conn} {sub : SubscribeList}

theorem after_workers_self : (s.after i w conns sub).workers i = w := Function.update_self ..

theorem after_workers_ne {j : Nat} (h : j ≠ i) :
    (s.after i w conns sub).workers j = s.workers j := Function.update_of_ne h ..

theorem ConnInv.after (hi : c.worker = i) (inRange : i < s.threadNum) (listed : fd ∈ w.lfds)
    (genuine : ∀ a ∈ c.answers, a.Genuine s.tables)
    (ordered : ∀ a, w.pc.Carries fd a → ∀ a' ∈ c.answers, a'.gen ≤ a.gen)
    (booked : ¬w.pc.Closes fd → ∀ m ∈ c.modSet,
      fd ∈ MultiMap.lookup sub.bookList m ∨ w.pc.Subscribes fd m)
    (covered : ¬w.pc.Closes fd → ∀ p ∈ s.published, ∀ m ∈ p.2, m ∈ c.modSet →
      c.Fresh m p.1 ∨
        (m ∈ MultiMap.lookup sub.pushList fd ∧ (0 < w.queue ∨ 0 < w.asyncTasks ∨
          (∃ k, s.sending = some k ∧ k ≤ i) ∨ w.pc.Collects fd)) ∨
        w.pc.Reads fd m ∨ ∃ a, w.pc.Carries fd a ∧ a.mod = m ∧ p.1 ≤ a.gen) :
    (s.after i w conns sub).ConnInv fd c := by
  subst hi
  have hw : (s.after c.worker w conns sub).workers c.worker = w := after_workers_self
  refine ⟨inRange, by rw [hw]; exact listed, genuine, by rw [hw]; exact ordered,
    by rw [hw]; exact booked, ?_⟩
  unfold Covered TaskDue
  rw [hw]
  exact covered

theorem WorkerInv.after
    (owns : ∀ fd ∈ w.lfds, ∃ c, conns[fd]? = some c ∧ c.worker = i)
    (touches : ∀ fd, w.pc.Touches fd → fd ∈ w.lfds)
    (genuine : ∀ fd a, w.pc.Carries fd a → a.Genuine s.tables) :
    (s.after i w conns sub).WorkerInv i := by
  have hw : (s.after i w conns sub).workers i = w := after_workers_self
  exact ⟨by rw [hw]; exact owns, by rw [hw]; exact touches, by rw [hw]; exact genuine⟩

/-- A step of worker `i` keeps the invariant when it keeps it for the worker and its own
connections, and leaves those of the others and what is filed for them. -/
theorem Inv.after (h : s.Inv)
    (hconns : ∀ (fd : Int) (c : Conn), c.worker ≠ i →
      (conns[fd]? = some c ↔ s.conns[fd]? = some c))
    (hbook : ∀ (fd : Int) (c : Conn), s.conns[fd]? = some c → c.worker ≠ i →
      ∀ m, fd ∈ MultiMap.lookup s.sub.bookList m → fd ∈ MultiMap.lookup sub.bookList m)
    (hpush : ∀ (fd : Int) (c : Conn), s.conns[fd]? = some c → c.worker ≠ i →
      ∀ m, m ∈ MultiMap.lookup s.sub.pushList fd → m ∈ MultiMap.lookup sub.pushList fd)
    (hown : ∀ (fd : Int) (c : Conn), conns[fd]? = some c → c.worker = i →
      (s.after i w conns sub).ConnInv fd c)
    (hworker : (s.after i w conns sub).WorkerInv i) : (s.after i w conns sub).Inv := by
  refine ⟨fun fd c hc ↦ ?_, fun j ↦ ?_, h.published⟩
  · by_cases hi : c.worker = i
    · exact hown fd c hc hi
    · have hs := (hconns fd c hi).mp hc
      have hw : (s.after i w conns sub).workers c.worker = s.workers c.worker :=
        after_workers_ne hi
      refine (h.conn fd c hs).frame ⟨rfl, by rw [hw], by rw [hw], hbook fd c hs hi,
        hpush fd c hs hi, ?_, rfl, List.prefix_rfl⟩
      unfold TaskDue
      rw [hw]
      exact id
  · by_cases hi : j = i
    · subst hi
      exact hworker
    · have hw : (s.after i w conns sub).workers j = s.workers j := after_workers_ne hi
      exact (h.worker j).frame (by rw [hw]) (by rw [hw])
        (fun fd c hc hj ↦ (hconns fd c (hj ▸ hi)).mpr hc) List.prefix_rfl

/-- A worker that leaves its wait keeps the invariant of a connection that it has. -/
theorem ConnInv.leaveIdle (h : s.ConnInv fd c) (hi : c.worker = i)
    (hpc : (s.workers i).pc = .idle) (hl : fd ∈ (s.workers i).lfds → fd ∈ w.lfds)
    (hdue : fd ∈ (s.workers i).lfds → 0 < (s.workers i).queue ∨ 0 < (s.workers i).asyncTasks →
      0 < w.queue ∨ 0 < w.asyncTasks ∨ w.pc.Collects fd)
    (hcarries : ∀ a, ¬w.pc.Carries fd a) : (s.after i w conns s.sub).ConnInv fd c := by
  subst hi
  refine .after rfl h.inRange (hl h.listed) h.genuine (fun a ha ↦ absurd ha (hcarries a))
    (fun _ m hm ↦ .inl (h.subscribed hpc id (fun _ ↦ id) hm)) fun _ p hp m hm hreq ↦ ?_
  rcases h.covered_at hpc id hp hm hreq with hf | ⟨hpush, hd⟩ | hr | ⟨a, ha, -⟩
  · exact .inl hf
  · refine .inr (.inl ⟨hpush, ?_⟩)
    -- a task in the queue or in the loop stays there, or is started
    have htask : 0 < (s.workers c.worker).queue ∨ 0 < (s.workers c.worker).asyncTasks →
        0 < w.queue ∨ 0 < w.asyncTasks ∨
          (∃ k, s.sending = some k ∧ k ≤ c.worker) ∨ w.pc.Collects fd := fun hd ↦
      (hdue h.listed hd).imp_right (Or.imp_right .inr)
    rcases hd with hq | ha | hk | hcol
    · exact htask (.inl hq)
    · exact htask (.inr ha)
    · exact .inr (.inr (.inl hk))
    · cases hcol
  · cases hr
  · cases ha

theorem Inv.leaveIdle (h : s.Inv) (hpc : (s.workers i).pc = .idle)
    (hl : w.lfds = (s.workers i).lfds)
    (hdue : ∀ fd ∈ (s.workers i).lfds, 0 < (s.workers i).queue ∨ 0 < (s.workers i).asyncTasks →
      0 < w.queue ∨ 0 < w.asyncTasks ∨ w.pc.Collects fd)
    (hcarries : ∀ fd a, ¬w.pc.Carries fd a) (htouches : ∀ fd, w.pc.Touches fd → fd ∈ w.lfds) :
    (s.after i w s.conns s.sub).Inv := by
  refine h.after (fun _ _ _ ↦ Iff.rfl) (fun _ _ _ _ _ h ↦ h) (fun _ _ _ _ _ h ↦ h) ?_ ?_
  · intro fd c hc hi
    exact (h.conn fd c hc).leaveIdle hi hpc (fun hf ↦ hl ▸ hf) (hdue fd) (hcarries fd)
  · exact .after (hl ▸ (h.worker i).owns) htouches fun fd a ha ↦ absurd ha (hcarries fd a)

theorem Inv.deal (h : s.Inv) (hpc : (s.workers i).pc = .idle) : (s.deal i).Inv := by
  change (s.after i { s.workers i with
    queue := 0, asyncTasks := (s.workers i).asyncTasks + (s.workers i).queue } s.conns s.sub).Inv
  refine h.leaveIdle hpc rfl (fun fd _ hd ↦ .inr (.inl ?_)) ?_ (h.worker i).touches
  · change 0 < (s.workers i).asyncTasks + (s.workers i).queue
    omega
  · intro fd a ha
    change (s.workers i).pc.Carries fd a at ha
    rw [hpc] at ha
    cases ha

theorem Inv.startTask (h : s.Inv) (hpc : (s.workers i).pc = .idle)
    (hs : s.startTask i = some t) : t.Inv := by
  unfold DnsServer.startTask at hs
  simp only at hs
  split at hs
  · obtain rfl := Option.some.inj hs
    change (s.after i { s.workers i with
      pc := .makePublishMap (s.workers i).lfds, asyncTasks := (s.workers i).asyncTasks - 1 }
      s.conns s.sub).Inv
    exact h.leaveIdle hpc rfl (fun fd hfd _ ↦ .inr (.inr hfd)) (fun _ _ ↦ id) fun _ hf ↦ hf
  · cases hs

theorem getElem?_insert_conns {fd' : Int} {c' : Conn} :
    (s.conns.insert fd' c')[fd]? = if fd' = fd then some c' else s.conns[fd]? := by
  rw [Table.getElem?_insert]
  exact if_congr eq_comm rfl rfl

/-- A connection filed for worker `i` is none of the others'. -/
theorem insert_conns_iff {fd' : Int} {c' : Conn} (hnew : c'.worker = i)
    (hold : ∀ c : Conn, s.conns[fd']? = some c → c.worker = i) (hne : c.worker ≠ i) :
    (s.conns.insert fd' c')[fd]? = some c ↔ s.conns[fd]? = some c := by
  rw [getElem?_insert_conns]
  by_cases e : fd' = fd
  · subst e
    rw [if_pos rfl]
    constructor
    · rintro ⟨rfl⟩
      exact absurd hnew hne
    · exact fun hc ↦ absurd (hold c hc) hne
  · rw [if_neg e]

theorem Inv.worker_of_listed (h : s.Inv) (hfd : fd ∈ (s.workers i).lfds)
    (hc : s.conns[fd]? = some c) : c.worker = i := by
  obtain ⟨c', hc', hi⟩ := (h.worker i).owns fd hfd
  rw [hc] at hc'
  exact Option.some.inj hc' ▸ hi

/-- A module that the worker is about to subscribe to may go into the set. -/
theorem ConnInv.insert_modSet {modid cmdid : UInt32} (h : t.ConnInv fd c)
    (hpc : (t.workers c.worker).pc = .subscribe fd modid cmdid) :
    t.ConnInv fd { c with modSet := c.modSet.insert (bookKey modid cmdid) } := by
  have hmem : ∀ m, m ∈ c.modSet.insert (bookKey modid cmdid) →
      bookKey modid cmdid = m ∨ m ∈ c.modSet := fun m hm ↦
    (ExtTreeSet.mem_insert.mp hm).imp_left Std.compare_eq_iff_eq.mp
  refine ⟨h.inRange, h.listed, h.genuine, h.ordered, fun hcl m hm ↦ ?_, fun hcl p hp m hm hreq ↦ ?_⟩
  · rcases hmem m hm with rfl | hm
    · refine .inr ?_
      change (t.workers c.worker).pc.Subscribes fd _
      rw [hpc]
      exact ⟨rfl, rfl⟩
    · exact h.booked hcl m hm
  · rcases hmem m hreq with rfl | hreq
    · refine .inr (.inr (.inl ?_))
      change (t.workers c.worker).pc.Reads fd _
      rw [hpc]
      exact ⟨rfl, rfl⟩
    · exact h.covered hcl p hp m hm hreq

theorem Inv.getReq {modid cmdid : UInt32} (h : s.Inv) (hpc : (s.workers i).pc = .idle)
    (hs : s.getReq i fd modid cmdid = some t) : t.Inv := by
  unfold DnsServer.getReq at hs
  simp only at hs
  cases hc : s.conns[fd]? with
  | none =>
      rw [hc] at hs
      cases hs
  | some c =>
      rw [hc] at hs
      simp only at hs
      split at hs
      · cases hs
      · rename_i hfd
        have hfd : fd ∈ (s.workers i).lfds := not_not.mp hfd
        have hi := h.worker_of_listed hfd hc
        split at hs
        · obtain rfl := Option.some.inj hs
          change (s.after i { s.workers i with pc := .getHosts fd modid cmdid [] }
            s.conns s.sub).Inv
          refine h.leaveIdle hpc rfl (fun _ _ hd ↦ hd.imp_right .inl) (fun _ _ ↦ id) ?_
          rintro fd' (rfl | ⟨m, hm⟩)
          · exact hfd
          · cases hm
        · obtain rfl := Option.some.inj hs
          change (s.after i { s.workers i with pc := .subscribe fd modid cmdid }
            (s.conns.insert fd { c with modSet := c.modSet.insert (bookKey modid cmdid) })
            s.sub).Inv
          refine h.after (fun _ _ hne ↦ insert_conns_iff hi
            (fun c' hc' ↦ h.worker_of_listed hfd hc') hne) (fun _ _ _ _ _ h ↦ h)
            (fun _ _ _ _ _ h ↦ h) ?_ ?_
          · intro fd' c' hc' hi'
            rw [getElem?_insert_conns] at hc'
            by_cases e : fd = fd'
            · subst e
              rw [if_pos rfl] at hc'
              obtain rfl := Option.some.inj hc'
              refine ConnInv.insert_modSet ((h.conn fd c hc).leaveIdle hi hpc id
                (fun _ hd ↦ hd.imp_right .inl) fun _ ↦ id) ?_
              rw [hi, after_workers_self]
            · rw [if_neg e] at hc'
              exact (h.conn fd' c' hc').leaveIdle hi' hpc id (fun _ hd ↦ hd.imp_right .inl)
                fun _ ↦ id
          · refine .after (fun fd' hfd' ↦ ?_) ?_ fun _ _ hf ↦ by cases hf
            · rw [getElem?_insert_conns]
              split
              · exact ⟨_, rfl, hi⟩
              · exact (h.worker i).owns fd' hfd'
            · rintro fd' rfl
              exact hfd

theorem Inv.connect (h : s.Inv) (hlt : i < s.threadNum) (hpc : (s.workers i).pc = .idle)
    (hs : s.connect i fd = some t) : t.Inv := by
  unfold DnsServer.connect at hs
  simp only at hs
  cases hc : s.conns[fd]? with
  | some c =>
      rw [hc] at hs
      cases hs
  | none =>
      rw [hc] at hs
      obtain rfl := Option.some.inj hs
      change (s.after i { s.workers i with lfds := (s.workers i).lfds.insert fd }
        (s.conns.insert fd { worker := i, modSet := ∅, answers := [] }) s.sub).Inv
      refine h.after (fun _ _ hne ↦ insert_conns_iff rfl (fun c' hc' ↦ ?_) hne)
        (fun _ _ _ _ _ h ↦ h) (fun _ _ _ _ _ h ↦ h) ?_ ?_
      · rw [hc] at hc'
        cases hc'
      · intro fd' c' hc' hi'
        rw [getElem?_insert_conns] at hc'
        by_cases e : fd = fd'
        · subst e
          rw [if_pos rfl] at hc'
          obtain rfl := Option.some.inj hc'
          refine .after rfl hlt ExtTreeSet.mem_insert_self (fun _ ha ↦ by cases ha)
            (fun _ _ _ ha ↦ by cases ha) (fun _ m hm ↦ ?_) fun _ _ _ m _ hm ↦ ?_
          · exact absurd hm ExtTreeSet.not_mem_empty
          · exact absurd hm ExtTreeSet.not_mem_empty
        · rw [if_neg e] at hc'
          refine (h.conn fd' c' hc').leaveIdle hi' hpc
            (fun hf ↦ ExtTreeSet.mem_insert.mpr (.inr hf)) (fun _ hd ↦ hd.imp_right .inl) ?_
          intro a ha
          change (s.workers i).pc.Carries fd' a at ha
          rw [hpc] at ha
          cases ha
      · refine .after (fun fd' hfd' ↦ ?_) ?_ ?_
        · rw [getElem?_insert_conns]
          split
          · exact ⟨_, rfl, rfl⟩
          · rename_i hne
            rcases ExtTreeSet.mem_insert.mp hfd' with he | hf
            · exact absurd (Std.compare_eq_iff_eq.mp he) hne
            · exact (h.worker i).owns fd' hf
        · intro fd' hf
          change (s.workers i).pc.Touches fd' at hf
          rw [hpc] at hf
          cases hf
        · intro fd' a ha
          change (s.workers i).pc.Carries fd' a at ha
          rw [hpc] at ha
          cases ha

theorem Inv.close (h : s.Inv) (hpc : (s.workers i).pc = .idle)
    (hs : s.close i fd = some t) : t.Inv := by
  unfold DnsServer.close at hs
  simp only at hs
  cases hc : s.conns[fd]? with
  | none =>
      rw [hc] at hs
      cases hs
  | some c =>
      rw [hc] at hs
      simp only at hs
      split at hs
      · rename_i hfd
        obtain rfl := Option.some.inj hs
        change (s.after i { s.workers i with pc := .unsubscribe fd c.modSet.toList }
          s.conns s.sub).Inv
        refine h.leaveIdle hpc rfl (fun _ _ hd ↦ hd.imp_right .inl) (fun _ _ ↦ id) ?_
        rintro fd' rfl
        exact hfd
      · cases hs

/-! ## A worker goes on -/

/-- A response read after all that were buffered keeps what is fresh. -/
theorem fresh_append {a : Answer} (h : c.Fresh m g) (ha : ∀ a' ∈ c.answers, a'.gen ≤ a.gen) :
    Conn.Fresh m g { c with answers := c.answers ++ [a] } := by
  obtain ⟨a', hlast, hg⟩ := h
  have hmem := List.mem_filter.mp (List.mem_of_getLast? hlast)
  by_cases e : a.mod = m
  · exact ⟨a, by simp [Conn.last, e], hg.trans (ha a' hmem.1)⟩
  · refine ⟨a', ?_, hg⟩
    simp only [Conn.last, List.filter_append, List.filter_cons, decide_eq_true_eq, if_neg e,
      List.filter_nil, List.append_nil]
    exact hlast

theorem fresh_of_append {a : Answer} (hg : g ≤ a.gen) :
    Conn.Fresh a.mod g { c with answers := c.answers ++ [a] } :=
  ⟨a, by simp [Conn.last], hg⟩

/-- `get_req` subscribes. -/
theorem Inv.subscribe {fd₀ : Int} {modid cmdid : UInt32} (h : s.Inv)
    (hpc : (s.workers i).pc = .subscribe fd₀ modid cmdid) :
    (s.after i { s.workers i with pc := .getHosts fd₀ modid cmdid [] } s.conns
      (s.sub.subscribe (bookKey modid cmdid) fd₀)).Inv := by
  have htouch : fd₀ ∈ (s.workers i).lfds := (h.worker i).touches fd₀ (by rw [hpc]; rfl)
  refine h.after (fun _ _ _ ↦ Iff.rfl)
    (fun _ _ _ _ m hm ↦ SubscribeList.mem_bookList_subscribe.mpr (.inl hm))
    (fun _ _ _ _ _ h ↦ h) (fun fd c hc hi ↦ ?_) ?_
  · subst hi
    have hci := h.conn fd c hc
    refine .after rfl hci.inRange hci.listed hci.genuine (fun _ ↦ False.elim) ?_ ?_
    · intro _ m hm
      refine .inl (SubscribeList.mem_bookList_subscribe.mpr ?_)
      rcases hci.booked (by rw [hpc]; exact id) m hm with hb | hs
      · exact .inl hb
      · rw [hpc] at hs
        exact .inr ⟨hs.2.symm, hs.1.symm⟩
    · intro _ p hp m hm hreq
      rcases hci.covered_at hpc id hp hm hreq with hf | hpush | hr | ⟨a, ha, -⟩
      · exact .inl hf
      · exact .inr (.inl hpush)
      · exact .inr (.inr (.inl (.inl hr)))
      · cases ha
  · refine .after (h.worker i).owns ?_ fun _ _ ↦ False.elim
    rintro fd (rfl | ⟨m, hm⟩)
    · exact htouch
    · cases hm

/-- A worker reads the hosts of a module. -/
theorem Inv.getHosts {fd₀ : Int} {modid cmdid : UInt32} {rest : List (Int × UInt64)} (h : s.Inv)
    (hpc : (s.workers i).pc = .getHosts fd₀ modid cmdid rest) :
    (s.after i { s.workers i with pc := .sendMsg fd₀ (s.answer modid cmdid) rest }
      s.conns s.sub).Inv := by
  refine h.after (fun _ _ _ ↦ Iff.rfl) (fun _ _ _ _ _ h ↦ h) (fun _ _ _ _ _ h ↦ h)
    (fun fd c hc hi ↦ ?_) ?_
  · subst hi
    have hci := h.conn fd c hc
    refine .after rfl hci.inRange hci.listed hci.genuine ?_
      (fun _ m hm ↦ .inl (hci.subscribed hpc id (fun _ ↦ id) hm)) ?_
    · rintro _ ⟨-, rfl⟩ a' ha'
      exact gen_le_of_genuine (hci.genuine a' ha')
    · intro _ p hp m hm hreq
      rcases hci.covered_at hpc id hp hm hreq with hf | hpush | hr | ⟨a, ha, -⟩
      · exact .inl hf
      · exact .inr (.inl hpush)
      · rcases hr with ⟨rfl, rfl⟩ | hr
        · -- the table that is served now is that of the last swap
          exact .inr (.inr (.inr ⟨_, ⟨rfl, rfl⟩, rfl, h.published p hp⟩))
        · exact .inr (.inr (.inl hr))
      · cases ha
  · refine .after (h.worker i).owns (fun fd hf ↦ (h.worker i).touches fd ?_) ?_
    · rw [hpc]
      exact hf
    · rintro fd _ ⟨-, rfl⟩
      exact genuine_answer modid cmdid

/-- A worker buffers a response. -/
theorem Inv.sendMsg {fd₀ : Int} {a : Answer} {rest : List (Int × UInt64)} {c₀ : Conn} (h : s.Inv)
    (hpc : (s.workers i).pc = .sendMsg fd₀ a rest) (hc₀ : s.conns[fd₀]? = some c₀) :
    (s.after i { s.workers i with pc := .next rest }
      (s.conns.insert fd₀ { c₀ with answers := c₀.answers ++ [a] }) s.sub).Inv := by
  have htouch : fd₀ ∈ (s.workers i).lfds := (h.worker i).touches fd₀ (by rw [hpc]; exact .inl rfl)
  have hi₀ : c₀.worker = i := h.worker_of_listed htouch hc₀
  have hgen : a.Genuine s.tables := (h.worker i).genuine fd₀ a (by rw [hpc]; exact ⟨rfl, rfl⟩)
  refine h.after (fun _ _ hne ↦ insert_conns_iff hi₀
      (fun c' hc' ↦ h.worker_of_listed htouch hc') hne) (fun _ _ _ _ _ h ↦ h)
    (fun _ _ _ _ _ h ↦ h) (fun fd c hc hi ↦ ?_) ?_
  · -- the old record of the connection, and how the new one differs from it
    obtain ⟨c', hc', hw', hmods, hans⟩ : ∃ c', s.conns[fd]? = some c' ∧ c'.worker = i ∧
        c.modSet = c'.modSet ∧ ((fd₀ = fd ∧ c = { c' with answers := c'.answers ++ [a] }) ∨
          (fd₀ ≠ fd ∧ c = c')) := by
      rw [getElem?_insert_conns] at hc
      by_cases e : fd₀ = fd
      · subst e
        rw [if_pos rfl] at hc
        obtain rfl := Option.some.inj hc
        exact ⟨c₀, hc₀, hi₀, rfl, .inl ⟨rfl, rfl⟩⟩
      · rw [if_neg e] at hc
        exact ⟨c, hc, hi, rfl, .inr ⟨e, rfl⟩⟩
    have hci := h.conn fd c' hc'
    rw [← hw'] at hpc
    have hfresh : ∀ m g, c'.Fresh m g → c.Fresh m g := by
      rcases hans with ⟨rfl, rfl⟩ | ⟨-, rfl⟩
      · exact fun m g hf ↦ fresh_append hf (hci.ordered a (by rw [hpc]; exact ⟨rfl, rfl⟩))
      · exact fun _ _ hf ↦ hf
    refine .after hi (hw' ▸ hci.inRange) (hw' ▸ hci.listed) ?_
      (fun _ hca ↦ absurd hca Pc.not_carries_next)
      (fun _ m hm ↦ .inl (hci.subscribed hpc id (fun _ ↦ id) (hmods ▸ hm))) ?_
    · rcases hans with ⟨-, rfl⟩ | ⟨-, rfl⟩
      · intro a' ha'
        rcases List.mem_append.mp ha' with ha' | ha'
        · exact hci.genuine a' ha'
        · obtain rfl := List.mem_singleton.mp ha'
          exact hgen
      · exact hci.genuine
    · intro _ p hp m hm hreq
      rcases hci.covered_at hpc id hp hm (hmods ▸ hreq) with
        hf | ⟨hpush, hd⟩ | hr | ⟨a', ha', hmod, hg⟩
      · exact .inl (hfresh m _ hf)
      · rw [hw'] at hd
        refine .inr (.inl ⟨hpush, ?_⟩)
        rcases hd with hq | ha | hk | hcol
        · exact .inl hq
        · exact .inr (.inl ha)
        · exact .inr (.inr (.inl hk))
        · cases hcol
      · exact .inr (.inr (.inl (Pc.reads_next hr)))
      · obtain ⟨rfl, rfl⟩ := ha'
        rcases hans with ⟨-, rfl⟩ | ⟨hne, -⟩
        · subst hmod
          exact .inl (fresh_of_append hg)
        · exact absurd rfl hne
  · refine .after (fun fd hfd ↦ ?_) (fun fd hf ↦ ?_) fun _ _ hca ↦ absurd hca Pc.not_carries_next
    · rw [getElem?_insert_conns]
      split
      · exact ⟨_, rfl, hi₀⟩
      · exact (h.worker i).owns fd hfd
    · refine (h.worker i).touches fd ?_
      rw [hpc]
      exact .inr (Pc.touches_next hf)

/-- A worker takes from the push list what concerns its connections. -/
theorem Inv.makePublishMap {fds : ExtTreeSet Int} (h : s.Inv)
    (hpc : (s.workers i).pc = .makePublishMap fds) :
    (s.after i { s.workers i with pc := .next (s.sub.makePublishMap fds).1 } s.conns
      (s.sub.makePublishMap fds).2).Inv := by
  have htouch : ∀ fd ∈ fds, fd ∈ (s.workers i).lfds := fun fd hfd ↦
    (h.worker i).touches fd (by rw [hpc]; exact hfd)
  refine h.after (fun _ _ _ ↦ Iff.rfl) (fun _ _ _ _ _ h ↦ h) (fun fd c hc hne m hm ↦ ?_)
    (fun fd c hc hi ↦ ?_) ?_
  · refine SubscribeList.mem_pushList_makePublishMap.mpr ⟨fun hfd ↦ ?_, hm⟩
    exact hne (h.worker_of_listed (htouch fd hfd) hc)
  · subst hi
    have hci := h.conn fd c hc
    refine .after rfl hci.inRange hci.listed hci.genuine
      (fun _ hca ↦ absurd hca Pc.not_carries_next)
      (fun _ m hm ↦ .inl (hci.subscribed hpc id (fun _ ↦ id) hm)) fun _ p hp m hm hreq ↦ ?_
    rcases hci.covered_at hpc id hp hm hreq with hf | ⟨hpush, hd⟩ | hr | ⟨a, ha, -⟩
    · exact .inl hf
    · by_cases hfd : fd ∈ fds
      · exact .inr (.inr (.inl (Pc.reads_next (SubscribeList.mem_needPublish.mpr ⟨hfd, hpush⟩))))
      · refine .inr (.inl ⟨SubscribeList.mem_pushList_makePublishMap.mpr ⟨hfd, hpush⟩, ?_⟩)
        rcases hd with hq | ha | hk | hcol
        · exact .inl hq
        · exact .inr (.inl ha)
        · exact .inr (.inr (.inl hk))
        · exact absurd hcol hfd
    · cases hr
    · cases ha
  · refine .after (h.worker i).owns (fun fd hf ↦ ?_) fun _ _ hca ↦ absurd hca Pc.not_carries_next
    obtain ⟨m, hm⟩ := Pc.touches_next hf
    exact htouch fd (SubscribeList.mem_needPublish.mp hm).1

theorem ConnInv.close {fd₀ : Int} {mods : List UInt64} (h : s.ConnInv fd c) (hi : c.worker = i)
    (hpc : (s.workers i).pc = .unsubscribe fd₀ mods) (hne : fd₀ ≠ fd) (hl : fd ∈ w.lfds)
    (hq : w.queue = (s.workers i).queue) (ha : w.asyncTasks = (s.workers i).asyncTasks)
    (hcarries : ∀ a, ¬w.pc.Carries fd a)
    (hbook : ∀ m, fd ∈ MultiMap.lookup s.sub.bookList m → fd ∈ MultiMap.lookup sub.bookList m)
    (hpush : sub.pushList = s.sub.pushList) : (s.after i w conns sub).ConnInv fd c := by
  subst hi
  refine .after rfl h.inRange hl h.genuine (fun a hca ↦ absurd hca (hcarries a))
    (fun _ m hm ↦ .inl (hbook m (h.subscribed hpc hne (fun _ ↦ id) hm)))
    fun _ p hp m hm hreq ↦ ?_
  rcases h.covered_at hpc hne hp hm hreq with hf | ⟨hpm, hd⟩ | hr | ⟨a, hca, -⟩
  · exact .inl hf
  · refine .inr (.inl ⟨hpush ▸ hpm, ?_⟩)
    rcases hd with hd | hd | hd | hd
    · exact .inl (hq ▸ hd)
    · exact .inr (.inl (ha ▸ hd))
    · exact .inr (.inr (.inl hd))
    · cases hd
  · cases hr
  · cases hca

/-- `clean_subscribe` takes one subscription away. -/
theorem Inv.unsubscribe {fd₀ : Int} {mod : UInt64} {mods : List UInt64} (h : s.Inv)
    (hpc : (s.workers i).pc = .unsubscribe fd₀ (mod :: mods)) :
    (s.after i { s.workers i with pc := .unsubscribe fd₀ mods } s.conns
      (s.sub.unsubscribe mod fd₀)).Inv := by
  have htouch : fd₀ ∈ (s.workers i).lfds := (h.worker i).touches fd₀ (by rw [hpc]; rfl)
  have hbook : ∀ fd m, fd₀ ≠ fd → fd ∈ MultiMap.lookup s.sub.bookList m →
      fd ∈ MultiMap.lookup (s.sub.unsubscribe mod fd₀).bookList m := fun fd m hne hm ↦
    SubscribeList.mem_bookList_unsubscribe.mpr ⟨hm, fun h ↦ hne h.2.symm⟩
  refine h.after (fun _ _ _ ↦ Iff.rfl) (fun fd c hc hne m ↦ hbook fd m ?_)
    (fun _ _ _ _ _ h ↦ h) (fun fd c hc hi ↦ ?_) ?_
  · rintro rfl
    exact hne (h.worker_of_listed htouch hc)
  · by_cases e : fd₀ = fd
    · -- nothing is asked of a connection that is being closed
      subst hi
      have hci := h.conn fd c hc
      exact .after rfl hci.inRange hci.listed hci.genuine (fun _ ↦ False.elim)
        (fun hcl ↦ absurd e hcl) fun hcl ↦ absurd e hcl
    · exact (h.conn fd c hc).close hi hpc e (hi ▸ (h.conn fd c hc).listed) rfl rfl (fun _ ↦ id)
        (fun m ↦ hbook fd m e) rfl
  · refine .after (h.worker i).owns ?_ fun _ _ ↦ False.elim
    rintro fd rfl
    exact htouch

theorem Inv.erase {fd₀ : Int} (h : s.Inv) (hpc : (s.workers i).pc = .unsubscribe fd₀ []) :
    (s.after i { s.workers i with pc := .idle, lfds := (s.workers i).lfds.erase fd₀ }
      (s.conns.erase fd₀) s.sub).Inv := by
  have htouch : fd₀ ∈ (s.workers i).lfds := (h.worker i).touches fd₀ (by rw [hpc]; rfl)
  have hget : ∀ fd, (s.conns.erase fd₀)[fd]? = if fd₀ = fd then none else s.conns[fd]? := by
    intro fd
    rw [ExtTreeMap.getElem?_erase]
    by_cases e : fd₀ = fd
    · rw [if_pos e, if_pos (Std.compare_eq_iff_eq.mpr e)]
    · rw [if_neg e, if_neg (mt Std.compare_eq_iff_eq.mp e)]
  have hlfds : ∀ fd, fd ∈ (s.workers i).lfds.erase fd₀ ↔ fd₀ ≠ fd ∧ fd ∈ (s.workers i).lfds := by
    intro fd
    rw [ExtTreeSet.mem_erase, ne_eq, Std.compare_eq_iff_eq]
  refine h.after (fun fd c hne ↦ ?_) (fun _ _ _ _ _ h ↦ h) (fun _ _ _ _ _ h ↦ h)
    (fun fd c hc hi ↦ ?_) ?_
  · rw [hget]
    split
    · rename_i e
      subst e
      constructor
      · exact fun hc ↦ by cases hc
      · exact fun hc ↦ absurd (h.worker_of_listed htouch hc) hne
    · exact Iff.rfl
  · rw [hget] at hc
    split at hc
    · cases hc
    · rename_i hne
      exact (h.conn fd c hc).close hi hpc hne
        ((hlfds fd).mpr ⟨hne, hi ▸ (h.conn fd c hc).listed⟩) rfl rfl (fun _ ↦ id)
        (fun _ hm ↦ hm) rfl
  · refine .after (fun fd hfd ↦ ?_) (fun _ ↦ False.elim) fun _ _ ↦ False.elim
    obtain ⟨hne, hfd⟩ := (hlfds fd).mp hfd
    rw [hget, if_neg hne]
    exact (h.worker i).owns fd hfd

/-- What a worker that goes on has done. -/
inductive Proceeds (i : ℕ) (s : DnsServer) : DnsServer → Prop where
  | subscribe {fd : Int} {modid cmdid : UInt32}
      (hpc : (s.workers i).pc = .subscribe fd modid cmdid) :
      Proceeds i s (s.after i { s.workers i with pc := .getHosts fd modid cmdid [] } s.conns
        (s.sub.subscribe (bookKey modid cmdid) fd))
  | getHosts {fd : Int} {modid cmdid : UInt32} {rest : List (Int × UInt64)}
      (hpc : (s.workers i).pc = .getHosts fd modid cmdid rest) :
      Proceeds i s (s.after i { s.workers i with pc := .sendMsg fd (s.answer modid cmdid) rest }
        s.conns s.sub)
  | sendMsg {fd : Int} {a : Answer} {rest : List (Int × UInt64)} {c : Conn}
      (hpc : (s.workers i).pc = .sendMsg fd a rest) (hc : s.conns[fd]? = some c) :
      Proceeds i s (s.after i { s.workers i with pc := .next rest }
        (s.conns.insert fd { c with answers := c.answers ++ [a] }) s.sub)
  | makePublishMap {fds : ExtTreeSet Int} (hpc : (s.workers i).pc = .makePublishMap fds) :
      Proceeds i s (s.after i { s.workers i with pc := .next (s.sub.makePublishMap fds).1 }
        s.conns (s.sub.makePublishMap fds).2)
  | unsubscribe {fd : Int} {mod : UInt64} {mods : List UInt64}
      (hpc : (s.workers i).pc = .unsubscribe fd (mod :: mods)) :
      Proceeds i s (s.after i { s.workers i with pc := .unsubscribe fd mods } s.conns
        (s.sub.unsubscribe mod fd))
  | erase {fd : Int} (hpc : (s.workers i).pc = .unsubscribe fd []) :
      Proceeds i s (s.after i
        { s.workers i with pc := .idle, lfds := (s.workers i).lfds.erase fd }
        (s.conns.erase fd) s.sub)

/-- A worker that goes on does one of these: it sends on connections that are there. -/
theorem Inv.proceeds (h : s.Inv) (hs : s.proceed i = some t) : s.Proceeds i t := by
  unfold DnsServer.proceed at hs
  cases hpc : (s.workers i).pc with
  | idle =>
      simp only [hpc] at hs
      cases hs
  | subscribe fd modid cmdid =>
      simp only [hpc] at hs
      obtain rfl := Option.some.inj hs
      exact .subscribe hpc
  | getHosts fd modid cmdid rest =>
      simp only [hpc] at hs
      obtain rfl := Option.some.inj hs
      exact .getHosts hpc
  | sendMsg fd a rest =>
      simp only [hpc] at hs
      have hfd : fd ∈ (s.workers i).lfds := (h.worker i).touches fd (by rw [hpc]; exact .inl rfl)
      obtain ⟨c, hc, -⟩ := (h.worker i).owns fd hfd
      rw [hc] at hs
      obtain rfl := Option.some.inj hs
      exact .sendMsg hpc hc
  | makePublishMap fds =>
      simp only [hpc] at hs
      obtain rfl := Option.some.inj hs
      exact .makePublishMap hpc
  | unsubscribe fd mods =>
      cases mods with
      | nil =>
          simp only [hpc] at hs
          obtain rfl := Option.some.inj hs
          exact .erase hpc
      | cons mod mods =>
          simp only [hpc] at hs
          obtain rfl := Option.some.inj hs
          exact .unsubscribe hpc

/-- A worker that goes on keeps the invariant. -/
theorem Inv.proceed (h : s.Inv) (hs : s.proceed i = some t) : t.Inv := by
  cases h.proceeds hs with
  | subscribe hpc => exact h.subscribe hpc
  | getHosts hpc => exact h.getHosts hpc
  | sendMsg hpc hc => exact h.sendMsg hpc hc
  | makePublishMap hpc => exact h.makePublishMap hpc
  | unsubscribe hpc => exact h.unsubscribe hpc
  | erase hpc => exact h.erase hpc

theorem of_isIdle (h : s.isIdle i = true) : (s.workers i).pc = .idle ∧ i < s.threadNum := by
  unfold isIdle at h
  split at h
  · rename_i hpc
    exact ⟨hpc, of_decide_eq_true h⟩
  · cases h

/-- Every step keeps the invariant. -/
theorem Inv.step {e : Event} (h : s.Inv) (hs : s.step e = some t) : t.Inv := by
  cases e with
  | updater a =>
      obtain rfl := Option.some.inj hs
      exact h.updater a
  | deal i =>
      simp only [DnsServer.step, Option.ite_none_right_eq_some] at hs
      obtain rfl := Option.some.inj hs.2
      exact h.deal (of_isIdle hs.1).1
  | task i =>
      simp only [DnsServer.step, Option.ite_none_right_eq_some] at hs
      exact h.startTask (of_isIdle hs.1).1 hs.2
  | request i fd modid cmdid =>
      simp only [DnsServer.step, Option.ite_none_right_eq_some] at hs
      exact h.getReq (of_isIdle hs.1).1 hs.2
  | connect i fd =>
      simp only [DnsServer.step, Option.ite_none_right_eq_some] at hs
      exact h.connect (of_isIdle hs.1).2 (of_isIdle hs.1).1 hs.2
  | close i fd =>
      simp only [DnsServer.step, Option.ite_none_right_eq_some] at hs
      exact h.close (of_isIdle hs.1).1 hs.2
  | proceed i => exact h.proceed hs

/-- The invariant holds of every reachable state. -/
theorem inv_of_reachable (h : dnsServer.Reachable s) : s.Inv := by
  refine h.induction (I := Inv) ?_ fun _ _ _ _ hi hs ↦ hi.step hs
  rintro _ ⟨threadNum, res, rfl⟩
  refine ⟨fun fd c hc ↦ ?_, fun i ↦ ⟨fun fd hfd ↦ ?_, fun _ ↦ False.elim, fun _ _ ↦ False.elim⟩,
    fun _ hp ↦ by cases hp⟩
  · simp [start] at hc
  · exact absurd hfd ExtTreeSet.not_mem_empty

/-! ## When all is done -/

/-- A worker has no task left, and is not in `get_req` or in a task. -/
def Worker.Done (w : Worker) : Prop :=
  w.queue = 0 ∧ w.asyncTasks = 0 ∧ (w.pc = .idle ∨ ∃ fd mods, w.pc = .unsubscribe fd mods)

theorem Worker.Done.quiet {w : Worker} (h : Worker.Done w) :
    ¬w.pc.Collects fd ∧ ¬w.pc.Reads fd m ∧ ∀ a, ¬w.pc.Carries fd a := by
  rcases h.2.2 with hpc | ⟨_, _, hpc⟩
  · rw [hpc]
    exact ⟨id, id, fun _ ↦ id⟩
  · rw [hpc]
    exact ⟨id, id, fun _ ↦ id⟩

/-- All tasks have run and all requests that were started have been answered. -/
def Settled (s : DnsServer) : Prop :=
  s.sending = none ∧ ∀ i, i < s.threadNum → Worker.Done (s.workers i)

/-- In a settled state what is covered has been sent. -/
theorem Covered.fresh (h : s.Covered fd c g m) (hs : s.Settled) (hr : c.worker < s.threadNum) :
    c.Fresh m g := by
  have hdone := hs.2 _ hr
  obtain ⟨hcol, hreads, hcarries⟩ := @hdone.quiet fd m
  rcases h with h | ⟨-, h⟩ | h | ⟨a, h, -⟩
  · exact h
  · rcases h with h | h | ⟨k, hk, -⟩ | h
    · exact absurd hdone.1 h.ne'
    · exact absurd hdone.2.1 h.ne'
    · rw [hs.1] at hk
      cases hk
    · exact absurd h hcol
  · exact absurd h hreads
  · exact absurd h (hcarries a)

end DnsServer

open DnsServer

/-- When all tasks have run and all requests have been answered, the last response that was
buffered for a module on a connection that has asked for it was read from the table of the
swap that the module was published after, or from a later one. -/
theorem no_missed_update {s : DnsServer} (h : dnsServer.Reachable s) (hs : s.Settled) {g : Nat}
    {mods : List UInt64} (hp : (g, mods) ∈ s.published) {m : UInt64} (hm : m ∈ mods) {fd : Int}
    {c : Conn} (hc : s.conns[fd]? = some c) (hlive : ¬(s.workers c.worker).pc.Closes fd)
    (hreq : m ∈ c.modSet) :
    ∃ a, c.last m = some a ∧ g ≤ a.gen ∧ a.Genuine s.tables := by
  have hci := (inv_of_reachable h).conn fd c hc
  obtain ⟨a, hlast, hg⟩ := (hci.covered hlive _ hp m hm hreq).fresh hs hci.inRange
  exact ⟨a, hlast, hg, hci.genuine a (List.mem_filter.mp (List.mem_of_getLast? hlast)).1⟩

/-- A new version, one host for module (1, 1), and a row that announces it. -/
def newVersion : Answers where
  version := .rows 1 [1]
  elapsed := 1
  data := .rows 5 [⟨1, 1, 3232235953, 7777⟩]
  changes := .rows 2 [(1, 1)]

/-- A connection asks for a module, and the module is published. -/
def oneUpdate : List Event :=
  [.connect 0 5, .request 0 5 1 1, .proceed 0, .proceed 0, .proceed 0,
    .updater newVersion, .updater newVersion, .updater newVersion, .updater newVersion,
    .updater newVersion, .updater newVersion, .updater newVersion,
    .deal 0, .task 0, .proceed 0, .proceed 0, .proceed 0]

/-- The state after a step, if it can be taken. -/
def DnsServer.next (s : DnsServer) (e : Event) : DnsServer := (s.step e).getD s

/-- The server with one worker after these steps. -/
def updated : DnsServer := oneUpdate.foldl DnsServer.next (DnsServer.start 1 (Router.new .noResult))

theorem no_missed_update_updated :
    ∃ c, updated.conns[(5 : Int)]? = some c ∧
      ∃ a, c.last (bookKey 1 1) = some a ∧ 1 ≤ a.gen ∧ a.Genuine updated.tables := by
  have hrun : dnsServer.Run (DnsServer.start 1 (Router.new .noResult)) oneUpdate updated := by
    refine LTS.Run.foldl (C := fun s e ↦ (s.step e).isSome = true) (fun s e h ↦ ?_) ?_
    · obtain ⟨t, ht⟩ := Option.isSome_iff_exists.mp h
      change s.step e = some ((s.step e).getD s)
      rw [ht]
      rfl
    · repeat' constructor
  obtain ⟨c, hc⟩ : ∃ c, updated.conns[(5 : Int)]? = some c :=
    Option.isSome_iff_exists.mp (by decide)
  have hall : updated.conns[(5 : Int)]?.all
      (fun c ↦ decide (bookKey 1 1 ∈ c.modSet ∧ c.worker = 0)) = true := by decide
  rw [hc] at hall
  obtain ⟨hreq, hworker⟩ := of_decide_eq_true hall
  refine ⟨c, hc, no_missed_update (LTS.Reachable.run (.init ⟨1, _, rfl⟩) hrun) ⟨rfl, ?_⟩
    List.mem_cons_self List.mem_cons_self hc ?_ hreq⟩
  · intro i hi
    obtain rfl := Nat.lt_one_iff.mp hi
    exact ⟨rfl, rfl, .inl rfl⟩
  · rw [hworker]
    exact id

end Ylars.Dns
