import Ylars.Dns.RouteHistory
import Ylars.Dns.Workload

/-!
# The server on its database

`DbServer` is the database, which other clients edit, and the server with all its threads on
it: what the queries of the update thread give is what the database has at this moment.  The
clients keep to the rules, no statement of the thread fails, and the loads keep what is lost.

After a version change that came when all edits were complete, and when the server has
settled, each subscriber has been sent the rows of `RouteData` (`last_answer_rows`).
-/

namespace Ylars.Dns

open Std (ExtTreeMap ExtTreeSet)
open Ylars.Lib

/-- The database with what is remembered of it, and the server. -/
structure DbServer where
  world : World
  server : DnsServer

/-- What happens next. -/
inductive DbEvent where
  /-- A statement of another client of the database. -/
  | client (op : ClientOp)
  /-- The update thread of the server goes on. -/
  | updater (elapsed : Int)
  /-- Something else happens in the server. -/
  | other (e : Event)

/-- Whether the update thread does it. -/
def Event.isUpdater : Event → Bool
  | .updater _ => true
  | _ => false

/-- What a step of the update thread is for the database.  The modules are published as soon
as they are filed for their subscribers; that tasks are sent then does not concern it. -/
def World.follow (sending : Option ℕ) (elapsed : Int) (w : World) : World :=
  match sending with
  | none => w.thread .ok elapsed
  | some _ => w

namespace DbServer

/-- One step. -/
def step (d : DbServer) : DbEvent → Option DbServer
  | .client op => some { d with world := d.world.client op }
  | .updater elapsed =>
      some ⟨d.world.follow d.server.sending elapsed,
        d.server.updater (d.world.answers .ok elapsed)⟩
  | .other e =>
      if e.isUpdater then none
      else (d.server.step e).map fun server ↦ { d with server := server }

/-- The clients keep to the rules, and a load keeps what is lost. -/
def Keeps (d : DbServer) : DbEvent → Prop
  | .client op => Orderly d.world (.client op)
  | .updater elapsed => d.server.sending = none → KeepsLosses d.world (.thread .ok elapsed)
  | .other _ => True

end DbServer

/-- The runs of the server on a database whose clients keep to the rules. -/
def dbServer : LTS DbServer DbEvent where
  init d := ∃ threadNum routes changes version, d.world = World.start .ok routes changes version ∧
    d.server = DnsServer.start threadNum d.world.publisher.router
  step d e t := d.Keeps e ∧ d.step e = some t

/-- No client edits the database. -/
def NoEdit (_ : DbServer) : DbEvent → Prop
  | .client _ => False
  | _ => True

/-- A state after a version-change turn that started when all edits were complete, with no
edit since. -/
def DbServer.AfterTurn (u : DbServer) : Prop :=
  ∃ s elapsed t es, dbServer.Reachable s ∧ s.world.Complete ∧
    s.world.publisher.phase = .checkVersion ∧ dbServer.step s (.updater elapsed) t ∧
    t.world.publisher.phase = .loadRouteData true ∧ (dbServer.restrict NoEdit).Run t es u ∧
    u.world.publisher.phase = .checkVersion

/-! ## The invariant -/

/-- What every step keeps. -/
structure DbInv (d : DbServer) : Prop where
  world : d.world.Inv
  server : dnsServer.Reachable d.server
  router : d.server.publisher.router = d.world.publisher.router
  /-- The thread is at the same statement in both, or is sending tasks. -/
  phase : d.server.sending = none ∧ d.server.publisher.phase = d.world.publisher.phase ∨
    d.server.sending ≠ none ∧ d.world.publisher.phase = .dropSynchronousMod
  followed : d.world.Followed d.server.tables d.server.published

variable {d t : DbServer} {elapsed : Int}

theorem World.thread_publisher (w : World) (fate : Fate) (elapsed : Int) :
    (w.thread fate elapsed).publisher = w.publisher.step (w.answers fate elapsed) := by
  unfold World.thread
  split
  · split <;> rfl
  · rfl
  · split <;> rfl
  · rfl

theorem World.client_publisher (w : World) (op : ClientOp) :
    (w.client op).publisher = w.publisher := by
  cases op <;> rfl

theorem Publisher.eq_of {p q : Publisher} (hrouter : p.router = q.router)
    (hphase : p.phase = q.phase) : p = q := by
  obtain ⟨_, _⟩ := p
  obtain ⟨_, _⟩ := q
  obtain rfl := hrouter
  obtain rfl := hphase
  rfl

namespace DbInv

/-- The update thread sends tasks. -/
theorem sending {k : ℕ} (h : DbInv d) (hk : d.server.sending = some k) :
    DbInv ⟨d.world, d.server.updater (d.world.answers .ok elapsed)⟩ := by
  obtain ⟨mods, hmods⟩ :=
    DnsServer.sends_of_reachable h.server (by rw [hk]; exact Option.some_ne_none k)
  have hserver : dnsServer.Reachable (d.server.updater (d.world.answers .ok elapsed)) :=
    h.server.step (a := .updater _) rfl
  have hphase := h.phase.resolve_left fun hn ↦ by rw [hk] at hn; cases hn.1
  refine ⟨h.world, hserver, ?_, ?_, ?_⟩
  · simp only [DnsServer.updater, hmods, hk]
    split
    · exact h.router
    · simpa only [Publisher.step, hmods] using h.router
  · simp only [DnsServer.updater, hmods, hk]
    split
    · exact .inr ⟨Option.some_ne_none _, hphase.2⟩
    · refine .inl ⟨rfl, ?_⟩
      simp only [Publisher.step, hmods, hphase.2]
  · have hsame : (d.server.updater (d.world.answers .ok elapsed)).tables = d.server.tables ∧
        (d.server.updater (d.world.answers .ok elapsed)).published = d.server.published := by
      simp only [DnsServer.updater, hmods, hk]
      split
      · exact ⟨rfl, rfl⟩
      · simp only [DnsServer.tables, Publisher.step, hmods, and_self]
    rw [hsame.1, hsame.2]
    exact h.followed

/-- The update thread executes a statement. -/
theorem statement (h : DbInv d) (hs : d.server.sending = none)
    (hk : KeepsLosses d.world (.thread .ok elapsed)) :
    DbInv ⟨d.world.thread .ok elapsed, d.server.updater (d.world.answers .ok elapsed)⟩ := by
  obtain ⟨-, hphase⟩ := h.phase.resolve_right fun hn ↦ hn.1 hs
  have hpub : d.server.publisher = d.world.publisher := Publisher.eq_of h.router hphase
  have hserver : dnsServer.Reachable (d.server.updater (d.world.answers .ok elapsed)) :=
    h.server.step (a := .updater _) rfl
  have hworld := h.world.thread hk
  have hthread := d.world.thread_publisher .ok elapsed
  -- where the server takes the step that the database sees
  have hstep : (∀ mods, d.world.publisher.phase ≠ .publish mods) →
      (d.server.updater (d.world.answers .ok elapsed)).publisher =
          (d.world.thread .ok elapsed).publisher ∧
        (d.server.updater (d.world.answers .ok elapsed)).sending = none ∧
        (d.server.updater (d.world.answers .ok elapsed)).published = d.server.published ∧
        ((∀ b, d.world.publisher.phase ≠ .swap b) →
          (d.server.updater (d.world.answers .ok elapsed)).tables = d.server.tables) := by
    intro hne
    rw [hthread, ← hpub]
    cases hp : d.world.publisher.phase with
    | publish mods => exact absurd hp (hne mods)
    | swap b =>
        simp only [DnsServer.updater, hphase, hp]
        exact ⟨trivial, hs, trivial, fun hb ↦ absurd rfl (hb b)⟩
    | checkVersion | loadRouteData | loadChangeMod | dropSynchronousMod | ended =>
        have hdata := Publisher.step_data (a := d.world.answers .ok elapsed)
          (p := d.server.publisher) (by simp [hphase, hp])
        simp only [DnsServer.updater, hphase, hp]
        refine ⟨trivial, hs, trivial, fun _ ↦ ?_⟩
        simp only [DnsServer.tables, hdata]
  have hkeep : (∀ mods, d.world.publisher.phase ≠ .publish mods) →
      (∀ b, d.world.publisher.phase ≠ .swap b) →
      (d.world.thread .ok elapsed).Followed d.server.tables d.server.published →
      DbInv ⟨d.world.thread .ok elapsed, d.server.updater (d.world.answers .ok elapsed)⟩ := by
    intro hpublish hswap hfollowed
    obtain ⟨heq, hsend, hpublished, htables⟩ := hstep hpublish
    refine ⟨hworld, hserver, by rw [heq], .inl ⟨hsend, by rw [heq]⟩, ?_⟩
    rw [htables hswap, hpublished]
    exact hfollowed
  cases hp : d.world.publisher.phase with
  | checkVersion =>
      exact hkeep (by simp [hp]) (by simp [hp]) (h.followed.read h.world (.inl hp))
  | loadRouteData b =>
      exact hkeep (by simp [hp]) (by simp [hp]) (h.followed.read h.world (.inr ⟨b, hp⟩))
  | swap b =>
      obtain ⟨heq, hsend, hpublished, -⟩ := hstep (by simp [hp])
      refine ⟨hworld, hserver, by rw [heq], .inl ⟨hsend, by rw [heq]⟩, ?_⟩
      have htables : (d.server.updater (d.world.answers .ok elapsed)).tables =
          d.server.tables ++ [d.world.publisher.router.temp] := by
        simp only [DnsServer.updater, hp, DnsServer.tables, Publisher.step, hpub]
        rfl
      rw [htables, hpublished]
      exact h.followed.swap h.world hp
  | loadChangeMod => exact hkeep (by simp [hp]) (by simp [hp]) (h.followed.select hp)
  | publish mods =>
      have hserver' : d.server.updater (d.world.answers .ok elapsed) = { d.server with
          sub := d.server.sub.publish mods
          sending := some 0
          published := (d.server.gen, mods) :: d.server.published } := by
        simp only [DnsServer.updater, hphase, hp, hs]
      have hdata : d.server.tables.getLast? = some d.world.publisher.router.data := by
        rw [DnsServer.tables, List.getLast?_concat, hpub]
      have hgen : d.server.tables.length - 1 = d.server.gen := by
        rw [DnsServer.tables, List.length_append]
        rfl
      have hfollowed : (d.world.thread .ok elapsed).Followed d.server.tables
          ((d.server.tables.length - 1, mods) :: d.server.published) :=
        h.followed.publish hp hdata
      rw [hgen] at hfollowed
      refine ⟨hworld, hserver, ?_, .inr ⟨?_, ?_⟩, ?_⟩
      · rw [hserver', hthread]
        simp only [Publisher.step, hp]
        exact h.router
      · rw [hserver']
        exact Option.some_ne_none 0
      · rw [hthread]
        simp only [Publisher.step, hp]
      · rw [hserver']
        exact hfollowed
  | dropSynchronousMod => exact hkeep (by simp [hp]) (by simp [hp]) (h.followed.drop hp)
  | ended =>
      refine hkeep (by simp [hp]) (by simp [hp]) ?_
      rw [World.thread_ended hp]
      exact h.followed

/-- Every step keeps the invariant. -/
theorem step {e : DbEvent} (h : DbInv d) (hk : d.Keeps e) (hst : d.step e = some t) : DbInv t := by
  cases e with
  | client op =>
      obtain rfl := Option.some.inj hst
      exact ⟨h.world.client hk, h.server, h.router.trans (by rw [World.client_publisher]),
        h.phase.imp (fun hp ↦ ⟨hp.1, hp.2.trans (by rw [World.client_publisher])⟩)
          (fun hp ↦ ⟨hp.1, by rw [World.client_publisher]; exact hp.2⟩),
        h.followed.client h.world hk⟩
  | updater elapsed =>
      obtain rfl := Option.some.inj hst
      cases hs : d.server.sending with
      | none => exact h.statement hs (hk hs)
      | some k => exact h.sending hs
  | other e =>
      simp only [DbServer.step, Option.ite_none_left_eq_some] at hst
      obtain ⟨he, hst⟩ := hst
      obtain ⟨server, hserver, rfl⟩ := Option.map_eq_some_iff.mp hst
      obtain ⟨hpub, hsend, hpast, hpublished⟩ :=
        DnsServer.sameThread_step hserver fun a ha ↦ he (by rw [ha]; rfl)
      refine ⟨h.world, h.server.step hserver, by rw [hpub]; exact h.router, ?_, ?_⟩
      · rw [hpub, hsend]
        exact h.phase
      · rw [DnsServer.tables, hpast, hpub, hpublished]
        exact h.followed

end DbInv

/-- The invariant holds of every reachable state. -/
theorem dbInv_of_reachable (h : dbServer.Reachable d) : DbInv d := by
  refine h.induction (I := DbInv) ?_ ?_
  · rintro ⟨_, server⟩ ⟨threadNum, routes, changes, version, rfl, hserver⟩
    obtain rfl : server = DnsServer.start threadNum
      (World.start .ok routes changes version).publisher.router := hserver
    refine ⟨?_, .init ⟨threadNum, _, rfl⟩, rfl, .inl ⟨rfl, rfl⟩, ?_⟩
    · exact World.inv_of_reachable (.init ⟨routes, changes, version, rfl⟩)
    · intro modid cmdid _ g tab htab _
      obtain rfl := List.mem_singleton.mp (List.mem_of_getElem? htab)
      rfl
  · rintro d e t - hi ⟨hk, hst⟩
    exact hi.step hk hst

/-! ## After the last turn -/

/-- From the load of a version-change turn on, while there are no edits: the table that has
been loaded has the rows of `RouteData`. -/
def World.Loaded (w : World) : Prop :=
  match w.publisher.phase with
  | .loadRouteData true => True
  | .swap _ => w.publisher.router.temp = Router.tableOf w.routes
  | _ => w.publisher.router.data = Router.tableOf w.routes

/-- While every statement succeeds, the steps of the thread keep the tables loaded. -/
theorem World.Loaded.thread {w : World} (h : w.Loaded) (hi : w.Inv) :
    (w.thread .ok elapsed).Loaded := by
  unfold Loaded at h
  cases hp : w.publisher.phase with
  | checkVersion =>
      rw [hp] at h
      obtain ⟨v, phase, heq, -, hcases⟩ := thread_check elapsed hp hi.1.1 hi.1.2
      rw [heq]
      rcases hcases with rfl | rfl | ⟨rfl, -⟩
      · exact h
      · exact h
      · trivial
  | loadRouteData b =>
      rw [thread_load hp]
      rfl
  | swap b =>
      rw [hp] at h
      rw [thread_swap hp]
      cases b with
      | false => exact h
      | true => exact h
  | loadChangeMod =>
      rw [hp] at h
      rw [thread_select hp]
      exact h
  | publish mods =>
      rw [hp] at h
      rw [thread_publish hp]
      exact h
  | dropSynchronousMod =>
      rw [hp] at h
      rw [thread_drop hp]
      exact h
  | ended =>
      rw [hp] at h
      rw [thread_ended hp, Loaded, hp]
      exact h

/-- Without edits the database changes by what the thread does. -/
theorem world_of_noEdit {e : DbEvent} (hst : d.step e = some t) (he : NoEdit d e) :
    t.world = d.world ∨ ∃ elapsed, t.world = d.world.thread .ok elapsed := by
  cases e with
  | client op => exact absurd he id
  | updater elapsed =>
      obtain rfl := Option.some.inj hst
      cases hs : d.server.sending with
      | none => exact .inr ⟨elapsed, rfl⟩
      | some k => exact .inl rfl
  | other e =>
      simp only [DbServer.step, Option.ite_none_left_eq_some] at hst
      obtain ⟨server, -, rfl⟩ := Option.map_eq_some_iff.mp hst.2
      exact .inl rfl

/-- After the last turn no module is due, and the table has the rows of `RouteData`. -/
theorem DbServer.AfterTurn.finished (h : d.AfterTurn) :
    DbInv d ∧ (∀ modid cmdid, ¬d.world.Due modid cmdid) ∧
      d.world.publisher.router.data = Router.tableOf d.world.routes := by
  obtain ⟨s, elapsed, t, es, hs, ⟨hunlogged, hversions⟩, hcheck, hstart, hnew, hrun, hdone⟩ := h
  have hsinv := dbInv_of_reachable hs
  have hsend : s.server.sending = none := by
    rcases hsinv.phase with hp | ⟨-, hp⟩
    · exact hp.1
    · rw [hcheck] at hp
      cases hp
  have htworld : t.world = s.world.thread .ok elapsed := by
    obtain rfl := Option.some.inj hstart.2
    simp only [World.follow, hsend]
  obtain ⟨v, phase, heq, -, hcases⟩ :=
    World.thread_check elapsed hcheck hsinv.world.1.1 hsinv.world.1.2
  rw [htworld, heq] at hnew
  have hv : v = s.world.version.toNat := by
    rcases hcases with rfl | rfl | ⟨-, hv⟩
    · cases hnew
    · cases hnew
    · exact hv
  -- the turn starts with all rows in the version, and with the load
  have ht : DbInv t ∧ t.world.Finishing ∧ t.world.Loaded := by
    refine ⟨dbInv_of_reachable (hs.step hstart), ⟨?_, .inr ⟨?_, fun c hc ↦ ?_⟩⟩, ?_⟩
    · rw [htworld, World.thread_unlogged]
      exact hunlogged
    · rw [htworld, heq, hnew]
      rfl
    · rw [htworld, heq] at hc ⊢
      refine decide_eq_true ?_
      show (c.version.toNat : Int) ≤ v
      rw [hv]
      exact Int.ofNat_le.mpr (hversions c hc)
    · rw [htworld, heq, World.Loaded, hnew]
      trivial
  obtain ⟨hinv, hfin, hloaded⟩ := hrun.invariant
    (I := fun d ↦ DbInv d ∧ d.world.Finishing ∧ d.world.Loaded)
    (by
      rintro d e t ⟨hinv, hfin, hloaded⟩ ⟨he, hk, hst⟩
      refine ⟨hinv.step hk hst, ?_⟩
      rcases world_of_noEdit hst he with hw | ⟨elapsed, hw⟩
      · rw [hw]
        exact ⟨hfin, hloaded⟩
      · rw [hw]
        exact ⟨hfin.thread, hloaded.thread hinv.world⟩) ht
  refine ⟨hinv, fun modid cmdid hdue ↦ ?_, ?_⟩
  · unfold World.Due at hdue
    rw [hdone] at hdue
    rcases hdue with hul | ⟨c, hc, -⟩
    · rw [hfin.1] at hul
      cases hul
    · rcases hfin.2 with hnil | ⟨hmid, -⟩
      · rw [hnil] at hc
        cases hc
      · rw [hdone] at hmid
        cases hmid
  · unfold World.Loaded at hloaded
    rwa [hdone] at hloaded

/-! ## What the subscribers have -/

/-- After the last turn, in a settled state, the last response on a connection for a module
that it has asked for has the rows of the module. -/
theorem last_answer_rows (h : d.AfterTurn) (hs : d.server.Settled) {fd : Int} {c : Conn}
    (hc : d.server.conns[fd]? = some c) (hlive : ¬(d.server.workers c.worker).pc.Closes fd)
    {modid cmdid : UInt32} (hreq : bookKey modid cmdid ∈ c.modSet) {a : Answer}
    (ha : c.last (bookKey modid cmdid) = some a) :
    a.res = routeResponse modid cmdid (d.world.hosts modid cmdid) := by
  obtain ⟨hinv, hdue, hdata⟩ := h.finished
  have hserver := DnsServer.inv_of_reachable hinv.server
  have hci := hserver.conn fd c hc
  obtain ⟨hmem, hmod⟩ := List.mem_filter.mp (List.mem_of_getLast? ha)
  obtain ⟨tab, htab, hres⟩ := hci.genuine a hmem
  obtain ⟨rfl, rfl⟩ : a.res.modid = modid ∧ a.res.cmdid = cmdid := pack_inj (of_decide_eq_true hmod)
  -- the table it was read from has the hosts last published, and so has the one that is served
  have hread := hinv.followed _ _ (hdue a.res.modid a.res.cmdid) a.gen tab htab fun p hp hm ↦ by
    obtain ⟨a', ha', hg⟩ := (hci.covered hlive p hp _ hm hreq).fresh hs hci.inRange
    rwa [Option.some.inj (ha.symm.trans ha')]
  have hserved := hinv.followed _ _ (hdue a.res.modid a.res.cmdid) d.server.gen
    d.world.publisher.router.data (by
      rw [DnsServer.tables, DnsServer.gen, List.getElem?_concat_length, hinv.router])
    fun p hp _ ↦ hserver.published p hp
  rw [hres]
  change routeResponse _ _ (Hosts.of tab _ _) = _
  rw [hread, ← hserved, hdata]
  rfl

end Ylars.Dns
