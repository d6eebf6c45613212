import Ylars.Dns.TableSource
import Ylars.System.Deployment
import Ylars.System.Provenance

/-!
# The hosts of a client are rows of the database

`RowsSync` is the agent with the dns server and with everything that `RouteData` has had.
Nobody keeps to any rule: the routes are edited in any way, versions and changes come or do not
come, and any statement of the update thread may fail.  Still a client of the agent gets no
host that was not in `RouteData` for the module, the hosts of one answer were there at the same
time, and what a later answer gives was not there earlier (`rows_never_go_back`).
-/

namespace Ylars.System

open Ylars.Lib Ylars.Proto Ylars.Agent Ylars.Dns

/-- The agent and the server, and the contents of `RouteData`. -/
structure RowsSync where
  /-- What `RouteData` has had before, the oldest first. -/
  past : List (List RouteDataRow)
  routes : List RouteDataRow
  sync : RouteSync

/-- What happens next. -/
inductive RowsSyncEvent where
  /-- A statement of another client on `RouteData`, which then has the given rows. -/
  | edit (routes : List RouteDataRow)
  /-- The update thread of the server goes on. -/
  | updater (fate : Fate) (a : Answers)
  /-- Something else happens in the server or in the agent. -/
  | sync (e : SyncEvent)

namespace RowsSync

/-- The server on the database. -/
def server (d : RowsSync) : RowsServer := ⟨d.past, d.routes, d.sync.dns⟩

/-- All contents of `RouteData`, the present one at the end. -/
def contents (d : RowsSync) : List (List RouteDataRow) := d.server.contents

/-- One step. -/
def step (cfg : LoadBalanceConfig) (fd : Int) (d : RowsSync) : RowsSyncEvent → Option RowsSync
  | .edit routes => some { d with past := d.contents, routes := routes }
  | .updater fate a =>
      (d.sync.step cfg fd (.dns (.updater (d.server.answers fate a)))).map fun sync ↦
        { d with sync := sync }
  | .sync e =>
      if e.isUpdater then none else (d.sync.step cfg fd e).map fun sync ↦ { d with sync := sync }

end RowsSync

/-- The runs of the agent and the server on a database that anyone edits. -/
def rowsSync (cfg : LoadBalanceConfig) (fd : Int) : LTS RowsSync RowsSyncEvent where
  init d := d.sync.Initial fd ∧ rowsServer.Reachable d.server
  step d e t := d.step cfg fd e = some t

/-- What a client is given for a module are hosts of one content of `RouteData`, and all of them
if it asks for all. -/
def GivenFrom (rows : List RouteDataRow) (modid cmdid : UInt32) (a : RouteOp) (b : RouteResult) :
    Prop :=
  (∀ host ∈ givenHosts b, ∃ row ∈ rowsOf modid cmdid rows, row.value = hostKey host.ip host.port) ∧
    ∀ now, a = .getRoute modid cmdid now →
      ∀ row ∈ rowsOf modid cmdid rows, ∃ host ∈ givenHosts b,
        hostKey host.ip host.port = row.value

variable {cfg : LoadBalanceConfig} {fd : Int} {d t : RowsSync} {ns : List ℕ}

/-! ## The parts of the whole -/

/-- A step is one of the agent and the server, or none. -/
theorem rowsSync_sync {e : RowsSyncEvent} (hst : d.step cfg fd e = some t) :
    t.sync = d.sync ∨ ∃ e', d.sync.step cfg fd e' = some t.sync := by
  cases e with
  | edit routes =>
      obtain rfl := Option.some.inj hst
      exact .inl rfl
  | updater fate a =>
      simp only [RowsSync.step] at hst
      obtain ⟨sync, hsync, rfl⟩ := Option.map_eq_some_iff.mp hst
      exact .inr ⟨_, hsync⟩
  | sync e =>
      simp only [RowsSync.step, Option.ite_none_left_eq_some] at hst
      obtain ⟨sync, hsync, rfl⟩ := Option.map_eq_some_iff.mp hst.2
      exact .inr ⟨e, hsync⟩

/-- A step is one of the server on the database, or none. -/
theorem rowsSync_server {e : RowsSyncEvent} (hst : d.step cfg fd e = some t) :
    t.server = d.server ∨ ∃ e', d.server.step e' = some t.server := by
  cases e with
  | edit routes =>
      obtain rfl := Option.some.inj hst
      exact .inr ⟨.edit routes, rfl⟩
  | updater fate a =>
      simp only [RowsSync.step] at hst
      obtain ⟨sync, hsync, rfl⟩ := Option.map_eq_some_iff.mp hst
      simp only [RouteSync.step, Option.ite_none_right_eq_some, Option.map_eq_some_iff] at hsync
      obtain ⟨-, dns, hdns, rfl⟩ := hsync
      obtain rfl := Option.some.inj hdns
      exact .inr ⟨.updater fate a, rfl⟩
  | sync e =>
      simp only [RowsSync.step, Option.ite_none_left_eq_some] at hst
      obtain ⟨he, hst⟩ := hst
      obtain ⟨sync, hsync, rfl⟩ := Option.map_eq_some_iff.mp hst
      rcases dns_step_other he hsync with hdns | ⟨e', he', hdns⟩
      · exact .inl (by simp only [RowsSync.server, hdns])
      · refine .inr ⟨.other e', ?_⟩
        simp only [RowsServer.step, he', RowsSync.server, hdns]
        rfl

/-- The agent and the server are in a state that they can reach. -/
theorem rowsSync_reachable (h : (rowsSync cfg fd).Reachable d) :
    (routeSync cfg fd).Reachable d.sync := by
  induction h with
  | init hi => exact .init hi.1
  | step _ hst ih =>
      rcases rowsSync_sync hst with he | ⟨e', hsync⟩
      · rwa [he]
      · exact ih.step hsync

/-- In every run the server on the database is in a state that it can reach. -/
theorem rowsServer_reachable (h : (rowsSync cfg fd).Reachable d) :
    rowsServer.Reachable d.server := by
  induction h with
  | init hi => exact hi.2
  | step _ hst ih =>
      rcases rowsSync_server hst with he | ⟨e', hserver⟩
      · rwa [he]
      · exact ih.step hserver

/-! ## What a client gets -/

/-- What a client gets is from the content with the number of the table. -/
theorem given_of_dated (h : (rowsSync cfg fd).Reachable d) (hd : d.server.Dated ns) {a : RouteOp}
    {b : RouteResult} {routes : Fin 3 → RouteLb}
    (hst : (agentStore cfg).step a d.sync.agents.agentRoutes = .ok (b, routes))
    {modid cmdid : UInt32} (ha : a.key = modKey modid cmdid) (hne : givenHosts b ≠ []) :
    ∃ r n rows, lastOf (modKey modid cmdid) (handled fd d.sync) = some r ∧ ns[r.gen]? = some n ∧
      d.contents[n]? = some rows ∧ GivenFrom rows modid cmdid a b := by
  have hreach := rowsSync_reachable h
  obtain ⟨v, hact, -⟩ := (agentStore_local cfg).act_eq hst
  obtain ⟨hgives, hall⟩ := Entry.act_gives ((inv_of_reachable hreach).sound a.key) hact
  obtain ⟨host, hhost⟩ := List.exists_mem_of_ne_nil _ hne
  obtain ⟨lb, hlb, hk⟩ := hgives host hhost
  obtain ⟨r, tab, hr, htab, hkeys⟩ := table_of_entry hreach (ha ▸ hlb) hk
  obtain ⟨n, hn, hloaded⟩ := hd.loadedFrom htab
  obtain ⟨rows, hrows, hvalues⟩ := hloaded.hosts ((hkeys _).mp hk)
  refine ⟨r, n, rows, hr, hn, hrows, fun host hhost ↦ ?_, fun now hop row hrow ↦ ?_⟩
  · obtain ⟨lb', hlb', hk'⟩ := hgives host hhost
    obtain rfl := Option.some.inj (hlb'.symm.trans hlb)
    exact (hvalues _).mp ((hkeys _).mp hk')
  · exact hall lb hlb _ _ now hop _ ((hkeys _).mpr ((hvalues _).mpr ⟨row, hrow, rfl⟩))

/-- **What a client gets is a content of `RouteData`, and no later answer is from an earlier
one.**  Let anyone edit the routes in any way, and let any statement of the update thread fail.
When a client of the agent gets hosts for a module, and then, in a run of any length, gets
hosts for it again, the hosts of each answer are rows that `RouteData` has had for the module at
one time, all of them if the client has asked for all, and the second time is not before the
first. -/
theorem rows_never_go_back {es : List RowsSyncEvent} (h : (rowsSync cfg fd).Reachable d)
    (hr : (rowsSync cfg fd).Run d es t) {modid cmdid : UInt32} {a₁ a₂ : RouteOp}
    {b₁ b₂ : RouteResult} {routes₁ routes₂ : Fin 3 → RouteLb}
    (h₁ : (agentStore cfg).step a₁ d.sync.agents.agentRoutes = .ok (b₁, routes₁))
    (h₂ : (agentStore cfg).step a₂ t.sync.agents.agentRoutes = .ok (b₂, routes₂))
    (ha₁ : a₁.key = modKey modid cmdid) (ha₂ : a₂.key = modKey modid cmdid)
    (hne₁ : givenHosts b₁ ≠ []) (hne₂ : givenHosts b₂ ≠ []) :
    d.contents <+: t.contents ∧ ∃ (m n : ℕ) (rows₁ rows₂ : List RouteDataRow), m ≤ n ∧
      d.contents[m]? = some rows₁ ∧ GivenFrom rows₁ modid cmdid a₁ b₁ ∧
      t.contents[n]? = some rows₂ ∧ GivenFrom rows₂ modid cmdid a₂ b₂ := by
  obtain ⟨ns, hd⟩ := dated_of_reachable (rowsServer_reachable h)
  obtain ⟨es', hserver⟩ := hr.map (N := rowsServer) (f := RowsSync.server)
    fun _ _ _ hst ↦ rowsSync_server hst
  obtain ⟨es'', hsync⟩ := hr.map (N := routeSync cfg fd) (f := RowsSync.sync)
    fun _ _ _ hst ↦ rowsSync_sync hst
  obtain ⟨ns', hle, ht⟩ := hd.run hserver
  obtain ⟨r, m, rows₁, hr₁, hm, hrows₁, hgiven₁⟩ := given_of_dated h hd h₁ ha₁ hne₁
  obtain ⟨r', n, rows₂, hr₂, hn, hrows₂, hgiven₂⟩ := given_of_dated (h.run hr) ht h₂ ha₂ hne₂
  refine ⟨RowsServer.contents_of_run hserver, m, n, rows₁, rows₂, ?_, hrows₁, hgiven₁, hrows₂,
    hgiven₂⟩
  obtain ⟨r'', hr'', hgen⟩ := lastOf_le_of_run (rowsSync_reachable h) hsync hr₁
  obtain rfl := Option.some.inj (hr₂.symm.trans hr'')
  have hm' : ns'[r.gen]? = some m := by
    obtain ⟨rest, rfl⟩ := hle
    rw [List.getElem?_append_left (List.getElem?_eq_some_iff.mp hm).1]
    exact hm
  exact ht.le hgen hm' hn

/-- The state after a step, if it can be taken. -/
def RowsSync.next (cfg : LoadBalanceConfig) (fd : Int) (d : RowsSync) (e : RowsSyncEvent) :
    RowsSync := (d.step cfg fd e).getD d

theorem RowsSync.next_step (d : RowsSync) (e : RowsSyncEvent)
    (h : (d.step cfg fd e).isSome = true) : (rowsSync cfg fd).step d e (d.next cfg fd e) := by
  obtain ⟨t, ht⟩ := Option.isSome_iff_exists.mp h
  show d.step cfg fd e = some ((d.step cfg fd e).getD d)
  rw [ht]
  rfl

/-- The agent has just been connected. -/
def joinedRows : RowsSync := ⟨[], [⟨1, 1, 3232235953, 7777⟩], joined⟩

/-- The agent pulls the host of the module. -/
def pulledRows : RowsSync :=
  (onePull.map RowsSyncEvent.sync).foldl (RowsSync.next .default 5) joinedRows

/-- The module gets another host, which the server loads and pushes. -/
def oneMove : List RowsSyncEvent :=
  .edit [⟨1, 1, 3232235954, 7778⟩] :: List.replicate 7 (.updater .ok newVersion) ++
    [.sync (.dns (.deal 0)), .sync (.dns (.task 0)), .sync (.dns (.proceed 0)),
      .sync (.dns (.proceed 0)), .sync (.dns (.proceed 0)), .sync (.agent (.dnsResCb fun _ ↦ 100))]

/-- The agent and the server after the move. -/
def movedRows : RowsSync := oneMove.foldl (RowsSync.next .default 5) pulledRows

theorem pulledRows_reachable : (rowsSync .default 5).Reachable pulledRows := by
  have hstart : rowsServer.Reachable
      ⟨[], joinedRows.routes, DnsServer.start 1 (Router.new (.rows 5 joinedRows.routes))⟩ :=
    .init ⟨rfl, 1, .ok, rfl⟩
  have hjoined : rowsServer.Reachable joinedRows.server :=
    hstart.step (a := .other (.connect 0 5)) rfl
  refine LTS.Reachable.run (.init ⟨joined_initial, hjoined⟩) (LTS.Run.foldl RowsSync.next_step ?_)
  repeat' constructor

theorem movedRows_run : (rowsSync .default 5).Run pulledRows oneMove movedRows := by
  refine LTS.Run.foldl RowsSync.next_step ?_
  repeat' constructor

/-- A client that asks before the row is moved and after it gets hosts of an older content, then of
a newer one. -/
theorem rows_never_go_back_moved :
    ∃ b₁ b₂ routes₁ routes₂,
      (agentStore .default).step (.getRoute 1 1 101) pulledRows.sync.agents.agentRoutes =
        .ok (b₁, routes₁) ∧
      (agentStore .default).step (.getRoute 1 1 102) movedRows.sync.agents.agentRoutes =
        .ok (b₂, routes₂) ∧
      pulledRows.contents <+: movedRows.contents ∧
      ∃ (m n : ℕ) (rows₁ rows₂ : List RouteDataRow), m ≤ n ∧
        pulledRows.contents[m]? = some rows₁ ∧ GivenFrom rows₁ 1 1 (.getRoute 1 1 101) b₁ ∧
        movedRows.contents[n]? = some rows₂ ∧ GivenFrom rows₂ 1 1 (.getRoute 1 1 102) b₂ := by
  have hmoved := pulledRows_reachable.run movedRows_run
  obtain ⟨b₁, routes₁, h₁, -⟩ :=
    agentStore_step (inv_of_reachable (rowsSync_reachable pulledRows_reachable)).sound
      (.getRoute 1 1 101)
  obtain ⟨b₂, routes₂, h₂, -⟩ :=
    agentStore_step (inv_of_reachable (rowsSync_reachable hmoved)).sound (.getRoute 1 1 102)
  have hgiven₁ : ((agentStore .default).step (.getRoute 1 1 101)
      pulledRows.sync.agents.agentRoutes).toOption.map (fun p ↦ givenHosts p.1) =
        some [⟨3232235953, 7777⟩] := by decide
  have hgiven₂ : ((agentStore .default).step (.getRoute 1 1 102)
      movedRows.sync.agents.agentRoutes).toOption.map (fun p ↦ givenHosts p.1) =
        some [⟨3232235954, 7778⟩] := by decide
  rw [h₁] at hgiven₁
  rw [h₂] at hgiven₂
  exact ⟨b₁, b₂, routes₁, routes₂, h₁, h₂,
    rows_never_go_back pulledRows_reachable movedRows_run h₁ h₂ rfl rfl
      (ne_of_eq_of_ne (Option.some.inj hgiven₁) (List.cons_ne_nil _ _))
      (ne_of_eq_of_ne (Option.some.inj hgiven₂) (List.cons_ne_nil _ _))⟩

end Ylars.System
