import Ylars.Dns.DbServer

/-!
# Where the tables come from

The clients of the database may edit `RouteData` at any time and in any way, and any statement
of the update thread may fail.  `RowsServer` is the server together with everything that
`RouteData` has had.  Each table that the server has served was loaded from one of these
contents, or the load has failed and it is empty; and later tables are from later contents
(`Dated`).
-/

namespace Ylars.Dns

open Ylars.Lib

/-- The server, and the contents of `RouteData`. -/
structure RowsServer where
  /-- What `RouteData` has had before, the oldest first. -/
  past : List (List RouteDataRow)
  routes : List RouteDataRow
  server : DnsServer

/-- What happens next. -/
inductive RowsEvent where
  /-- A statement of another client on `RouteData`, which then has the given rows. -/
  | edit (routes : List RouteDataRow)
  /-- The update thread goes on.  The query of `build_map` meets with the given fate, and the
  others give what they like. -/
  | updater (fate : Fate) (a : Answers)
  /-- Something else happens in the server. -/
  | other (e : Event)

namespace RowsServer

/-- All contents of `RouteData`, the present one at the end. -/
def contents (d : RowsServer) : List (List RouteDataRow) := d.past ++ [d.routes]

/-- What the queries of the update thread give. -/
def answers (fate : Fate) (a : Answers) (d : RowsServer) : Answers :=
  { a with data := Fate.answer 5 d.routes fate }

/-- One step. -/
def step (d : RowsServer) : RowsEvent → Option RowsServer
  | .edit routes => some { d with past := d.contents, routes := routes }
  | .updater fate a => some { d with server := d.server.updater (d.answers fate a) }
  | .other e =>
      if e.isUpdater then none
      else (d.server.step e).map fun server ↦ { d with server := server }

end RowsServer

/-- The runs of the server on a database that anyone edits. -/
def rowsServer : LTS RowsServer RowsEvent where
  init d := d.past = [] ∧ ∃ threadNum fate,
    d.server = DnsServer.start threadNum (Router.new (Fate.answer 5 d.routes fate))
  step d e t := d.step e = some t

/-- A table was loaded from one of the contents, or it is empty. -/
def LoadedFrom (contents : List (List RouteDataRow)) (tab : RouterMap) (n : ℕ) : Prop :=
  ∃ rows, contents[n]? = some rows ∧ (tab = ∅ ∨ tab = Router.tableOf rows)

/-- The tables are of the contents with these numbers, and later ones are of later contents.
A table that is about to be swapped in is not older than they are. -/
structure RowsServer.Dated (d : RowsServer) (ns : List ℕ) : Prop where
  tables : List.Forall₂ (LoadedFrom d.contents) d.server.tables ns
  sorted : ns.Pairwise (· ≤ ·)
  bound : ∀ n ∈ ns, n ≤ d.past.length
  temp : ∀ b, d.server.publisher.phase = .swap b →
    ∃ m, LoadedFrom d.contents d.server.publisher.router.temp m ∧ ∀ n ∈ ns, n ≤ m

variable {d t : RowsServer} {ns : List ℕ} {contents : List (List RouteDataRow)} {tab : RouterMap}
  {n : ℕ}

/-! ## The rows of a module -/

/-- The hosts of a module in a table are those of the rows with its ids. -/
theorem mem_hosts_tableOf {rows : List RouteDataRow} {modid cmdid : UInt32} {k : UInt64} :
    k ∈ Hosts.of (Router.tableOf rows) modid cmdid ↔
      ∃ row ∈ rows, row.modid = modid ∧ row.cmdid = cmdid ∧ row.value = k := by
  refine Router.mem_lookup_tableOf.trans (exists_congr fun row ↦ and_congr_right fun _ ↦ ?_)
  constructor
  · rintro ⟨hkey, hvalue⟩
    obtain ⟨rfl, rfl⟩ := Router.routeKey_inj hkey
    exact ⟨rfl, rfl, hvalue⟩
  · rintro ⟨rfl, rfl, hvalue⟩
    exact ⟨rfl, hvalue⟩

/-- The rows of a module. -/
def rowsOf (modid cmdid : UInt32) (routes : List RouteDataRow) : List RouteDataRow :=
  routes.filter fun row ↦ row.modid = modid ∧ row.cmdid = cmdid

theorem mem_rowsOf {routes : List RouteDataRow} {row : RouteDataRow}
    {modid cmdid : UInt32} :
    row ∈ rowsOf modid cmdid routes ↔ row ∈ routes ∧ row.modid = modid ∧ row.cmdid = cmdid := by
  rw [rowsOf, List.mem_filter, decide_eq_true_eq]

/-! ## Loads -/

theorem LoadedFrom.le (h : LoadedFrom d.contents tab n) : n ≤ d.past.length := by
  obtain ⟨rows, hrows, -⟩ := h
  obtain ⟨hlt, -⟩ := List.getElem?_eq_some_iff.mp hrows
  rw [RowsServer.contents, List.length_append] at hlt
  exact Nat.lt_succ_iff.mp hlt

theorem LoadedFrom.append (h : LoadedFrom contents tab n) (rows : List RouteDataRow) :
    LoadedFrom (contents ++ [rows]) tab n := by
  obtain ⟨rows', hrows, htab⟩ := h
  exact ⟨rows', by rwa [List.getElem?_append_left (List.getElem?_eq_some_iff.mp hrows).1], htab⟩

/-- `build_map` leaves a table of the present content, or an empty one. -/
theorem loadedFrom_builtMap (d : RowsServer) (fate : Fate) :
    LoadedFrom d.contents (Router.builtMap (Fate.answer 5 d.routes fate)) d.past.length := by
  refine ⟨d.routes, List.getElem?_concat_length, ?_⟩
  cases fate with
  | ok => exact .inr rfl
  | error | noResult => exact .inl rfl

/-- A table that has a host for the module is that of its content. -/
theorem LoadedFrom.hosts {contents : List (List RouteDataRow)} {tab : RouterMap} {n : ℕ}
    {modid cmdid : UInt32} {k : UInt64} (h : LoadedFrom contents tab n)
    (hk : k ∈ Hosts.of tab modid cmdid) :
    ∃ rows, contents[n]? = some rows ∧
      ∀ k, k ∈ Hosts.of tab modid cmdid ↔ ∃ row ∈ rowsOf modid cmdid rows, row.value = k := by
  obtain ⟨rows, hrows, rfl | rfl⟩ := h
  · exact absurd hk MultiMap.notMem_lookup_empty
  · refine ⟨rows, hrows, fun k ↦ mem_hosts_tableOf.trans (exists_congr fun row ↦ ?_)⟩
    rw [mem_rowsOf, and_assoc, and_assoc]

/-- A table is swapped in only after a load. -/
theorem Publisher.step_ne_swap {a : Answers} {p : Publisher}
    (h : ∀ b, p.phase ≠ .loadRouteData b) (b : Bool) : (p.step a).phase ≠ .swap b := by
  obtain ⟨r, phase⟩ := p
  cases phase with
  | checkVersion =>
      rw [Publisher.step_checkVersion]
      split
      · exact Phase.noConfusion
      · split
        · split
          · exact Phase.noConfusion
          · exact Phase.noConfusion
        · exact Phase.noConfusion
  | loadRouteData b' => exact absurd rfl (h b')
  | swap b' => cases b' <;> exact Phase.noConfusion
  | loadChangeMod | publish | dropSynchronousMod | ended => exact Phase.noConfusion

/-! ## Every step -/

namespace RowsServer.Dated

/-- A client edits `RouteData`. -/
theorem edit (h : d.Dated ns) (routes : List RouteDataRow) :
    Dated { d with past := d.contents, routes := routes } ns := by
  refine ⟨h.tables.imp fun _ _ htab ↦ htab.append routes, h.sorted, fun n hn ↦ ?_, fun b hb ↦ ?_⟩
  · simp only [contents, List.length_append]
    exact (h.bound n hn).trans (Nat.le_add_right _ _)
  · obtain ⟨m, hm, hle⟩ := h.temp b hb
    exact ⟨m, hm.append routes, hle⟩

theorem of_tables (h : d.Dated ns) {server : DnsServer} (htables : server.tables = d.server.tables)
    (hphase : ∀ b, server.publisher.phase ≠ .swap b) : Dated { d with server := server } ns :=
  ⟨htables ▸ h.tables, h.sorted, h.bound, fun b hb ↦ absurd hb (hphase b)⟩

/-- The update thread goes on. -/
theorem updater (h : d.Dated ns) (fate : Fate) (a : Answers) :
    ∃ ns', ns <+: ns' ∧ Dated { d with server := d.server.updater (d.answers fate a) } ns' := by
  cases hp : d.server.publisher.phase with
  | loadRouteData publishes =>
      refine ⟨ns, List.prefix_rfl, ?_, h.sorted, h.bound, fun b _ ↦ ?_⟩
      · simp only [DnsServer.updater, hp, DnsServer.tables, Publisher.step]
        exact h.tables
      · refine ⟨d.past.length, ?_, h.bound⟩
        simp only [DnsServer.updater, hp, Publisher.step]
        exact loadedFrom_builtMap d fate
  | swap publishes =>
      obtain ⟨m, hm, hle⟩ := h.temp publishes hp
      refine ⟨ns ++ [m], List.prefix_append _ _, ?_, ?_, ?_, ?_⟩
      · simp only [DnsServer.updater, hp, DnsServer.tables, Publisher.step]
        exact List.rel_append h.tables (.cons hm .nil)
      · refine List.pairwise_append.mpr
          ⟨h.sorted, List.pairwise_singleton _ _, fun n hn n' hn' ↦ ?_⟩
        rw [List.mem_singleton.mp hn']
        exact hle n hn
      · refine fun n hn ↦ (List.mem_append.mp hn).elim (h.bound n) fun hn ↦ ?_
        rw [List.mem_singleton.mp hn]
        exact hm.le
      · intro b hb
        simp only [DnsServer.updater, hp] at hb
        exact absurd hb (Publisher.step_ne_swap (by simp [hp]) b)
  | publish mods =>
      refine ⟨ns, List.prefix_rfl, ?_⟩
      cases hs : d.server.sending with
      | none =>
          simp only [DnsServer.updater, hp, hs]
          exact h.of_tables rfl (by simp [hp])
      | some k =>
          simp only [DnsServer.updater, hp, hs]
          split
          · exact h.of_tables rfl (by simp [DnsServer.setWorker, hp])
          · exact h.of_tables (by simp only [DnsServer.tables, Publisher.step, hp])
              (Publisher.step_ne_swap (by simp [hp]))
  | checkVersion | loadChangeMod | dropSynchronousMod | ended =>
      refine ⟨ns, List.prefix_rfl, h.of_tables ?_ fun b ↦ ?_⟩
      · simp only [DnsServer.updater, hp, DnsServer.tables]
        rw [Publisher.step_data (by simp [hp])]
      · simp only [DnsServer.updater, hp]
        exact Publisher.step_ne_swap (by simp [hp]) b

/-- Every step keeps the numbers, and may add one. -/
theorem step {e : RowsEvent} (h : d.Dated ns) (hst : d.step e = some t) :
    ∃ ns', ns <+: ns' ∧ t.Dated ns' := by
  cases e with
  | edit routes =>
      obtain rfl := Option.some.inj hst
      exact ⟨ns, List.prefix_rfl, h.edit routes⟩
  | updater fate a =>
      obtain rfl := Option.some.inj hst
      exact h.updater fate a
  | other e =>
      simp only [RowsServer.step, Option.ite_none_left_eq_some] at hst
      obtain ⟨he, hst⟩ := hst
      obtain ⟨server, hserver, rfl⟩ := Option.map_eq_some_iff.mp hst
      obtain ⟨hpub, -, hpast, -⟩ :=
        DnsServer.sameThread_step hserver fun a ha ↦ he (by rw [ha]; rfl)
      have htables : server.tables = d.server.tables := by
        rw [DnsServer.tables, hpast, hpub]
        rfl
      refine ⟨ns, List.prefix_rfl, htables ▸ h.tables, h.sorted, h.bound, fun b hb ↦ ?_⟩
      simp only [hpub] at hb ⊢
      exact h.temp b hb

end RowsServer.Dated

/-- In every run of the server the tables are of contents of `RouteData`. -/
theorem dated_of_reachable (h : rowsServer.Reachable d) : ∃ ns, d.Dated ns := by
  refine h.induction (I := fun d ↦ ∃ ns, d.Dated ns) ?_ ?_
  · rintro ⟨past, routes, server⟩ ⟨rfl, threadNum, fate, hserver⟩
    simp only at hserver
    subst hserver
    refine ⟨[0], .cons (loadedFrom_builtMap ⟨[], routes, _⟩ fate) .nil,
      List.pairwise_singleton _ _, fun n hn ↦ (List.mem_singleton.mp hn).le, fun b hb ↦ ?_⟩
    cases hb
  · rintro d e t - ⟨ns, h⟩ hst
    obtain ⟨ns', -, h'⟩ := h.step hst
    exact ⟨ns', h'⟩

/-- The numbers of a state stay along a run. -/
theorem RowsServer.Dated.run {es : List RowsEvent} (h : d.Dated ns) (hr : rowsServer.Run d es t) :
    ∃ ns', ns <+: ns' ∧ t.Dated ns' := by
  induction hr generalizing ns with
  | nil d => exact ⟨ns, List.prefix_rfl, h⟩
  | cons hst _ ih =>
      obtain ⟨ns₁, hle₁, h₁⟩ := h.step hst
      obtain ⟨ns₂, hle₂, h₂⟩ := ih h₁
      exact ⟨ns₂, hle₁.trans hle₂, h₂⟩

/-- Nothing that `RouteData` has had is forgotten. -/
theorem RowsServer.contents_of_run {es : List RowsEvent} (hr : rowsServer.Run d es t) :
    d.contents <+: t.contents := by
  induction hr with
  | nil d => exact List.prefix_rfl
  | @cons d t u e es hst _ ih =>
      refine List.IsPrefix.trans ?_ ih
      cases e with
      | edit routes =>
          obtain rfl := Option.some.inj hst
          exact List.prefix_append _ _
      | updater fate a =>
          obtain rfl := Option.some.inj hst
          exact List.prefix_rfl
      | other e =>
          obtain ⟨-, hst⟩ := Option.ite_none_left_eq_some.mp hst
          obtain ⟨server, -, rfl⟩ := Option.map_eq_some_iff.mp hst
          exact List.prefix_rfl

/-- A later table is of the same content or a later one. -/
theorem RowsServer.Dated.le {g g' m : ℕ} (h : d.Dated ns) (hle : g ≤ g') (hm : ns[g]? = some m)
    (hn : ns[g']? = some n) : m ≤ n := by
  obtain ⟨hg, rfl⟩ := List.getElem?_eq_some_iff.mp hm
  obtain ⟨hg', rfl⟩ := List.getElem?_eq_some_iff.mp hn
  rcases hle.eq_or_lt with rfl | hlt
  · exact le_rfl
  · exact List.pairwise_iff_getElem.mp h.sorted g g' hg hg' hlt

theorem RowsServer.Dated.loadedFrom {g : ℕ} (h : d.Dated ns)
    (htab : d.server.tables[g]? = some tab) :
    ∃ n, ns[g]? = some n ∧ LoadedFrom d.contents tab n := by
  obtain ⟨hg, rfl⟩ := List.getElem?_eq_some_iff.mp htab
  have hg' : g < ns.length := h.tables.length_eq ▸ hg
  exact ⟨ns[g], List.getElem?_eq_getElem hg', h.tables.get hg hg'⟩

end Ylars.Dns
