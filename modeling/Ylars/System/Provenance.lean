import Mathlib.Data.List.Induction
import Ylars.Api.HostIdentity
import Ylars.System.RouteSync

/-!
# Where the hosts come from

Whatever the database, the update thread and the other connections do, a client of the agent
gets hosts that the server has served for the module, all of them from one table
(`hosts_from_table`).  The tables are numbered in the order in which they were installed, and
what a client gets for a module later is not from an earlier table (`never_goes_back`).

The responses on the connection of the agent are ordered by the tables they were read from,
since one worker reads the table and buffers the response.  The agent handles them in this
order, and each replaces the hosts of its module.
-/

namespace Ylars.System

open Std (ExtTreeMap ExtTreeSet)
open Ylars.Lib Ylars.Proto Ylars.Agent Ylars.Dns

/-! ## What a client gets -/

/-- The hosts that an operation gives to the client. -/
def givenHosts : RouteResult → List Proto.HostInfo
  | .host _ res _ => res.host.toList
  | .route _ res _ => res.host
  | .status _ => []
  | .updated => []

variable {cfg : LoadBalanceConfig} {fd : Int} {k : UInt64} {lb lb' : LoadBalance}

theorem mem_hostMap_of_known (h : lb.Sound k) {p : HostPtr} (hp : lb.Known p) :
    hostKey (lb.endpoint p).ip (lb.endpoint p).port ∈ lb.hostMap := by
  obtain ⟨k', hk'⟩ := hp
  rw [show hostKey (lb.endpoint p).ip (lb.endpoint p).port = k' from h.wf.key k' p hk']
  exact ExtTreeMap.mem_iff_isSome_getElem?.mpr (by rw [hk']; rfl)

/-- The hosts of `get_route` are those of the entry. -/
theorem mem_hosts_iff (h : lb.Sound k) {k' : UInt64} :
    (∃ host ∈ (Entry.hosts lb).2, hostKey host.ip host.port = k') ↔ k' ∈ lb.hostMap := by
  have hall : (Entry.hosts lb).2 = lb.routeHosts := by
    unfold Entry.hosts LoadBalance.getAllHost LoadBalance.routeHosts LoadBalance.empty
    by_cases hempty : lb.hostMap.isEmpty = true
    · have hnil : lb.hostMap.toList = [] := by
        rw [← List.isEmpty_iff, ExtTreeMap.isEmpty_toList]
        exact hempty
      simp [hempty, hnil]
    · simp [hempty, LoadBalance.endpoint]
  rw [hall]
  constructor
  · rintro ⟨host, hhost, rfl⟩
    obtain ⟨⟨k₀, p⟩, hp, rfl⟩ := List.mem_map.mp hhost
    exact mem_hostMap_of_known h ⟨k₀, ExtTreeMap.mem_toList_iff_getElem?_eq_some.mp hp⟩
  · intro hk
    obtain ⟨p, hp⟩ := Option.isSome_iff_exists.mp (ExtTreeMap.mem_iff_isSome_getElem?.mp hk)
    exact ⟨lb.endpoint p,
      List.mem_map.mpr ⟨(k', p), ExtTreeMap.mem_toList_iff_getElem?_eq_some.mpr hp, rfl⟩,
      h.wf.key k' p hp⟩

/-- A client gets hosts of the entry, and all of them if it asks for all. -/
theorem Entry.act_gives {a : RouteOp} {b : RouteResult} {v v' : Option LoadBalance}
    (h : Entry.Sound a.key v) (hact : Entry.act cfg a v = .ok (b, v')) :
    (∀ host ∈ givenHosts b, ∃ lb ∈ v, hostKey host.ip host.port ∈ lb.hostMap) ∧
      ∀ lb ∈ v, ∀ modid cmdid now, a = .getRoute modid cmdid now →
        ∀ k ∈ lb.hostMap, ∃ host ∈ givenHosts b, hostKey host.ip host.port = k := by
  cases a with
  | getHost seq modid cmdid now =>
      refine ⟨?_, fun _ _ _ _ _ ha ↦ by cases ha⟩
      cases v with
      | none =>
          obtain ⟨rfl, -⟩ := Prod.mk.inj (Except.ok.inj hact)
          exact fun _ hhost ↦ absurd hhost List.not_mem_nil
      | some lb =>
          simp only [Entry.act, Outcome.bind_eq_ok] at hact
          obtain ⟨⟨ret, res, lb₁⟩, hc, ⟨pulls, lb₂⟩, -, hb⟩ := hact
          obtain ⟨rfl, -⟩ := Prod.mk.inj (Except.ok.inj hb)
          have hsound := h lb rfl
          intro host hhost
          refine ⟨lb, rfl, ?_⟩
          unfold LoadBalance.choiceIfAny at hc
          split at hc
          · obtain ⟨-, hres⟩ := Prod.mk.inj (Except.ok.inj hc)
            obtain ⟨rfl, -⟩ := Prod.mk.inj hres
            exact absurd hhost List.not_mem_nil
          · rcases hsound.wf.choiceOneHost_answer hc with rfl | ⟨-, p, hp, rfl⟩
            · exact absurd hhost List.not_mem_nil
            · obtain rfl := List.mem_singleton.mp hhost
              exact mem_hostMap_of_known hsound hp
  | getRoute modid cmdid now =>
      cases v with
      | none =>
          obtain ⟨rfl, -⟩ := Prod.mk.inj (Except.ok.inj hact)
          exact ⟨fun _ hhost ↦ absurd hhost List.not_mem_nil, fun _ hlb ↦ by cases hlb⟩
      | some lb =>
          simp only [Entry.act, Outcome.bind_eq_ok] at hact
          obtain ⟨⟨pulls, lb₁⟩, -, hb⟩ := hact
          obtain ⟨rfl, -⟩ := Prod.mk.inj (Except.ok.inj hb)
          refine ⟨fun host hhost ↦ ⟨lb, rfl, (mem_hosts_iff (h lb rfl)).mp ⟨host, hhost, rfl⟩⟩,
            fun lb' hlb' _ _ _ _ k hk ↦ ?_⟩
          obtain rfl := Option.some.inj hlb'
          exact (mem_hosts_iff (h lb rfl)).mpr hk
  | reportHost req clock =>
      refine ⟨?_, fun _ _ _ _ _ ha ↦ by cases ha⟩
      cases v with
      | none =>
          obtain ⟨rfl, -⟩ := Prod.mk.inj (Except.ok.inj hact)
          exact fun _ hhost ↦ absurd hhost List.not_mem_nil
      | some lb =>
          simp only [Entry.act, Outcome.bind_eq_ok] at hact
          obtain ⟨lb₁, -, hb⟩ := hact
          obtain ⟨rfl, -⟩ := Prod.mk.inj (Except.ok.inj hb)
          exact fun _ hhost ↦ absurd hhost List.not_mem_nil
  | updateHost res clock =>
      refine ⟨fun host hhost ↦ ?_, fun _ _ _ _ _ ha ↦ by cases ha⟩
      rw [Entry.updated_of_act hact] at hhost
      exact absurd hhost List.not_mem_nil

/-! ## The responses that have been handled -/

/-- The responses on the connection that the agent has handled: all but those that are on
their way. -/
def handled (fd : Int) (s : RouteSync) : List Answer :=
  (answersOf fd s.dns).take ((answersOf fd s.dns).length - s.agents.responses.length)

/-- The last response for a module. -/
def lastOf (m : UInt64) (answers : List Answer) : Option Answer :=
  (answers.filter fun a ↦ a.mod = m).getLast?

/-- The number of the table that the agent has the hosts of a module from. -/
def tableNo (fd : Int) (s : RouteSync) (m : UInt64) : Option ℕ :=
  (lastOf m (handled fd s)).map Answer.gen

/-- Responses are ordered by the tables they were read from. -/
def InOrder (answers : List Answer) : Prop := answers.Pairwise fun a b ↦ a.gen ≤ b.gen

theorem lastOf_concat (m : UInt64) (answers : List Answer) (a : Answer) :
    lastOf m (answers ++ [a]) = if a.mod = m then some a else lastOf m answers := by
  by_cases h : a.mod = m
  · simp [lastOf, List.filter_append, h]
  · simp [lastOf, List.filter_append, h]

/-- A later response is from the same table or a later one. -/
theorem lastOf_le_of_prefix {l l' : List Answer} (h : InOrder l') (hp : l <+: l') {m : UInt64}
    {a : Answer} (ha : lastOf m l = some a) : ∃ a', lastOf m l' = some a' ∧ a.gen ≤ a'.gen := by
  obtain ⟨rest, rfl⟩ := hp
  induction rest using List.reverseRecOn with
  | nil => exact ⟨a, by rwa [List.append_nil], le_rfl⟩
  | append_singleton rest b ih =>
      rw [← List.append_assoc] at h ⊢
      rw [lastOf_concat]
      split
      · refine ⟨b, rfl, (List.pairwise_append.mp h).2.2 a ?_ b (List.mem_singleton.mpr rfl)⟩
        exact List.mem_append_left _ (List.mem_filter.mp (List.mem_of_getLast? ha)).1
      · exact ih (List.pairwise_append.mp h).1

/-- The responses that have been handled are the front part of what has been buffered. -/
theorem handled_eq {s : RouteSync} {c : Conn} {old new : List Answer}
    (hc : s.dns.conns[fd]? = some c) (h : c.answers = old ++ new)
    (hlen : new.length = s.agents.responses.length) : handled fd s = old := by
  have hanswers : answersOf fd s.dns = old ++ new := by
    rw [answersOf, hc, Option.map_some, Option.getD_some, h]
  rw [handled, hanswers, List.length_append, hlen, Nat.add_sub_cancel, List.take_left]

/-- What has been buffered: the responses that have been handled, and those on their way. -/
theorem Synced.exists_split {s : RouteSync} {c : Conn} (h : Synced cfg fd s c) :
    ∃ new, c.answers = handled fd s ++ new ∧
      new.map Answer.res = s.agents.responses.map Response.message := by
  obtain ⟨pre, hpre⟩ := h.arrived
  obtain ⟨old, new, hanswers, -, hnew⟩ := List.map_eq_append_iff.mp hpre.symm
  have hlen : new.length = s.agents.responses.length := by
    simpa using congrArg List.length hnew
  exact ⟨new, by rw [handled_eq h.conn hanswers hlen, hanswers], hnew⟩

/-! ## Every step -/

/-- The entry of a module is empty, or it has the hosts of the last response that has been
handled for it. -/
def EntryFrom (fd : Int) (s : RouteSync) (m : UInt64) (lb : LoadBalance) : Prop :=
  lb.empty = true ∨ ∃ a, lastOf m (handled fd s) = some a ∧
    ∀ k, k ∈ lb.hostMap ↔ ∃ host ∈ a.res.host, hostKey host.ip host.port = k

/-- The agent has its hosts from the responses, which are in order. -/
structure Traced (cfg : LoadBalanceConfig) (fd : Int) (s : RouteSync) : Prop where
  inOrder : InOrder (answersOf fd s.dns)
  entries : ∀ m lb, (agentStore cfg).get s.agents.agentRoutes m = some lb → EntryFrom fd s m lb

variable {s t : RouteSync} {c : Conn}

theorem Traced.of_handled (h : Traced cfg fd s) (hin : InOrder (answersOf fd t.dns))
    (hhandled : handled fd t = handled fd s)
    (hroutes : t.agents.agentRoutes = s.agents.agentRoutes) :
    Traced cfg fd t ∧ handled fd s <+: handled fd t := by
  refine ⟨⟨hin, fun m lb hget ↦ ?_⟩, hhandled ▸ List.prefix_rfl⟩
  rw [EntryFrom, hhandled]
  exact h.entries m lb (by rwa [← hroutes])

theorem Traced.client {a : RouteOp} {b : RouteResult} {routes : Fin 3 → RouteLb}
    (h : Traced cfg fd s) (hsound : AgentsSound cfg s.agents.agentRoutes)
    (hst : (agentStore cfg).step a s.agents.agentRoutes = .ok (b, routes))
    (ha : ∀ res clock, a ≠ .updateHost res clock) (q : List GetRouteRequest) :
    Traced cfg fd { s with agents := { s.agents with agentRoutes := routes, dnsQueue := q } } := by
  refine ⟨h.inOrder, fun m lb hget ↦ ?_⟩
  change lb.empty = true ∨ ∃ a, lastOf m (handled fd s) = some a ∧ _
  obtain ⟨v, hact, hv⟩ := (agentStore_local cfg).act_eq hst
  change (agentStore cfg).get routes m = some lb at hget
  rw [hv, show (routeCell cfg).key a = a.key from rfl] at hget
  by_cases hm : m = a.key
  · subst hm
    rw [Function.update_self] at hget
    rcases Entry.act_keeps (hsound a.key) hact ha hget with hempty | ⟨lb₀, hlb₀, hmap⟩
    · exact .inl hempty
    · rw [LoadBalance.empty, hmap]
      exact h.entries a.key lb₀ hlb₀
  · rw [Function.update_of_ne hm] at hget
    exact h.entries m lb hget

theorem Traced.update {resp : Response} {rest : List Response} {clock : Clock} {b : RouteResult}
    {routes : Fin 3 → RouteLb} (h : Traced cfg fd s) (hsync : Synced cfg fd s c)
    (hsound : AgentsSound cfg s.agents.agentRoutes) (hs : s.agents.responses = resp :: rest)
    (hst : (agentStore cfg).step (.updateHost resp.message clock) s.agents.agentRoutes =
      .ok (b, routes))
    (ht : t = { s with agents := { s.agents with agentRoutes := routes, responses := rest } }) :
    Traced cfg fd t ∧ handled fd s <+: handled fd t := by
  subst ht
  obtain ⟨new, hanswers, hnew⟩ := hsync.exists_split
  rw [hs, List.map_cons] at hnew
  obtain ⟨a, new', rfl, ha, hnew'⟩ := List.map_eq_cons_iff.mp hnew
  have hhandled : handled fd { s with agents := { s.agents with
      agentRoutes := routes
      responses := rest } } = handled fd s ++ [a] := by
    refine handled_eq hsync.conn ?_ (by simpa using congrArg List.length hnew')
    rw [hanswers, List.append_assoc, List.singleton_append]
  refine ⟨⟨h.inOrder, fun m lb hget ↦ ?_⟩, by rw [hhandled]; exact List.prefix_append _ _⟩
  have hmod : a.mod = keyOf resp := by
    rw [Answer.mod, ha]
    rfl
  rw [EntryFrom, hhandled, lastOf_concat, hmod]
  obtain ⟨b', routes', hst', -, hother, hself⟩ :=
    agentStore_step hsound (.updateHost resp.message clock)
  obtain ⟨rfl, rfl⟩ := Prod.mk.inj (Except.ok.inj (hst'.symm.trans hst))
  by_cases hm : m = keyOf resp
  · subst hm
    obtain ⟨-, -, -, hmap⟩ := hself lb hget
    refine .inr ⟨a, if_pos rfl, ?_⟩
    rw [ha]
    exact hmap
  · rw [if_neg (Ne.symm hm)]
    exact h.entries m lb ((hother m hm).symm.trans hget)

/-- Every step keeps where the hosts come from, and the agent handles the responses in
order. -/
theorem Traced.step {e : SyncEvent} (hi : SyncInv cfg fd s) (h : Traced cfg fd s)
    (hst : s.step cfg fd e = some t) : Traced cfg fd t ∧ handled fd s <+: handled fd t := by
  obtain ⟨hsound, hreach, c, hsync⟩ := hi
  have hinv := DnsServer.inv_of_reachable hreach
  cases e with
  | agent a =>
      simp only [RouteSync.step, Option.ite_none_right_eq_some, Option.map_eq_some_iff,
        Outcome.toOption_eq_some] at hst
      obtain ⟨hown, agents, hagent, rfl⟩ := hst
      cases moves_of_step hown hagent with
      | @client a b routes hop ha =>
          exact ⟨h.client hsound hop ha _, List.prefix_rfl⟩
      | queues hroutes hresponses hasked =>
          have hhandled : handled fd { s with agents := agents } = handled fd s := by
            rw [handled, hresponses]
            rfl
          exact h.of_handled h.inOrder hhandled hroutes
      | @update clock resp rest b routes hs hop => exact h.update hsync hsound hs hop rfl
  | request i =>
      simp only [RouteSync.step] at hst
      split at hst
      · cases hst
      · rename_i req requests hs
        obtain ⟨dns, hdns, rfl⟩ := Option.map_eq_some_iff.mp hst
        obtain ⟨c', hconn, -, hanswers, -⟩ := DnsServer.conn_request hinv hdns hsync.conn
        have hsame : answersOf fd dns = answersOf fd s.dns := by
          simp only [answersOf, hconn, hsync.conn, Option.map_some, hanswers]
        have hhandled : handled fd ⟨{ s.agents with requests := requests }, dns⟩ =
            handled fd s := by
          rw [handled, hsame]
          rfl
        refine h.of_handled ?_ hhandled rfl
        show InOrder (answersOf fd dns)
        rw [hsame]
        exact h.inOrder
  | dns e =>
      simp only [RouteSync.step, Option.ite_none_right_eq_some, Option.map_eq_some_iff] at hst
      obtain ⟨hspares, dns, hdns, rfl⟩ := hst
      obtain ⟨c', new, hserves⟩ := DnsServer.conn_step hinv hdns hsync.conn hsync.open_ hspares
      have hold : answersOf fd s.dns = c.answers := by
        rw [answersOf, hsync.conn]
        rfl
      have hnow : answersOf fd dns = c.answers ++ new := by
        rw [answersOf, hserves.conn, ← hserves.answers]
        rfl
      have harrive : handled fd ⟨arrive new s.agents, dns⟩ = handled fd s := by
        obtain ⟨mid, hsplit, hmid⟩ := hsync.exists_split
        have hanswers : c'.answers = handled fd s ++ (mid ++ new) := by
          rw [hserves.answers, ← List.append_assoc, ← hsplit]
        refine handled_eq hserves.conn hanswers ?_
        have := congrArg List.length hmid
        simp only [List.length_map] at this
        simp [arrive, this]
      rw [show (answersOf fd dns).drop (answersOf fd s.dns).length = new by
        rw [hnow, hold, List.drop_left]]
      refine h.of_handled ?_ harrive rfl
      show InOrder (answersOf fd dns)
      rw [hnow]
      refine List.pairwise_append.mpr ⟨hold ▸ h.inOrder, ?_, fun a' ha' a ha ↦ ?_⟩
      · cases new with
        | nil => exact .nil
        | cons a rest =>
            rw [(hserves.carried a List.mem_cons_self).1]
            exact List.pairwise_singleton _ _
      · exact (hinv.conn fd c hsync.conn).ordered a (hserves.carried a ha).2 a' ha'

/-- The hosts come from the responses in every run. -/
theorem traced_of_reachable (h : (routeSync cfg fd).Reachable s) : Traced cfg fd s := by
  refine h.induction (I := Traced cfg fd) ?_ fun _ _ _ hr hi hst ↦
    (hi.step (inv_of_reachable hr) hst).1
  rintro ⟨_, dns⟩ ⟨rfl, -, c, hc, -, hanswers, -⟩
  refine ⟨?_, fun m lb hget ↦ ?_⟩
  · show InOrder (answersOf fd dns)
    rw [answersOf, hc, Option.map_some, Option.getD_some, hanswers]
    exact .nil
  · simp [Store.split, routeStore, Agents.new, RouteLb.new] at hget

theorem handled_prefix_of_run {es : List SyncEvent} (h : (routeSync cfg fd).Reachable s)
    (hr : (routeSync cfg fd).Run s es t) : handled fd s <+: handled fd t := by
  induction hr with
  | nil s => exact List.prefix_rfl
  | @cons s s' t e es hst _ ih =>
      exact (Traced.step (inv_of_reachable h) (traced_of_reachable h) hst).2.trans (ih (h.step hst))

/-! ## What the clients see -/

/-- In every run the last response that is handled for a module is replaced by ones from the
same table or a later one. -/
theorem lastOf_le_of_run {es : List SyncEvent} (h : (routeSync cfg fd).Reachable s)
    (hr : (routeSync cfg fd).Run s es t) {m : UInt64} {a : Answer}
    (ha : lastOf m (handled fd s) = some a) :
    ∃ a', lastOf m (handled fd t) = some a' ∧ a.gen ≤ a'.gen := by
  have hin : InOrder (handled fd t) :=
    (traced_of_reachable (h.run hr)).inOrder.sublist (List.take_sublist _ _)
  exact lastOf_le_of_prefix hin (handled_prefix_of_run h hr) ha

/-- An entry with a host has the hosts of the table that its last response was read from. -/
theorem table_of_entry (h : (routeSync cfg fd).Reachable s) {modid cmdid : UInt32}
    (hlb : (agentStore cfg).get s.agents.agentRoutes (modKey modid cmdid) = some lb)
    (hk : k ∈ lb.hostMap) :
    ∃ a tab, lastOf (modKey modid cmdid) (handled fd s) = some a ∧
      s.dns.tables[a.gen]? = some tab ∧ ∀ k, k ∈ lb.hostMap ↔ k ∈ Hosts.of tab modid cmdid := by
  obtain ⟨-, hreach, c, hsync⟩ := inv_of_reachable h
  rcases (traced_of_reachable h).entries _ lb hlb with hempty | ⟨r, hr, hmap⟩
  · rw [LoadBalance.empty, ExtTreeMap.isEmpty_iff] at hempty
    rw [hempty] at hk
    exact absurd hk ExtTreeMap.not_mem_empty
  · obtain ⟨hmem, hmod⟩ := List.mem_filter.mp (List.mem_of_getLast? hr)
    have hbuffered : r ∈ c.answers := by
      obtain ⟨new, hanswers, -⟩ := hsync.exists_split
      rw [hanswers]
      exact List.mem_append_left _ hmem
    obtain ⟨tab, htab, hres⟩ :=
      ((DnsServer.inv_of_reachable hreach).conn fd c hsync.conn).genuine r hbuffered
    obtain ⟨rfl, rfl⟩ : r.res.modid = modid ∧ r.res.cmdid = cmdid :=
      pack_inj (of_decide_eq_true hmod)
    refine ⟨r, tab, hr, htab, fun k ↦ ?_⟩
    rw [hmap, hres]
    exact exists_host_iff

/-- What a client is given for a module are hosts of one table, and all of them if it asks for
all. -/
def GivenOf (tab : RouterMap) (modid cmdid : UInt32) (a : RouteOp) (b : RouteResult) : Prop :=
  (∀ host ∈ givenHosts b, hostKey host.ip host.port ∈ Hosts.of tab modid cmdid) ∧
    ∀ now, a = .getRoute modid cmdid now →
      ∀ k ∈ Hosts.of tab modid cmdid, ∃ host ∈ givenHosts b, hostKey host.ip host.port = k

/-- What a client is given is of the table that the last response was read from. -/
theorem givenOf_last (h : (routeSync cfg fd).Reachable s) {a : RouteOp} {b : RouteResult}
    {routes : Fin 3 → RouteLb}
    (hst : (agentStore cfg).step a s.agents.agentRoutes = .ok (b, routes)) {modid cmdid : UInt32}
    (ha : a.key = modKey modid cmdid) (hne : givenHosts b ≠ []) :
    ∃ r tab, lastOf (modKey modid cmdid) (handled fd s) = some r ∧
      s.dns.tables[r.gen]? = some tab ∧ GivenOf tab modid cmdid a b := by
  obtain ⟨v, hact, -⟩ := (agentStore_local cfg).act_eq hst
  obtain ⟨hgives, hall⟩ := Entry.act_gives ((inv_of_reachable h).sound a.key) hact
  obtain ⟨host, hhost⟩ := List.exists_mem_of_ne_nil _ hne
  obtain ⟨lb, hlb, hk⟩ := hgives host hhost
  obtain ⟨r, tab, hr, htab, hkeys⟩ := table_of_entry h (ha ▸ hlb) hk
  refine ⟨r, tab, hr, htab, fun host hhost ↦ ?_,
    fun now hop k hk ↦ hall lb hlb _ _ now hop k ((hkeys k).mpr hk)⟩
  obtain ⟨lb', hlb', hk'⟩ := hgives host hhost
  obtain rfl := Option.some.inj (hlb'.symm.trans hlb)
  exact (hkeys _).mp hk'

/-- **The hosts come from one table.**  Whatever a client asks the agent for in any state
that can be reached, the hosts it gets for a module are hosts that one table of the server
has for it, and a request for all hosts gives all that this table has. -/
theorem hosts_from_table (h : (routeSync cfg fd).Reachable s) {a : RouteOp} {b : RouteResult}
    {routes : Fin 3 → RouteLb}
    (hst : (agentStore cfg).step a s.agents.agentRoutes = .ok (b, routes)) {modid cmdid : UInt32}
    (ha : a.key = modKey modid cmdid) (hne : givenHosts b ≠ []) :
    ∃ g tab, tableNo fd s (modKey modid cmdid) = some g ∧ s.dns.tables[g]? = some tab ∧
      (∀ host ∈ givenHosts b, hostKey host.ip host.port ∈ Hosts.of tab modid cmdid) ∧
      ∀ now, a = .getRoute modid cmdid now →
        ∀ k ∈ Hosts.of tab modid cmdid, ∃ host ∈ givenHosts b, hostKey host.ip host.port = k := by
  obtain ⟨r, tab, hr, htab, hgiven⟩ := givenOf_last h hst ha hne
  exact ⟨r.gen, tab, by rw [tableNo, hr]; rfl, htab, hgiven⟩

/-- A client that asks for all hosts after the pull gets those of the table. -/
theorem hosts_from_table_pulled :
    ∃ b routes g tab, (agentStore .default).step (.getRoute 1 1 101) pulled.agents.agentRoutes =
        .ok (b, routes) ∧ tableNo 5 pulled (modKey 1 1) = some g ∧
      pulled.dns.tables[g]? = some tab ∧
      (∀ host ∈ givenHosts b, hostKey host.ip host.port ∈ Hosts.of tab 1 1) ∧
      ∀ now, RouteOp.getRoute 1 1 101 = .getRoute 1 1 now →
        ∀ k ∈ Hosts.of tab 1 1, ∃ host ∈ givenHosts b, hostKey host.ip host.port = k := by
  have hreach := reachable_of_announcing pulled_reachable
  obtain ⟨b, routes, hst, -⟩ := agentStore_step (inv_of_reachable hreach).sound (.getRoute 1 1 101)
  have hgiven : ((agentStore .default).step (.getRoute 1 1 101)
      pulled.agents.agentRoutes).toOption.map (fun p ↦ givenHosts p.1) =
        some [⟨3232235953, 7777⟩] := by decide
  rw [hst] at hgiven
  have hne : givenHosts b ≠ [] := ne_of_eq_of_ne (Option.some.inj hgiven) (List.cons_ne_nil _ _)
  obtain ⟨g, tab, h⟩ := hosts_from_table hreach hst rfl hne
  exact ⟨b, routes, g, tab, hst, h⟩

/-- In every run tables are only added, at the end. -/
theorem tables_prefix_of_run {es : List SyncEvent} (hr : (routeSync cfg fd).Run s es t) :
    s.dns.tables <+: t.dns.tables := by
  induction hr with
  | nil s => exact List.prefix_rfl
  | @cons s s' t e es hst _ ih =>
      refine List.IsPrefix.trans ?_ ih
      change s.step cfg fd e = some s' at hst
      cases e with
      | agent a =>
          simp only [RouteSync.step, Option.ite_none_right_eq_some, Option.map_eq_some_iff] at hst
          obtain ⟨-, agents, -, rfl⟩ := hst
          exact List.prefix_rfl
      | request i =>
          simp only [RouteSync.step] at hst
          split at hst
          · cases hst
          · obtain ⟨dns, hdns, rfl⟩ := Option.map_eq_some_iff.mp hst
            exact DnsServer.tables_prefix_of_step hdns
      | dns e =>
          simp only [RouteSync.step, Option.ite_none_right_eq_some, Option.map_eq_some_iff] at hst
          obtain ⟨-, dns, hdns, rfl⟩ := hst
          exact DnsServer.tables_prefix_of_step hdns

/-- **No later answer is from an earlier table.**  When a client of the agent gets hosts for a
module, and then, in a run of any length, gets hosts for it again, the hosts of each answer are
those that one table of the server has for the module, all of them if the client has asked for
all, and the second table was not installed before the first. -/
theorem never_goes_back {es : List SyncEvent} (h : (routeSync cfg fd).Reachable s)
    (hr : (routeSync cfg fd).Run s es t) {modid cmdid : UInt32} {a₁ a₂ : RouteOp}
    {b₁ b₂ : RouteResult} {routes₁ routes₂ : Fin 3 → RouteLb}
    (h₁ : (agentStore cfg).step a₁ s.agents.agentRoutes = .ok (b₁, routes₁))
    (h₂ : (agentStore cfg).step a₂ t.agents.agentRoutes = .ok (b₂, routes₂))
    (ha₁ : a₁.key = modKey modid cmdid) (ha₂ : a₂.key = modKey modid cmdid)
    (hne₁ : givenHosts b₁ ≠ []) (hne₂ : givenHosts b₂ ≠ []) :
    s.dns.tables <+: t.dns.tables ∧ ∃ (g₁ g₂ : ℕ) (tab₁ tab₂ : RouterMap), g₁ ≤ g₂ ∧
      s.dns.tables[g₁]? = some tab₁ ∧ GivenOf tab₁ modid cmdid a₁ b₁ ∧
      t.dns.tables[g₂]? = some tab₂ ∧ GivenOf tab₂ modid cmdid a₂ b₂ := by
  obtain ⟨r₁, tab₁, hr₁, htab₁, hgiven₁⟩ := givenOf_last h h₁ ha₁ hne₁
  obtain ⟨r₂, tab₂, hr₂, htab₂, hgiven₂⟩ := givenOf_last (h.run hr) h₂ ha₂ hne₂
  obtain ⟨r, hr', hle⟩ := lastOf_le_of_run h hr hr₁
  obtain rfl := Option.some.inj (hr₂.symm.trans hr')
  exact ⟨tables_prefix_of_run hr, r₁.gen, r₂.gen, tab₁, tab₂, hle, htab₁, hgiven₁, htab₂, hgiven₂⟩

/-- After the pull, the server publishes a table with another host for the module. -/
def onePush : List SyncEvent :=
  List.replicate 7 (.dns (.updater
    { newVersion with data := .rows 5 [⟨1, 1, 3232235954, 7778⟩] })) ++
    [.dns (.deal 0), .dns (.task 0), .dns (.proceed 0), .dns (.proceed 0), .dns (.proceed 0),
      .agent (.dnsResCb fun _ ↦ 100)]

/-- The agent and the server after these steps. -/
def pushed : RouteSync := onePush.foldl (RouteSync.next .default 5) pulled

/-- A client that asks before the push and after it gets the hosts of two tables, in their order. -/
theorem never_goes_back_pushed :
    ∃ b₁ b₂ routes₁ routes₂,
      (agentStore .default).step (.getRoute 1 1 101) pulled.agents.agentRoutes =
        .ok (b₁, routes₁) ∧
      (agentStore .default).step (.getRoute 1 1 102) pushed.agents.agentRoutes =
        .ok (b₂, routes₂) ∧
      pulled.dns.tables <+: pushed.dns.tables ∧
      ∃ (g₁ g₂ : ℕ) (tab₁ tab₂ : RouterMap), g₁ ≤ g₂ ∧
        pulled.dns.tables[g₁]? = some tab₁ ∧ GivenOf tab₁ 1 1 (.getRoute 1 1 101) b₁ ∧
        pushed.dns.tables[g₂]? = some tab₂ ∧ GivenOf tab₂ 1 1 (.getRoute 1 1 102) b₂ := by
  have hpulled := reachable_of_announcing pulled_reachable
  have hrun : (routeSync .default 5).Run pulled onePush pushed := by
    refine LTS.Run.foldl RouteSync.next_step ?_
    repeat' constructor
  obtain ⟨b₁, routes₁, h₁, -⟩ :=
    agentStore_step (inv_of_reachable hpulled).sound (.getRoute 1 1 101)
  obtain ⟨b₂, routes₂, h₂, -⟩ :=
    agentStore_step (inv_of_reachable (hpulled.run hrun)).sound (.getRoute 1 1 102)
  have hgiven₁ : ((agentStore .default).step (.getRoute 1 1 101)
      pulled.agents.agentRoutes).toOption.map (fun p ↦ givenHosts p.1) =
        some [⟨3232235953, 7777⟩] := by decide
  have hgiven₂ : ((agentStore .default).step (.getRoute 1 1 102)
      pushed.agents.agentRoutes).toOption.map (fun p ↦ givenHosts p.1) =
        some [⟨3232235954, 7778⟩] := by decide
  rw [h₁] at hgiven₁
  rw [h₂] at hgiven₂
  exact ⟨b₁, b₂, routes₁, routes₂, h₁, h₂, never_goes_back hpulled hrun h₁ h₂ rfl rfl
    (ne_of_eq_of_ne (Option.some.inj hgiven₁) (List.cons_ne_nil _ _))
    (ne_of_eq_of_ne (Option.some.inj hgiven₂) (List.cons_ne_nil _ _))⟩

end Ylars.System
