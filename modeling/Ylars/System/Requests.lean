import Ylars.Dns.AskedFor
import Ylars.System.RouteSync

/-!
# Only what the clients ask for

The agent pulls the modules that its clients ask for, and the server answers the modules that
it is asked for.  So when the clients of both ask only for modules in a set `P`, all that
passes between the agent and the server is about modules in `P` (`requested_of_reachable`,
`mod_of_step`).
-/

namespace Ylars.System

open Std (ExtTreeMap ExtTreeSet)
open Ylars.Lib Ylars.Proto Ylars.Agent Ylars.Dns

/-- A client asks for a module in `P`. -/
def asksFor (P : UInt64 → Prop) : Agent.Action → Prop
  | .getHost _ modid cmdid _ => P (modKey modid cmdid)
  | .getRoute modid cmdid _ => P (modKey modid cmdid)
  | _ => True

/-- A client of the agent or of the server asks for a module in `P`. -/
def SyncEvent.Asks (P : UInt64 → Prop) : SyncEvent → Prop
  | .agent a => asksFor P a
  | .request _ => True
  | .dns e => e.Asks P

/-- The runs of the agent and the server in which the clients ask for modules in `P`, also
before the agent comes. -/
def asking (P : UInt64 → Prop) (cfg : LoadBalanceConfig) (fd : Int) : LTS RouteSync SyncEvent where
  init s := s.Initial fd ∧ (dnsServer.restrict fun _ e ↦ e.Asks P).Reachable s.dns
  step s e t := e.Asks P ∧ s.step cfg fd e = some t

/-- What has been asked for is in `P`. -/
structure Requested (P : UInt64 → Prop) (s : RouteSync) : Prop where
  requests : ∀ req ∈ asked s.agents, P (modKey req.modid req.cmdid)
  dns : (dnsServer.restrict fun _ e ↦ e.Asks P).Reachable s.dns

variable {P : UInt64 → Prop} {cfg : LoadBalanceConfig} {fd : Int} {s t : RouteSync}
  {e : SyncEvent}

theorem pulls_of_step {routes routes' : Fin 3 → RouteLb} {a : RouteOp} {b : RouteResult}
    (h : AgentsSound cfg routes) (hst : (agentStore cfg).step a routes = .ok (b, routes')) :
    ∀ req ∈ b.pulls, modKey req.modid req.cmdid = a.key := by
  obtain ⟨v, hact, -⟩ := (agentStore_local cfg).act_eq hst
  exact Entry.pulls_of_act (h a.key) hact

/-- The agent requests what its clients ask for. -/
theorem asked_step {a b : Agents} {act : Agent.Action} (h : AgentsSound cfg a.agentRoutes)
    (hact : isOwn act = true) (hasks : asksFor P act)
    (hp : ∀ req ∈ asked a, P (modKey req.modid req.cmdid)) (hst : a.step cfg act = .ok b) :
    ∀ req ∈ asked b, P (modKey req.modid req.cmdid) := by
  have hqueues : (∀ req, req ∈ asked b → req ∈ asked a) →
      ∀ req ∈ asked b, P (modKey req.modid req.cmdid) := fun hsub req hreq ↦ hp req (hsub req hreq)
  have hpull : ∀ {i : Fin 3} {r : RouteLb} {k : UInt64} {reqs : List GetRouteRequest},
      (∀ req ∈ reqs, modKey req.modid req.cmdid = k) → P k →
      ∀ req ∈ asked (a.put i reqs r), P (modKey req.modid req.cmdid) := by
    intro i r k reqs hkey hk req hreq
    simp only [asked, Agents.put, List.mem_append] at hreq
    rcases hreq with ((hreq | hreq) | hreq) | hreq
    · exact hp req (by simp [asked, hreq])
    · rw [hkey req hreq]
      exact hk
    · exact hp req (by simp [asked, hreq])
    · exact hp req (by simp [asked, hreq])
  cases act with
  | getHost seq modid cmdid now =>
      simp only [Agents.step, Outcome.bind_eq_ok] at hst
      obtain ⟨⟨ret, res, reqs, r⟩, hget, hb⟩ := hst
      obtain rfl := Except.ok.inj hb
      have hpulls := pulls_of_step (a := .getHost seq modid cmdid now) (b := .host ret res reqs) h
        (agentStore_step_eq (homeOf_modKey modid cmdid) (by simp only [RouteLb.step, hget]; rfl))
      exact hpull hpulls hasks
  | getRoute modid cmdid now =>
      simp only [Agents.step, Outcome.bind_eq_ok] at hst
      obtain ⟨⟨ret, res, reqs, r⟩, hget, hb⟩ := hst
      obtain rfl := Except.ok.inj hb
      have hpulls := pulls_of_step (a := .getRoute modid cmdid now) (b := .route ret res reqs) h
        (agentStore_step_eq (homeOf_modKey modid cmdid) (by simp only [RouteLb.step, hget]; rfl))
      exact hpull hpulls hasks
  | reportHost report clock =>
      simp only [Agents.step, Outcome.bind_eq_ok] at hst
      obtain ⟨⟨status, r⟩, -, hb⟩ := hst
      obtain rfl := Except.ok.inj hb
      refine hqueues fun req hreq ↦ ?_
      simpa only [asked, Agents.put, List.append_nil] using hreq
  | recvTasks =>
      simp only [Agents.step] at hst
      split at hst
      · rename_i htasks
        obtain rfl := Except.ok.inj hst
        exact hqueues fun req hreq ↦ by simpa [asked, htasks] using hreq
      · obtain rfl := Except.ok.inj hst
        exact hp
  | sendTask =>
      simp only [Agents.step] at hst
      split at hst
      · obtain rfl := Except.ok.inj hst
        exact hp
      · rename_i task tasks htasks
        obtain rfl := Except.ok.inj hst
        refine hqueues fun req hreq ↦ ?_
        simp only [asked, htasks, List.mem_append, List.mem_cons, List.not_mem_nil, or_false]
          at hreq ⊢
        tauto
  | dnsAnswer | dnsPush => cases hact
  | dnsResCb clock =>
      simp only [Agents.step] at hst
      split at hst
      · obtain rfl := Except.ok.inj hst
        exact hp
      · obtain ⟨r, -, hb⟩ := Outcome.bind_eq_ok.mp hst
        obtain rfl := Except.ok.inj hb
        refine hqueues fun req hreq ↦ ?_
        simpa only [asked, Agents.put, List.append_nil] using hreq

/-- Every step keeps the requests within `P`. -/
theorem Requested.step (h : Requested P s) (hr : (routeSync cfg fd).Reachable s) (he : e.Asks P)
    (hst : s.step cfg fd e = some t) : Requested P t := by
  cases e with
  | agent a =>
      simp only [RouteSync.step, Option.ite_none_right_eq_some, Option.map_eq_some_iff,
        Outcome.toOption_eq_some] at hst
      obtain ⟨hown, agents, hagents, rfl⟩ := hst
      exact ⟨asked_step (inv_of_reachable hr).sound hown he h.requests hagents, h.dns⟩
  | request i =>
      simp only [RouteSync.step] at hst
      split at hst
      · cases hst
      · rename_i req requests hs
        obtain ⟨dns, hdns, rfl⟩ := Option.map_eq_some_iff.mp hst
        have hmem : ∀ req' ∈ req :: requests, P (modKey req'.modid req'.cmdid) := fun req' hreq' ↦
          h.requests req' (by simp only [asked, hs, List.mem_append]; exact .inr hreq')
        refine ⟨fun req' hreq' ↦ ?_, h.dns.step (a := .request i fd req.modid req.cmdid)
          ⟨hmem req List.mem_cons_self, hdns⟩⟩
        simp only [asked, List.mem_append] at hreq'
        rcases hreq' with (hreq' | hreq') | hreq'
        · exact h.requests req' (by simp [asked, hreq'])
        · exact h.requests req' (by simp [asked, hreq'])
        · exact hmem req' (List.mem_cons_of_mem _ hreq')
  | dns e =>
      simp only [RouteSync.step, Option.ite_none_right_eq_some, Option.map_eq_some_iff] at hst
      obtain ⟨-, dns, hdns, rfl⟩ := hst
      exact ⟨h.requests, h.dns.step (a := e) ⟨he, hdns⟩⟩

/-- A run in which the clients ask for modules in `P` is a run. -/
theorem sync_of_asking (h : (asking P cfg fd).Reachable s) : (routeSync cfg fd).Reachable s := by
  induction h with
  | init hi => exact .init hi.1
  | step _ hst ih => exact ih.step hst.2

theorem requested_of_reachable (h : (asking P cfg fd).Reachable s) : Requested P s := by
  refine h.induction (I := Requested P) ?_ fun s e t hr hi hst ↦
    hi.step (sync_of_asking hr) hst.1 hst.2
  rintro ⟨_, dns⟩ ⟨⟨rfl, -, -⟩, hdns⟩
  exact ⟨fun req hreq ↦ absurd hreq List.not_mem_nil, hdns⟩

/-- The responses that a step of the server adds are for modules in `P`. -/
theorem mod_of_step {dns : DnsServer} {e : Dns.Event} (h : Requested P s)
    (hr : (routeSync cfg fd).Reachable s) (hspares : e.spares fd = true)
    (hdns : s.dns.step e = some dns) :
    ∀ a ∈ (answersOf fd dns).drop (answersOf fd s.dns).length, P a.mod := by
  obtain ⟨-, hreach, c, hsync⟩ := inv_of_reachable hr
  obtain ⟨c', new, hserves⟩ :=
    DnsServer.conn_step (DnsServer.inv_of_reachable hreach) hdns hsync.conn hsync.open_ hspares
  have hnew : (answersOf fd dns).drop (answersOf fd s.dns).length = new := by
    simp only [answersOf, hsync.conn, hserves.conn, Option.map_some, Option.getD_some,
      hserves.answers, List.drop_left]
  rw [hnew]
  intro a ha
  refine (DnsServer.within_of_reachable h.dns).sends c.worker fd a.mod ?_
  have hcarries := (hserves.carried a ha).2
  cases hpc : (s.dns.workers c.worker).pc with
  | sendMsg fd' a' rest =>
      rw [hpc] at hcarries
      obtain ⟨rfl, rfl⟩ := hcarries
      exact .inl ⟨rfl, rfl⟩
  | idle | subscribe | getHosts | makePublishMap | unsubscribe =>
      rw [hpc] at hcarries
      exact absurd hcarries id

end Ylars.System
