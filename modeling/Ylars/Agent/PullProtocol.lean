import Mathlib.Logic.Function.Basic
import Ylars.Agent.RouteLb
import Ylars.Lib.Transition

/-!
# Pulling the hosts of the modules

The agent has three udp servers, each with its own `route_lb`; a client sends a request to
the one that the module belongs to.  All of them put requests on one dns queue, which the
thread of the dns client empties: `dns_task_cb` sends the requests to the dns server, and
`dns_res_cb` gives each response to the `route_lb` of its module.  The dns server answers
the requests in order and may push responses at any time.

An entry that waits for its hosts is left alone until a response comes, so there has to be
one on the way.  An entry may have been created and removed several times since the request
was made; what carries over is that any response for its module ends the wait.
-/

namespace Ylars.Agent

open Std (ExtTreeMap)
open Ylars.Lib

/-- The udp server of a module, as the clients and `dns_res_cb` compute it. -/
def agentIndex (modid cmdid : UInt32) : Fin 3 := Fin.ofNat 3 ((modid + cmdid) % 3).toNat

/-- A response of the dns server. -/
inductive Response where
  /-- The answer to a request: the hosts of its module. -/
  | answer (req : Proto.GetRouteRequest) (host : List Proto.HostInfo)
  /-- A response that was not asked for. -/
  | push (res : Proto.GetRouteResponse)

namespace Response

/-- The message. -/
def message : Response → Proto.GetRouteResponse
  | answer req host => { modid := req.modid, cmdid := req.cmdid, host := host }
  | push res => res

/-- The request that the response answers. -/
def request : Response → Option Proto.GetRouteRequest
  | answer req _ => some req
  | push _ => none

theorem key_of_mem_request {resp : Response} {req : Proto.GetRouteRequest}
    (h : req ∈ resp.request) :
    modKey req.modid req.cmdid = modKey resp.message.modid resp.message.cmdid := by
  cases resp with
  | answer req' host =>
      obtain rfl := Option.some.inj h
      rfl
  | push res => cases h

end Response

/-- The agent, its dns client and the link to the dns server. -/
structure Agents where
  agentRoutes : Fin 3 → RouteLb
  /-- The requests that `pull` has put on the queue. -/
  dnsQueue : List Proto.GetRouteRequest
  /-- The requests that `dns_task_cb` has taken off the queue and not sent yet. -/
  tasks : List Proto.GetRouteRequest
  /-- The requests on the way to the dns server. -/
  requests : List Proto.GetRouteRequest
  /-- The responses on the way to `dns_res_cb`. -/
  responses : List Response

/-- What happens in the agent, and to it. -/
inductive Action where
  /-- A client asks for a host. -/
  | getHost (seq modid cmdid : UInt32) (now : Int)
  /-- A client asks for all hosts. -/
  | getRoute (modid cmdid : UInt32) (now : Int)
  /-- A client reports the outcome of a call. -/
  | reportHost (req : Proto.ReportRequest) (clock : Clock)
  /-- `dns_task_cb` takes the requests off the queue. -/
  | recvTasks
  /-- `dns_task_cb` sends one of them. -/
  | sendTask
  /-- The dns server answers a request. -/
  | dnsAnswer (host : List Proto.HostInfo)
  /-- The dns server sends a response on its own. -/
  | dnsPush (res : Proto.GetRouteResponse)
  /-- `dns_res_cb` handles a response. -/
  | dnsResCb (clock : Clock)

namespace Agents

/-- The agent at its start. -/
def new : Agents where
  agentRoutes := fun _ ↦ RouteLb.new
  dnsQueue := []
  tasks := []
  requests := []
  responses := []

/-- The end of an operation on one `route_lb`. -/
def put (s : Agents) (i : Fin 3) (reqs : List Proto.GetRouteRequest) (r : RouteLb) : Agents :=
  { s with
    agentRoutes := Function.update s.agentRoutes i r
    dnsQueue := s.dnsQueue ++ reqs }

/-- One step.  A step that has nothing to take leaves the state. -/
def step (cfg : LoadBalanceConfig) (s : Agents) : Action → Outcome Agents
  | .getHost seq modid cmdid now => do
      let (_, _, reqs, r) ← (s.agentRoutes (agentIndex modid cmdid)).getHost cfg now modid cmdid
        { seq := seq, modid := modid, cmdid := cmdid, retcode := .retSucc, host := none }
      return s.put (agentIndex modid cmdid) reqs r
  | .getRoute modid cmdid now => do
      let (_, _, reqs, r) ← (s.agentRoutes (agentIndex modid cmdid)).getRoute cfg now modid cmdid
        { modid := modid, cmdid := cmdid, host := [] }
      return s.put (agentIndex modid cmdid) reqs r
  | .reportHost req clock => do
      let (_, r) ← (s.agentRoutes (agentIndex req.modid req.cmdid)).reportHost cfg clock req
      return s.put (agentIndex req.modid req.cmdid) [] r
  | .recvTasks =>
      match s.tasks with
      | [] => .ok { s with tasks := s.dnsQueue, dnsQueue := [] }
      | _ :: _ => .ok s
  | .sendTask =>
      match s.tasks with
      | [] => .ok s
      | task :: tasks => .ok { s with tasks := tasks, requests := s.requests ++ [task] }
  | .dnsAnswer host =>
      match s.requests with
      | [] => .ok s
      | req :: requests =>
          .ok { s with requests := requests, responses := s.responses ++ [.answer req host] }
  | .dnsPush res => .ok { s with responses := s.responses ++ [.push res] }
  | .dnsResCb clock =>
      match s.responses with
      | [] => .ok s
      | resp :: responses => do
          let res := resp.message
          let r ← (s.agentRoutes (agentIndex res.modid res.cmdid)).updateHost cfg clock res
          return { s with responses := responses }.put (agentIndex res.modid res.cmdid) [] r

/-- The requests that no response has been handled for. -/
def inFlight (s : Agents) : List Proto.GetRouteRequest :=
  s.dnsQueue ++ s.tasks ++ s.requests ++ s.responses.filterMap Response.request

/-- The module `key` has a request in flight. -/
def Outstanding (s : Agents) (key : UInt64) : Prop :=
  ∃ req ∈ s.inFlight, modKey req.modid req.cmdid = key

/-- The entries are sound and in their own `route_lb`, and the ones that wait have a request
in flight. -/
structure Inv (s : Agents) : Prop where
  sound : ∀ i, (s.agentRoutes i).Sound
  home : ∀ (i : Fin 3) (key : UInt64) (lb : LoadBalance),
    (s.agentRoutes i).routeMap[key]? = some lb → agentIndex lb.modid lb.cmdid = i
  outstanding : ∀ (i : Fin 3) (key : UInt64) (lb : LoadBalance),
    (s.agentRoutes i).routeMap[key]? = some lb → lb.status = some .pulling → s.Outstanding key

end Agents

/-- The runs of the agent. -/
def pulling (cfg : LoadBalanceConfig) : LTS Agents Action :=
  .ofFn (fun s ↦ s = Agents.new) (Agents.step cfg)

namespace Agents

variable {cfg : LoadBalanceConfig} {s t : Agents} {i : Fin 3}

theorem Inv.new : Agents.new.Inv where
  sound _ := .new
  home _ key lb h := by simp [Agents.new, RouteLb.new] at h
  outstanding _ key lb h := by simp [Agents.new, RouteLb.new] at h

theorem Inv.of_inFlight (h : s.Inv) (hroutes : t.agentRoutes = s.agentRoutes)
    (hsub : s.inFlight ⊆ t.inFlight) : t.Inv where
  sound := hroutes ▸ h.sound
  home := hroutes ▸ h.home
  outstanding i key lb hget hp := by
    rw [hroutes] at hget
    obtain ⟨req, hreq, hkey⟩ := h.outstanding i key lb hget hp
    exact ⟨req, hsub hreq, hkey⟩

theorem Inv.index_eq (h : s.Inv) {modid cmdid : UInt32} {lb : LoadBalance}
    (hget : (s.agentRoutes i).routeMap[modKey modid cmdid]? = some lb) :
    i = agentIndex modid cmdid := by
  obtain ⟨hmodid, hcmdid⟩ := pack_inj (h.sound i _ lb hget).key
  rw [← h.home i _ lb hget, hmodid, hcmdid]

/-- An entry after an operation on the module `(modid, cmdid)` is that module's, or it was
there before. -/
theorem Inv.get_update (h : s.Inv) {modid cmdid : UInt32} {reqs : List Proto.GetRouteRequest}
    {r : RouteLb}
    (ha : RouteLb.Acts (modKey modid cmdid) reqs (s.agentRoutes (agentIndex modid cmdid)) r)
    {key : UInt64} {lb : LoadBalance}
    (hget : (Function.update s.agentRoutes (agentIndex modid cmdid) r i).routeMap[key]? = some lb) :
    (i = agentIndex modid cmdid ∧ key = modKey modid cmdid ∧ r.routeMap[key]? = some lb) ∨
      (key ≠ modKey modid cmdid ∧ (s.agentRoutes i).routeMap[key]? = some lb) := by
  by_cases hi : i = agentIndex modid cmdid
  · subst hi
    rw [Function.update_self] at hget
    by_cases hkey : key = modKey modid cmdid
    · exact .inl ⟨rfl, hkey, hget⟩
    · exact .inr ⟨hkey, (ha.other key lb hget).resolve_left hkey⟩
  · rw [Function.update_of_ne hi] at hget
    refine .inr ⟨?_, hget⟩
    rintro rfl
    exact hi (h.index_eq hget)

/-- An operation on a module keeps the invariant, if the other modules keep their requests
and its own waits only with a request in flight. -/
theorem Inv.update (h : s.Inv) {modid cmdid : UInt32} {reqs : List Proto.GetRouteRequest}
    {r : RouteLb}
    (ha : RouteLb.Acts (modKey modid cmdid) reqs (s.agentRoutes (agentIndex modid cmdid)) r)
    (hroutes : t.agentRoutes = Function.update s.agentRoutes (agentIndex modid cmdid) r)
    (hother : ∀ key, key ≠ modKey modid cmdid → s.Outstanding key → t.Outstanding key)
    (hown : ∀ lb, r.routeMap[modKey modid cmdid]? = some lb → lb.status = some .pulling →
      t.Outstanding (modKey modid cmdid)) : t.Inv := by
  refine ⟨fun i key lb hget ↦ ?_, fun i key lb hget ↦ ?_, fun i key lb hget hp ↦ ?_⟩
  · rw [hroutes] at hget
    rcases h.get_update ha hget with ⟨-, -, hget⟩ | ⟨-, hget⟩
    · exact ha.sound key lb hget
    · exact h.sound i key lb hget
  · rw [hroutes] at hget
    rcases h.get_update ha hget with ⟨hi, hkey, hget⟩ | ⟨-, hget⟩
    · obtain ⟨hmodid, hcmdid⟩ := pack_inj ((ha.sound key lb hget).key.trans hkey)
      rw [hmodid, hcmdid, hi]
    · exact h.home i key lb hget
  · rw [hroutes] at hget
    rcases h.get_update ha hget with ⟨-, rfl, hget⟩ | ⟨hkey, hget⟩
    · exact hown lb hget hp
    · exact hother key hkey (h.outstanding i key lb hget hp)

/-- A request that is on its way stays so when others are put on the queue. -/
theorem Outstanding.put {key : UInt64} {reqs : List Proto.GetRouteRequest} {r : RouteLb}
    (h : s.Outstanding key) : (s.put i reqs r).Outstanding key := by
  obtain ⟨req, hreq, hkey⟩ := h
  refine ⟨req, ?_, hkey⟩
  simp only [inFlight, Agents.put, List.mem_append] at hreq ⊢
  tauto

/-- An operation of a client keeps the invariant. -/
theorem Inv.act (h : s.Inv) {modid cmdid : UInt32} {reqs : List Proto.GetRouteRequest}
    {r : RouteLb}
    (ha : RouteLb.Acts (modKey modid cmdid) reqs (s.agentRoutes (agentIndex modid cmdid)) r) :
    (s.put (agentIndex modid cmdid) reqs r).Inv := by
  refine h.update ha rfl (fun _ _ ho ↦ ho.put) fun lb hget hp ↦ ?_
  rcases ha.pulling lb hget hp with ⟨req, hreq, hkey⟩ | ⟨lb₀, hget₀, hp₀⟩
  · exact ⟨req, by simp [inFlight, Agents.put, hreq], hkey⟩
  · exact (h.outstanding _ _ lb₀ hget₀ hp₀).put

/-- Handling a response keeps the invariant: what it takes off the link is a request of its
own module, which waits no longer. -/
theorem Inv.dnsResCb (h : s.Inv) {resp : Response} {rest : List Response} {r : RouteLb}
    (hs : s.responses = resp :: rest)
    (ha : RouteLb.Acts (modKey resp.message.modid resp.message.cmdid) []
      (s.agentRoutes (agentIndex resp.message.modid resp.message.cmdid)) r)
    (hnew : ∀ lb, r.routeMap[modKey resp.message.modid resp.message.cmdid]? = some lb →
      lb.status = some .new) :
    ({ s with responses := rest }.put
      (agentIndex resp.message.modid resp.message.cmdid) [] r).Inv := by
  refine h.update ha rfl (fun key hkey ho ↦ ?_) fun lb hget hp ↦ ?_
  · obtain ⟨req, hreq, rfl⟩ := ho
    have hne : req ∉ resp.request := fun hmem ↦ hkey (Response.key_of_mem_request hmem)
    refine Outstanding.put ⟨req, ?_, rfl⟩
    simp only [inFlight, hs, List.mem_append, List.mem_filterMap, List.mem_cons,
      exists_eq_or_imp] at hreq ⊢
    exact hreq.imp_right fun hresp ↦ hresp.resolve_left hne
  · rw [hnew lb hget] at hp
    cases hp

/-- Every step succeeds and keeps the invariant. -/
theorem Inv.step (h : s.Inv) (cfg : LoadBalanceConfig) (a : Action) :
    ∃ t, s.step cfg a = .ok t ∧ t.Inv := by
  cases a with
  | getHost seq modid cmdid now =>
      obtain ⟨_, _, reqs, r, h₁, ha⟩ :=
        RouteLb.acts_getHost (h.sound (agentIndex modid cmdid)) cfg now modid cmdid
          { seq := seq, modid := modid, cmdid := cmdid, retcode := .retSucc, host := none }
      exact ⟨_, by simp only [Agents.step, h₁, Outcome.ok_bind]; rfl, h.act ha⟩
  | getRoute modid cmdid now =>
      obtain ⟨_, _, reqs, r, h₁, ha⟩ :=
        RouteLb.acts_getRoute (h.sound (agentIndex modid cmdid)) cfg now modid cmdid
          { modid := modid, cmdid := cmdid, host := [] }
      exact ⟨_, by simp only [Agents.step, h₁, Outcome.ok_bind]; rfl, h.act ha⟩
  | reportHost req clock =>
      obtain ⟨_, r, h₁, ha⟩ :=
        RouteLb.acts_reportHost (h.sound (agentIndex req.modid req.cmdid)) cfg clock req
      exact ⟨_, by simp only [Agents.step, h₁, Outcome.ok_bind]; rfl, h.act ha⟩
  | recvTasks =>
      cases ht : s.tasks with
      | nil =>
          refine ⟨{ s with tasks := s.dnsQueue, dnsQueue := [] }, by simp only [Agents.step, ht],
            h.of_inFlight rfl ?_⟩
          simp [inFlight, ht]
      | cons task tasks => exact ⟨s, by simp only [Agents.step, ht], h⟩
  | sendTask =>
      cases ht : s.tasks with
      | nil => exact ⟨s, by simp only [Agents.step, ht], h⟩
      | cons task tasks =>
          refine ⟨{ s with tasks := tasks, requests := s.requests ++ [task] },
            by simp only [Agents.step, ht], h.of_inFlight rfl fun req hreq ↦ ?_⟩
          simp only [inFlight, ht, List.mem_append, List.mem_cons] at hreq ⊢
          tauto
  | dnsAnswer host =>
      cases ht : s.requests with
      | nil => exact ⟨s, by simp only [Agents.step, ht], h⟩
      | cons first requests =>
          refine ⟨{ s with requests := requests, responses := s.responses ++ [.answer first host] },
            by simp only [Agents.step, ht], h.of_inFlight rfl fun req hreq ↦ ?_⟩
          simp only [inFlight, ht, List.filterMap_append, List.mem_append, List.mem_cons,
            List.filterMap_cons, Response.request, List.filterMap_nil] at hreq ⊢
          tauto
  | dnsPush res =>
      refine ⟨_, rfl, h.of_inFlight rfl fun req hreq ↦ ?_⟩
      simp only [inFlight, List.filterMap_append, List.mem_append] at hreq ⊢
      tauto
  | dnsResCb clock =>
      cases ht : s.responses with
      | nil => exact ⟨s, by simp only [Agents.step, ht], h⟩
      | cons resp responses =>
          obtain ⟨r, h₁, ha, hnew⟩ := RouteLb.acts_updateHost
            (h.sound (agentIndex resp.message.modid resp.message.cmdid)) cfg clock resp.message
          exact ⟨_, by simp only [Agents.step, ht, h₁, Outcome.ok_bind]; rfl,
            h.dnsResCb ht ha hnew⟩

/-- The invariant holds in every reachable state. -/
theorem inv_of_reachable (h : (pulling cfg).Reachable s) : s.Inv := by
  refine h.induction (I := Inv) ?_ ?_
  · rintro s rfl
    exact .new
  · intro s a t _ hi hst
    exact Outcome.of_exists_ok (hi.step cfg a) hst

end Agents

/-- **No entry waits in vain.**  In every reachable state an entry that waits for its hosts
has a request for its module in flight; an entry without hosts waits; one that does not wait
has hosts and the time they came at.  Every step from such a state succeeds, so neither the
status nor the time is read before it is set. -/
theorem pulling_outstanding {cfg : LoadBalanceConfig} {s : Agents}
    (h : (pulling cfg).Reachable s) :
    (∀ (i : Fin 3) (key : UInt64) (lb : LoadBalance),
      (s.agentRoutes i).routeMap[key]? = some lb →
      (lb.status = some .pulling ∨ lb.status = some .new) ∧
      (lb.status = some .pulling → ∃ req ∈ s.inFlight, modKey req.modid req.cmdid = key) ∧
      (lb.empty = true → lb.status = some .pulling) ∧
      (lb.status = some .new → lb.empty = false ∧ ∃ ts, lb.lastUpdateTs = some ts)) ∧
    ∀ a, ∃ t, s.step cfg a = .ok t := by
  have hi := Agents.inv_of_reachable h
  refine ⟨fun i key lb hget ↦ ?_, fun a ↦ ?_⟩
  · have ho := hi.outstanding i key lb hget
    rcases (hi.sound i key lb hget).status with hp | ⟨hn, he, hts⟩
    · exact ⟨.inl hp, ho, fun _ ↦ hp, fun hn ↦ by simp [hp] at hn⟩
    · exact ⟨.inr hn, ho, fun he' ↦ by simp [he] at he', fun _ ↦ ⟨he, hts⟩⟩
  · obtain ⟨t, ht, -⟩ := hi.step cfg a
    exact ⟨t, ht⟩

/-- A module that a client has asked for waits for the answer that is on its way. -/
theorem pulling_outstanding_answered :
    ∃ (s : Agents) (lb : LoadBalance), s.responses = [.answer ⟨1, 2⟩ [⟨10, 80⟩]] ∧
      (s.agentRoutes 0).routeMap[modKey 1 2]? = some lb ∧ lb.status = some .pulling ∧
      ∃ req ∈ s.inFlight, modKey req.modid req.cmdid = modKey 1 2 := by
  have hnew : (pulling .default).Reachable _ := .init rfl
  have hasked := hnew.next (.getHost 0 1 2 0) rfl
  have hreceived := hasked.next .recvTasks rfl
  have hsent := hreceived.next .sendTask rfl
  have hanswered := hsent.next (.dnsAnswer [⟨10, 80⟩]) rfl
  exact ⟨_, _, rfl, rfl, rfl, ((pulling_outstanding hanswered).1 0 _ _ rfl).2.1 rfl⟩

end Ylars.Agent
