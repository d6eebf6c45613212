import Ylars.System.RouteSync

/-!
# Any number of agents

A dns server serves the agents of all machines, each on a connection of its own.  Agents join
and leave at any time, and the descriptor of one that has left may be given to another one.
`Fleet` is the server with all of them; what `RouteSync` says of an agent and the rest of the
server holds of each of them, the other agents being some of the other clients
(`sync_of_fleet`).  So the agents agree with each other when nothing is on its way
(`fleet_agrees`).
-/

namespace Ylars.System

open Std (ExtTreeMap)
open Ylars.Lib Ylars.Proto Ylars.Agent Ylars.Dns

/-- The server, and the agents by the descriptors of their connections. -/
structure Fleet where
  agents : Int → Option Agents
  dns : DnsServer

/-- What happens next. -/
inductive FleetEvent where
  /-- A new agent connects, and its connection is given to a worker. -/
  | join (i : ℕ) (fd : Int)
  /-- The connection of an agent ends. -/
  | leave (i : ℕ) (fd : Int)
  /-- Something happens in an agent. -/
  | agent (fd : Int) (a : Agent.Action)
  /-- A worker of the server reads the next request of an agent. -/
  | request (i : ℕ) (fd : Int)
  /-- Something else happens in the server. -/
  | dns (e : Dns.Event)

/-- The connection whose client sends a request or is gone, if an event is one of these. -/
def target : Dns.Event → Option Int
  | .request _ fd _ _ => some fd
  | .close _ fd => some fd
  | _ => none

/-- The responses come to their agents. -/
def arriveAll (old new : DnsServer) (agents : Int → Option Agents) : Int → Option Agents :=
  fun fd ↦ (agents fd).map (arrive ((answersOf fd new).drop (answersOf fd old).length))

namespace Fleet

/-- The agents and the server after a step of the server. -/
def serve (s : Fleet) (e : Dns.Event) : Option Fleet :=
  (s.dns.step e).map fun dns ↦ ⟨arriveAll s.dns dns s.agents, dns⟩

/-- Replace one agent. -/
def setAgent (fd : Int) (a : Option Agents) (s : Fleet) : Fleet :=
  { s with agents := Function.update s.agents fd a }

/-- One step. -/
def step (cfg : LoadBalanceConfig) (s : Fleet) : FleetEvent → Option Fleet
  | .join i fd => (s.serve (.connect i fd)).map (setAgent fd (some Agents.new))
  | .leave i fd =>
      if (s.agents fd).isSome then (s.serve (.close i fd)).map (setAgent fd none) else none
  | .agent fd a =>
      match s.agents fd with
      | none => none
      | some agents =>
          if isOwn a then (agents.step cfg a).toOption.map fun agents ↦ s.setAgent fd (some agents)
          else none
  | .request i fd =>
      match s.agents fd with
      | none => none
      | some agents =>
          match agents.requests with
          | [] => none
          | req :: requests =>
              (s.serve (.request i fd req.modid req.cmdid)).map
                (setAgent fd (some { agents with requests := requests }))
  | .dns e => if ((target e).bind s.agents).isNone then s.serve e else none

/-- The update thread announces what it changes. -/
def Announcing (s : Fleet) : FleetEvent → Prop
  | .dns e => s.dns.Announced e
  | _ => True

/-- No request and no response is on its way, the server has finished all requests and tasks,
and the update thread has published what it has changed. -/
structure Quiet (s : Fleet) : Prop where
  agents : ∀ fd a, s.agents fd = some a → asked a = [] ∧ a.responses = []
  settled : s.dns.Settled
  published : ¬s.dns.Unpublished

end Fleet

/-- The runs of the agents and the server, from before the first agent. -/
def fleet (cfg : LoadBalanceConfig) : LTS Fleet FleetEvent where
  init s := (∀ fd, s.agents fd = none) ∧ (dnsServer.restrict DnsServer.Announced).Reachable s.dns
  step s e t := s.Announcing e ∧ s.step cfg e = some t

variable {cfg : LoadBalanceConfig} {s t : Fleet} {fd : Int} {a : Agents}

/-! ## Each agent on its own -/

/-- What the parts of the whole can reach. -/
structure FleetInv (cfg : LoadBalanceConfig) (s : Fleet) : Prop where
  dns : (dnsServer.restrict DnsServer.Announced).Reachable s.dns
  agents : ∀ fd a, s.agents fd = some a → (announcing cfg fd).Reachable ⟨a, s.dns⟩

/-- An event that is about no agent spares each of them. -/
theorem spares_of_target {e : Dns.Event} {agents : Int → Option Agents}
    (h : ((target e).bind agents).isNone = true) (ha : agents fd = some a) :
    e.spares fd = true := by
  have hne : ∀ fd', (agents fd').isNone = true → decide (fd' ≠ fd) = true := by
    rintro fd' hnone
    refine decide_eq_true ?_
    rintro rfl
    rw [ha] at hnone
    cases hnone
  cases e with
  | request i fd' => exact hne fd' h
  | close i fd' => exact hne fd' h
  | updater | deal | task | connect | proceed => rfl

theorem FleetInv.serve {e : Dns.Event} (h : FleetInv cfg s) (hann : s.dns.Announced e)
    (hst : s.serve e = some t) :
    s.dns.step e = some t.dns ∧ (dnsServer.restrict DnsServer.Announced).Reachable t.dns ∧
      ∀ fd a, t.agents fd = some a → e.spares fd = true →
        (announcing cfg fd).Reachable ⟨a, t.dns⟩ := by
  obtain ⟨dns, hdns, rfl⟩ := Option.map_eq_some_iff.mp hst
  refine ⟨hdns, h.dns.step ⟨hann, hdns⟩, fun fd a ha hspares ↦ ?_⟩
  obtain ⟨a₀, ha₀, rfl⟩ := Option.map_eq_some_iff.mp ha
  refine (h.agents fd a₀ ha₀).step (a := .dns e) ⟨hann, ?_⟩
  simp only [RouteSync.step, hspares, if_true, hdns]
  rfl

theorem FleetInv.setAgent {b : Option Agents}
    (hdns : (dnsServer.restrict DnsServer.Announced).Reachable s.dns)
    (hothers : ∀ fd' a, s.agents fd' = some a → fd' ≠ fd →
      (announcing cfg fd').Reachable ⟨a, s.dns⟩)
    (hself : ∀ a, b = some a → (announcing cfg fd).Reachable ⟨a, s.dns⟩) :
    FleetInv cfg (s.setAgent fd b) := by
  refine ⟨hdns, fun fd' a ha ↦ ?_⟩
  change Function.update s.agents fd b fd' = some a at ha
  by_cases hfd : fd' = fd
  · subst hfd
    exact hself a (by rwa [Function.update_self] at ha)
  · rw [Function.update_of_ne hfd] at ha
    exact hothers fd' a ha hfd

theorem initial_of_connect {i : ℕ} {dns dns' : DnsServer} (hr : dnsServer.Reachable dns')
    (hst : dns.step (.connect i fd) = some dns') : RouteSync.Initial fd ⟨Agents.new, dns'⟩ := by
  simp only [DnsServer.step, DnsServer.connect, Option.ite_none_right_eq_some] at hst
  obtain ⟨hidle, hst⟩ := hst
  split at hst
  · cases hst
  · refine ⟨rfl, hr, ?_⟩
    obtain rfl := Option.some.inj hst
    refine ⟨_, ExtTreeMap.getElem?_insert_self, rfl, rfl, ?_⟩
    simpa [DnsServer.setWorker] using (DnsServer.of_isIdle hidle).1

/-- Every step keeps what the parts can reach. -/
theorem FleetInv.step {e : FleetEvent} (h : FleetInv cfg s) (hann : s.Announcing e)
    (hst : s.step cfg e = some t) : FleetInv cfg t := by
  cases e with
  | join i fd₀ =>
      simp only [Fleet.step] at hst
      obtain ⟨s', hs', rfl⟩ := Option.map_eq_some_iff.mp hst
      obtain ⟨hdns, hreach, hagents⟩ := h.serve (e := .connect i fd₀) trivial hs'
      refine .setAgent hreach (fun fd a ha _ ↦ hagents fd a ha rfl) ?_
      rintro _ ⟨rfl⟩
      exact .init ⟨initial_of_connect hreach.of_restrict hdns, hreach⟩
  | leave i fd₀ =>
      simp only [Fleet.step, Option.ite_none_right_eq_some] at hst
      obtain ⟨s', hs', rfl⟩ := Option.map_eq_some_iff.mp hst.2
      obtain ⟨-, hreach, hagents⟩ := h.serve (e := .close i fd₀) trivial hs'
      refine .setAgent hreach (fun fd a ha hne ↦ hagents fd a ha ?_) fun a ha ↦ by cases ha
      exact decide_eq_true hne.symm
  | agent fd₀ act =>
      simp only [Fleet.step] at hst
      split at hst
      · cases hst
      · rename_i a₀ ha₀
        obtain ⟨hown, hst⟩ := Option.ite_none_right_eq_some.mp hst
        obtain ⟨a, hact, rfl⟩ := Option.map_eq_some_iff.mp hst
        refine .setAgent h.dns (fun fd a ha _ ↦ h.agents fd a ha) ?_
        rintro _ ⟨rfl⟩
        refine (h.agents fd₀ a₀ ha₀).step (a := .agent act) ⟨trivial, ?_⟩
        simp only [RouteSync.step, hown, if_true, hact]
        rfl
  | request i fd₀ =>
      simp only [Fleet.step] at hst
      split at hst
      · cases hst
      · rename_i a₀ ha₀
        split at hst
        · cases hst
        · rename_i req requests hreq
          obtain ⟨s', hs', rfl⟩ := Option.map_eq_some_iff.mp hst
          obtain ⟨hdns, hreach, hagents⟩ := h.serve (e := .request i fd₀ _ _) trivial hs'
          refine .setAgent hreach (fun fd a ha hne ↦ hagents fd a ha (decide_eq_true hne.symm)) ?_
          rintro _ ⟨rfl⟩
          refine (h.agents fd₀ a₀ ha₀).step (a := .request i) ⟨trivial, ?_⟩
          simp only [RouteSync.step, hreq, hdns]
          rfl
  | dns e =>
      simp only [Fleet.step, Option.ite_none_right_eq_some] at hst
      obtain ⟨htarget, hst⟩ := hst
      obtain ⟨-, hreach, hagents⟩ := h.serve hann hst
      refine ⟨hreach, fun fd a ha ↦ hagents fd a ha ?_⟩
      obtain ⟨dns, -, rfl⟩ := Option.map_eq_some_iff.mp hst
      obtain ⟨a₀, ha₀, -⟩ := Option.map_eq_some_iff.mp ha
      exact spares_of_target htarget ha₀

/-- Each agent and the server are in a state that they can reach without knowing of the
others. -/
theorem sync_of_fleet (h : (fleet cfg).Reachable s) (ha : s.agents fd = some a) :
    (announcing cfg fd).Reachable ⟨a, s.dns⟩ := by
  have hinv : FleetInv cfg s := by
    refine h.induction (I := FleetInv cfg) ?_ ?_
    · rintro s ⟨hnone, hdns⟩
      refine ⟨hdns, fun fd a ha ↦ ?_⟩
      rw [hnone fd] at ha
      cases ha
    · rintro s e t - hi ⟨hann, hst⟩
      exact hi.step hann hst
  exact hinv.agents fd a ha

/-! ## The agents agree -/

/-- **All agents have the same hosts.**  Let any number of agents join and leave a server that
announces every change, and let clients, other connections and the update thread do what
they like.  Whenever nothing is on its way, any two agents that know a module have the same
hosts for it, at least one, and they are those that the server serves. -/
theorem fleet_agrees (h : (fleet cfg).Reachable s) (hq : s.Quiet) {fd₁ fd₂ : Int}
    {a₁ a₂ : Agents} (h₁ : s.agents fd₁ = some a₁) (h₂ : s.agents fd₂ = some a₂)
    {modid cmdid : UInt32} {lb₁ lb₂ : LoadBalance}
    (hget₁ : (a₁.agentRoutes (agentIndex modid cmdid)).routeMap[modKey modid cmdid]? = some lb₁)
    (hget₂ : (a₂.agentRoutes (agentIndex modid cmdid)).routeMap[modKey modid cmdid]? = some lb₂) :
    lb₁.empty = false ∧ (∀ k, k ∈ lb₁.hostMap ↔ k ∈ lb₂.hostMap) ∧
      ∀ k, k ∈ lb₁.hostMap ↔ k ∈ s.dns.publisher.router.getHosts modid cmdid := by
  have hserved : ∀ {fd a lb}, s.agents fd = some a →
      (a.agentRoutes (agentIndex modid cmdid)).routeMap[modKey modid cmdid]? = some lb →
      lb.empty = false ∧ ∀ k, k ∈ lb.hostMap ↔ k ∈ s.dns.publisher.router.getHosts modid cmdid := by
    intro fd a lb ha hget
    obtain ⟨hasked, hresponses⟩ := hq.agents fd a ha
    obtain ⟨c, hcurrent, hlast⟩ := served_of_quiet (sync_of_fleet h ha)
      ⟨hasked, hresponses, hq.settled, hq.published⟩ hget
    exact (hcurrent.agrees hlast).2
  obtain ⟨hempty, hhosts₁⟩ := hserved h₁ hget₁
  obtain ⟨-, hhosts₂⟩ := hserved h₂ hget₂
  exact ⟨hempty, fun k ↦ (hhosts₁ k).trans (hhosts₂ k).symm, hhosts₁⟩

/-- An agent is there only after it has joined. -/
theorem Fleet.step_none {e : FleetEvent} (hst : s.step cfg e = some t)
    (hnone : s.agents fd = none) (hjoin : ∀ i, e ≠ .join i fd) : t.agents fd = none := by
  have hserve : ∀ {e s'}, s.serve e = some s' → s'.agents fd = none := by
    intro e s' hs'
    obtain ⟨dns, -, rfl⟩ := Option.map_eq_some_iff.mp hs'
    exact Option.map_eq_none_iff.mpr hnone
  have hset : ∀ {s' : Fleet} {fd' b}, s'.agents fd = none → fd ≠ fd' →
      (s'.setAgent fd' b).agents fd = none := by
    intro s' fd' b hs' hne
    exact (Function.update_of_ne hne _ _).trans hs'
  cases e with
  | join i fd' =>
      simp only [Fleet.step] at hst
      obtain ⟨s', hs', rfl⟩ := Option.map_eq_some_iff.mp hst
      exact hset (hserve hs') fun he ↦ hjoin i (by rw [he])
  | leave i fd' =>
      simp only [Fleet.step, Option.ite_none_right_eq_some] at hst
      obtain ⟨s', hs', rfl⟩ := Option.map_eq_some_iff.mp hst.2
      refine hset (hserve hs') ?_
      rintro rfl
      rw [hnone] at hst
      cases hst.1
  | agent fd' act =>
      simp only [Fleet.step] at hst
      split at hst
      · cases hst
      · rename_i a₀ ha₀
        obtain ⟨-, hst⟩ := Option.ite_none_right_eq_some.mp hst
        obtain ⟨a, -, rfl⟩ := Option.map_eq_some_iff.mp hst
        refine hset hnone ?_
        rintro rfl
        rw [hnone] at ha₀
        cases ha₀
  | request i fd' =>
      simp only [Fleet.step] at hst
      split at hst
      · cases hst
      · rename_i a₀ ha₀
        split at hst
        · cases hst
        · obtain ⟨s', hs', rfl⟩ := Option.map_eq_some_iff.mp hst
          refine hset (hserve hs') ?_
          rintro rfl
          rw [hnone] at ha₀
          cases ha₀
  | dns e =>
      simp only [Fleet.step, Option.ite_none_right_eq_some] at hst
      exact hserve hst.2

/-- An agent that does not join in a run is not there after it. -/
theorem Fleet.none_of_run {es : List FleetEvent} (hr : (fleet cfg).Run s es t)
    (hnone : s.agents fd = none) (hjoin : ∀ i, .join i fd ∉ es) : t.agents fd = none := by
  induction hr with
  | nil s => exact hnone
  | cons hst _ ih =>
      refine ih (Fleet.step_none hst.2 hnone fun i he ↦ ?_)
        fun i hi ↦ hjoin i (List.mem_cons_of_mem _ hi)
      exact hjoin i (he ▸ List.mem_cons_self)

/-- The state after a step, if it can be taken. -/
def Fleet.next (cfg : LoadBalanceConfig) (s : Fleet) (e : FleetEvent) : Fleet :=
  (s.step cfg e).getD s

/-- A server with one worker and one route. -/
def unjoined : Fleet where
  agents _ := none
  dns := DnsServer.start 1 (Router.new (.rows 5 [⟨1, 1, 3232235953, 7777⟩]))

/-- An agent joins, and the hosts of a module are pulled for its client. -/
def joining (fd : Int) : List FleetEvent :=
  [.join 0 fd, .agent fd (.getHost 1 1 1 100), .agent fd .recvTasks, .agent fd .sendTask,
    .request 0 fd, .dns (.proceed 0), .dns (.proceed 0), .dns (.proceed 0),
    .agent fd (.dnsResCb fun _ ↦ 100)]

/-- Two agents have joined. -/
def paired : Fleet := (joining 5 ++ joining 6).foldl (Fleet.next .default) unjoined

theorem paired_run : (fleet .default).Run unjoined (joining 5 ++ joining 6) paired := by
  refine LTS.Run.foldl
    (C := fun s e ↦ s.Announcing e ∧ (s.step .default e).isSome = true) ?_ ?_
  · rintro s e ⟨hann, h⟩
    obtain ⟨t, ht⟩ := Option.isSome_iff_exists.mp h
    refine ⟨hann, ?_⟩
    show s.step .default e = some ((s.step .default e).getD s)
    rw [ht]
    rfl
  · repeat' constructor

theorem paired_quiet : paired.Quiet := by
  refine ⟨fun fd a ha ↦ ?_, ⟨rfl, fun i hi ↦ ?_⟩, ?_⟩
  · have hdone : ∀ a' : Option Agents, (a'.all fun a ↦ (asked a).isEmpty && a.responses.isEmpty) =
        true → a' = some a → asked a = [] ∧ a.responses = [] := by
      rintro _ h rfl
      simpa using h
    by_cases h5 : fd = 5
    · exact hdone (paired.agents 5) (by decide) (h5 ▸ ha)
    · by_cases h6 : fd = 6
      · exact hdone (paired.agents 6) (by decide) (h6 ▸ ha)
      · have hnone : paired.agents fd = none :=
          Fleet.none_of_run paired_run rfl (by simp [joining, h5, h6])
        rw [hnone] at ha
        cases ha
  · obtain rfl := Nat.lt_one_iff.mp hi
    exact ⟨rfl, rfl, .inl rfl⟩
  · rintro (h | ⟨⟨mods, h⟩, -⟩) <;> cases h

/-- Two agents that have pulled the module have the same host. -/
theorem fleet_agrees_paired :
    ∃ a₁ a₂ lb₁ lb₂, paired.agents 5 = some a₁ ∧ paired.agents 6 = some a₂ ∧
      (a₁.agentRoutes (agentIndex 1 1)).routeMap[modKey 1 1]? = some lb₁ ∧
      (a₂.agentRoutes (agentIndex 1 1)).routeMap[modKey 1 1]? = some lb₂ ∧
      lb₁.empty = false ∧ (∀ k, k ∈ lb₁.hostMap ↔ k ∈ lb₂.hostMap) ∧
        ∀ k, k ∈ lb₁.hostMap ↔ k ∈ paired.dns.publisher.router.getHosts 1 1 := by
  have hentry : ∀ fd, ((paired.agents fd).bind fun a ↦
      (a.agentRoutes (agentIndex 1 1)).routeMap[modKey 1 1]?).isSome = true →
      ∃ a lb, paired.agents fd = some a ∧
        (a.agentRoutes (agentIndex 1 1)).routeMap[modKey 1 1]? = some lb := by
    intro fd h
    obtain ⟨lb, hlb⟩ := Option.isSome_iff_exists.mp h
    obtain ⟨a, ha, hget⟩ := Option.bind_eq_some_iff.mp hlb
    exact ⟨a, lb, ha, hget⟩
  obtain ⟨a₁, lb₁, h₁, hget₁⟩ := hentry 5 (by decide)
  obtain ⟨a₂, lb₂, h₂, hget₂⟩ := hentry 6 (by decide)
  have hreach : (fleet .default).Reachable paired :=
    LTS.Reachable.run (.init ⟨fun _ ↦ rfl, .init ⟨1, _, rfl⟩⟩) paired_run
  exact ⟨a₁, a₂, lb₁, lb₂, h₁, h₂, hget₁, hget₂, fleet_agrees hreach paired_quiet h₁ h₂ hget₁ hget₂⟩

end Ylars.System
