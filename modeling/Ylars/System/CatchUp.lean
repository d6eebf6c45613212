import Mathlib.Data.Prod.Lex
import Ylars.Dns.Workload
import Ylars.System.RouteSync

/-!
# The work that is left

Let nothing new come from outside: no client asks the agent, no other connection sends a
request, and the update thread only finishes the publication that it is in.  What the agent
and the server have still to do with the messages between them then comes to an end, in
whatever order their threads take their steps (`acc_working`), and no thread waits for ever:
when it has come to an end nothing is on its way (`quiet_of_atRest`).
-/

namespace Ylars.System

open Std (ExtTreeMap ExtTreeSet)
open Ylars.Lib Ylars.Proto Ylars.Agent Ylars.Dns

namespace RouteSync

/-- Whether an event is work that is left in the agent, on the connection or in the server. -/
def Works (s : RouteSync) : SyncEvent → Prop
  | .agent .recvTasks => s.agents.tasks = [] ∧ s.agents.dnsQueue ≠ []
  | .agent .sendTask => s.agents.tasks ≠ []
  | .agent (.dnsResCb _) => s.agents.responses ≠ []
  | .agent _ => False
  | .request _ => True
  | .dns e => s.dns.Works e

/-- What is on its way, each thing counted with the steps it can still cause. -/
def load (s : RouteSync) : ℕ :=
  7 * s.agents.dnsQueue.length + 6 * s.agents.tasks.length + 5 * s.agents.requests.length +
    s.agents.responses.length + s.dns.workLeft

/-- The rank: the tasks of the server come first. -/
def rank (s : RouteSync) : ℕ ×ₗ ℕ := toLex (s.dns.tasksLeft, s.load)

end RouteSync

/-- The runs in which nothing new comes from outside. -/
def working (cfg : LoadBalanceConfig) (fd : Int) : LTS RouteSync SyncEvent :=
  (routeSync cfg fd).restrict RouteSync.Works

variable {cfg : LoadBalanceConfig} {fd : Int} {s t : RouteSync} {e : SyncEvent} {lb : LoadBalance}

/-! ## The work comes to an end -/

/-- A response is handled: there is one less. -/
theorem dnsResCb_eq {a b : Agents} {clock : Clock} (h : a.step cfg (.dnsResCb clock) = .ok b)
    (hne : a.responses ≠ []) : b.dnsQueue = a.dnsQueue ∧ b.tasks = a.tasks ∧
      b.requests = a.requests ∧ b.responses.length + 1 = a.responses.length := by
  obtain ⟨resp, rest, hrs⟩ := List.exists_cons_of_ne_nil hne
  simp only [Agents.step, hrs, Outcome.bind_eq_ok] at h
  obtain ⟨r, -, hb⟩ := h
  obtain rfl := Except.ok.inj hb
  exact ⟨List.append_nil _, rfl, rfl, by rw [hrs]; rfl⟩

/-- Work that is done lowers the rank. -/
theorem rank_lt (h : (routeSync cfg fd).Reachable s) (he : s.Works e)
    (hst : s.step cfg fd e = some t) : t.rank < s.rank := by
  simp only [RouteSync.rank, Prod.Lex.toLex_lt_toLex]
  cases e with
  | agent a =>
      simp only [RouteSync.step, Option.ite_none_right_eq_some, Option.map_eq_some_iff,
        Outcome.toOption_eq_some] at hst
      obtain ⟨-, agents, hagent, rfl⟩ := hst
      refine .inr ⟨rfl, ?_⟩
      cases a with
      | recvTasks =>
          obtain ⟨htasks, hqueue⟩ := he
          have hpos := List.length_pos_of_ne_nil hqueue
          simp only [Agents.step, htasks] at hagent
          obtain rfl := Except.ok.inj hagent
          simp only [RouteSync.load, htasks, List.length_nil]
          omega
      | sendTask =>
          obtain ⟨task, tasks, htasks⟩ := List.exists_cons_of_ne_nil he
          simp only [Agents.step, htasks] at hagent
          obtain rfl := Except.ok.inj hagent
          simp only [RouteSync.load, htasks, List.length_cons, List.length_append, List.length_nil]
          omega
      | dnsResCb clock =>
          obtain ⟨h₁, h₂, h₃, hlen⟩ := dnsResCb_eq hagent he
          simp only [RouteSync.load, h₁, h₂, h₃]
          omega
      | getHost | getRoute | reportHost | dnsAnswer | dnsPush => exact absurd he id
  | request i =>
      simp only [RouteSync.step] at hst
      split at hst
      · cases hst
      · rename_i req requests hs
        obtain ⟨dns, hdns, rfl⟩ := Option.map_eq_some_iff.mp hst
        obtain ⟨htasks, hwork⟩ := DnsServer.request_work hdns
        refine .inr ⟨htasks, ?_⟩
        simp only [RouteSync.load, hs, List.length_cons]
        omega
  | dns e =>
      simp only [RouteSync.step, Option.ite_none_right_eq_some, Option.map_eq_some_iff] at hst
      obtain ⟨-, dns, hdns, rfl⟩ := hst
      rcases DnsServer.works_lowers (inv_of_reachable h).reachable he hdns with
        hlt | ⟨htasks, hwork⟩
      · exact .inl hlt
      · have := hwork fd
        refine .inr ⟨htasks, ?_⟩
        simp only [RouteSync.load, arrive, List.length_append, List.length_map, List.length_drop]
        omega

/-- Work that is done leaves the served table, and nothing of it has to be announced. -/
theorem served_of_works (h : (routeSync cfg fd).Reachable s) (he : s.Works e)
    (hst : s.step cfg fd e = some t) : s.Announcing e ∧
      t.dns.publisher.router = s.dns.publisher.router ∧
        (¬s.dns.Unpublished → ¬t.dns.Unpublished) := by
  cases e with
  | agent a =>
      simp only [RouteSync.step, Option.ite_none_right_eq_some, Option.map_eq_some_iff] at hst
      obtain ⟨-, agents, -, rfl⟩ := hst
      exact ⟨trivial, rfl, id⟩
  | request i =>
      simp only [RouteSync.step] at hst
      split at hst
      · cases hst
      · obtain ⟨dns, hdns, rfl⟩ := Option.map_eq_some_iff.mp hst
        obtain ⟨hpub, hsend, -, -⟩ := DnsServer.sameThread_step hdns fun a ha ↦ by cases ha
        exact ⟨trivial, by rw [hpub], fun hun ↦ by rwa [DnsServer.Unpublished, hpub, hsend]⟩
  | dns e =>
      simp only [RouteSync.step, Option.ite_none_right_eq_some, Option.map_eq_some_iff] at hst
      obtain ⟨-, dns, hdns, rfl⟩ := hst
      obtain ⟨hrouter, hannounced, hun⟩ :=
        DnsServer.served_of_works (inv_of_reachable h).reachable he hdns
      exact ⟨hannounced, hrouter, hun⟩

/-- No table is installed. -/
theorem tables_of_works (h : (routeSync cfg fd).Reachable s) (he : s.Works e)
    (hst : s.step cfg fd e = some t) : t.dns.tables = s.dns.tables := by
  cases e with
  | agent a =>
      simp only [RouteSync.step, Option.ite_none_right_eq_some, Option.map_eq_some_iff] at hst
      obtain ⟨-, agents, -, rfl⟩ := hst
      rfl
  | request i =>
      simp only [RouteSync.step] at hst
      split at hst
      · cases hst
      · obtain ⟨dns, hdns, rfl⟩ := Option.map_eq_some_iff.mp hst
        obtain ⟨hpub, -, hpast, -⟩ := DnsServer.sameThread_step hdns fun a ha ↦ by cases ha
        simp only [DnsServer.tables, hpub, hpast]
  | dns e =>
      simp only [RouteSync.step, Option.ite_none_right_eq_some, Option.map_eq_some_iff] at hst
      obtain ⟨-, dns, hdns, rfl⟩ := hst
      exact DnsServer.tables_of_works (inv_of_reachable h).reachable he hdns

/-- The work that is left comes to an end, in whatever order it is done. -/
theorem acc_working (h : (routeSync cfg fd).Reachable s) : Acc (working cfg fd).Next s := by
  refine LTS.acc_of_rank (r := (· < ·)) wellFounded_lt RouteSync.rank
    (I := (routeSync cfg fd).Reachable) (fun s e t hs hst ↦ ?_) h
  exact ⟨hs.step hst.2, rank_lt hs hst.1 hst.2⟩

/-! ## When no work is left -/

/-- A response can be handled. -/
theorem exists_dnsResCb {a : Agents} (h : AgentsSound cfg a.agentRoutes) (clock : Clock) :
    ∃ b, a.step cfg (.dnsResCb clock) = .ok b := by
  cases hrs : a.responses with
  | nil =>
      simp only [Agents.step, hrs]
      exact ⟨a, rfl⟩
  | cons resp rest =>
      obtain ⟨b, routes, hst, -⟩ := agentStore_step h (.updateHost resp.message clock)
      simp only [Store.split, routeStore, Outcome.map_eq_ok, RouteLb.step,
        Outcome.bind_eq_ok] at hst
      obtain ⟨_, ⟨r, hr, -⟩, -⟩ := hst
      change (a.agentRoutes (homeOf (modKey _ _))).updateHost cfg clock resp.message = .ok r at hr
      rw [homeOf_modKey] at hr
      exact ⟨_, by simp only [Agents.step, hrs, hr]; rfl⟩

/-- When no work is left, nothing is on its way. -/
theorem quiet_of_atRest (h : (routeSync cfg fd).Reachable s) (hpub : ¬s.dns.Unpublished)
    (hrest : (working cfg fd).AtRest s) : s.Quiet := by
  obtain ⟨hsound, hreach, c, hsync⟩ := inv_of_reachable h
  have hagent : ∀ a b, s.Works (.agent a) → isOwn a = true → s.agents.step cfg a ≠ .ok b := by
    intro a b hw ha hb
    refine hrest (.agent a) ⟨b, s.dns⟩ ⟨hw, ?_⟩
    show (if isOwn a = true then _ else none) = _
    rw [if_pos ha, hb]
    rfl
  have hdns : ∀ e t, s.dns.Works e → s.dns.step e ≠ some t := by
    intro e t hw ht
    have hspares : e.spares fd = true := by
      cases e with
      | request | close => exact absurd hw id
      | updater | deal | task | connect | proceed => rfl
    obtain ⟨u, hu⟩ : ∃ u, s.step cfg fd (.dns e) = some u := by
      simp only [RouteSync.step, hspares, if_true, ht, Option.map_some]
      exact ⟨_, rfl⟩
    exact hrest (.dns e) u ⟨hw, hu⟩
  obtain ⟨hsettled, hidle⟩ := DnsServer.settled_of_rest hdns
  have hc := (DnsServer.inv_of_reachable hreach).conn fd c hsync.conn
  have htasks : s.agents.tasks = [] := by
    by_contra hne
    obtain ⟨task, tasks, htasks⟩ := List.exists_cons_of_ne_nil hne
    exact hagent .sendTask _ hne rfl (by simp only [Agents.step, htasks]; rfl)
  have hqueue : s.agents.dnsQueue = [] := by
    by_contra hne
    exact hagent .recvTasks _ ⟨htasks, hne⟩ rfl (by simp only [Agents.step, htasks]; rfl)
  have hrequests : s.agents.requests = [] := by
    by_contra hne
    obtain ⟨req, requests, hs⟩ := List.exists_cons_of_ne_nil hne
    -- the worker of the connection waits, so it can read the request
    obtain ⟨dns, hst⟩ :
        ∃ dns, s.dns.step (.request c.worker fd req.modid req.cmdid) = some dns := by
      rw [DnsServer.step, if_pos (DnsServer.isIdle_of_pc hc.inRange (hidle _ hc.inRange)),
        DnsServer.getReq, hsync.conn]
      simp only [hc.listed, not_true_eq_false, if_false]
      split
      · exact ⟨_, rfl⟩
      · exact ⟨_, rfl⟩
    obtain ⟨u, hu⟩ : ∃ u, s.step cfg fd (.request c.worker) = some u := by
      simp only [RouteSync.step, hs, hst, Option.map_some]
      exact ⟨_, rfl⟩
    exact hrest (.request c.worker) u ⟨trivial, hu⟩
  refine ⟨?_, ?_, hsettled, hpub⟩
  · rw [asked, hqueue, htasks, hrequests]
    rfl
  · by_contra hne
    obtain ⟨b, hb⟩ := exists_dnsResCb hsound fun _ ↦ 0
    exact hagent (.dnsResCb fun _ ↦ 0) b hne rfl hb

end Ylars.System
