import Ylars.Agent.Entries
import Ylars.Dns.Announced
import Ylars.Dns.OneConn

/-!
# The agent and the dns server

The agent keeps the hosts of the modules that its clients ask for, and the dns server keeps
the routes.  `RouteSync` is both of them with the connection `fd` between them: requests of
the agent go to the worker of the connection in order, and what the server buffers on it
comes back in order, answers and pushes alike.  Other clients of the server, its update
thread and its other workers do what they like.

Whenever nothing is on its way, the agent has for every module the hosts that the server
serves (`agents_agree`).
-/

namespace Ylars.System

open Std (ExtTreeMap ExtTreeSet)
open Ylars.Lib Ylars.Proto Ylars.Agent Ylars.Dns

/-- The agent and the dns server. -/
structure RouteSync where
  agents : Agents
  dns : DnsServer

/-- What happens next. -/
inductive SyncEvent where
  /-- Something happens in the agent. -/
  | agent (a : Agent.Action)
  /-- A worker of the server reads the next request of the agent. -/
  | request (i : ℕ)
  /-- Something else happens in the server. -/
  | dns (e : Dns.Event)

/-- Whether the agent does it: it does not answer itself. -/
def isOwn : Agent.Action → Bool
  | .dnsAnswer _ => false
  | .dnsPush _ => false
  | _ => true

/-- The responses come to the agent. -/
def arrive (answers : List Answer) (s : Agents) : Agents :=
  { s with responses := s.responses ++ answers.map fun a ↦ .push a.res }

namespace RouteSync

/-- One step. -/
def step (cfg : LoadBalanceConfig) (fd : Int) (s : RouteSync) : SyncEvent → Option RouteSync
  | .agent a =>
      if isOwn a then (s.agents.step cfg a).toOption.map fun agents ↦ { s with agents := agents }
      else none
  | .request i =>
      match s.agents.requests with
      | [] => none
      | req :: requests =>
          (s.dns.step (.request i fd req.modid req.cmdid)).map fun dns ↦
            ⟨{ s.agents with requests := requests }, dns⟩
  | .dns e =>
      if e.spares fd then
        (s.dns.step e).map fun dns ↦
          ⟨arrive ((answersOf fd dns).drop (answersOf fd s.dns).length) s.agents, dns⟩
      else none

/-- The update thread announces what it changes. -/
def Announcing (s : RouteSync) : SyncEvent → Prop
  | .dns e => s.dns.Announced e
  | _ => True

/-- The agent at its start, and a server that it has just been connected to. -/
structure Initial (fd : Int) (s : RouteSync) : Prop where
  agents : s.agents = Agents.new
  dns : dnsServer.Reachable s.dns
  conn : ∃ c, s.dns.conns[fd]? = some c ∧ c.modSet = ∅ ∧ c.answers = [] ∧
    (s.dns.workers c.worker).pc = .idle

end RouteSync

/-- The runs of the agent and the server. -/
def routeSync (cfg : LoadBalanceConfig) (fd : Int) : LTS RouteSync SyncEvent where
  init := RouteSync.Initial fd
  step s e t := s.step cfg fd e = some t

/-- The runs in which the server announces what it changes, also before the agent comes. -/
def announcing (cfg : LoadBalanceConfig) (fd : Int) : LTS RouteSync SyncEvent where
  init s := s.Initial fd ∧ (dnsServer.restrict DnsServer.Announced).Reachable s.dns
  step s e t := s.Announcing e ∧ s.step cfg fd e = some t

/-! ## What the agent does -/

variable {cfg : LoadBalanceConfig} {fd : Int}

/-- The requests that the server has not read yet. -/
def asked (s : Agents) : List GetRouteRequest := s.dnsQueue ++ s.tasks ++ s.requests

/-- A module has been asked for. -/
def Asked (s : Agents) (m : UInt64) : Prop := ∃ req ∈ asked s, modKey req.modid req.cmdid = m

/-- What a step of the agent is: an operation for a client, a move of the requests, or a
response that is handled. -/
inductive Moves (cfg : LoadBalanceConfig) (s : Agents) : Agents → Prop where
  | client {a : RouteOp} {b : RouteResult} {routes : Fin 3 → RouteLb}
      (hst : (agentStore cfg).step a s.agentRoutes = .ok (b, routes))
      (ha : ∀ res clock, a ≠ .updateHost res clock) :
      Moves cfg s { s with agentRoutes := routes, dnsQueue := s.dnsQueue ++ b.pulls }
  | queues {t : Agents} (hroutes : t.agentRoutes = s.agentRoutes)
      (hresponses : t.responses = s.responses) (hasked : ∀ req, req ∈ asked s ↔ req ∈ asked t) :
      Moves cfg s t
  | update (clock : Clock) {resp : Response} {rest : List Response} {b : RouteResult}
      {routes : Fin 3 → RouteLb} (hs : s.responses = resp :: rest)
      (hst : (agentStore cfg).step (.updateHost resp.message clock) s.agentRoutes =
        .ok (b, routes)) : Moves cfg s { s with agentRoutes := routes, responses := rest }

theorem moves_of_step {s t : Agents} {a : Agent.Action} (ha : isOwn a = true)
    (hst : s.step cfg a = .ok t) : Moves cfg s t := by
  cases a with
  | getHost seq modid cmdid now =>
      simp only [Agents.step, Outcome.bind_eq_ok] at hst
      obtain ⟨⟨ret, res, reqs, r⟩, hget, ht⟩ := hst
      obtain rfl := Except.ok.inj ht
      exact .client (a := .getHost seq modid cmdid now) (b := .host ret res reqs)
        (agentStore_step_eq (homeOf_modKey modid cmdid) (by simp only [RouteLb.step, hget]; rfl))
        fun _ _ h ↦ by cases h
  | getRoute modid cmdid now =>
      simp only [Agents.step, Outcome.bind_eq_ok] at hst
      obtain ⟨⟨ret, res, reqs, r⟩, hget, ht⟩ := hst
      obtain rfl := Except.ok.inj ht
      exact .client (a := .getRoute modid cmdid now) (b := .route ret res reqs)
        (agentStore_step_eq (homeOf_modKey modid cmdid) (by simp only [RouteLb.step, hget]; rfl))
        fun _ _ h ↦ by cases h
  | reportHost req clock =>
      simp only [Agents.step, Outcome.bind_eq_ok] at hst
      obtain ⟨⟨status, r⟩, hget, ht⟩ := hst
      obtain rfl := Except.ok.inj ht
      exact .client (a := .reportHost req clock) (b := .status status)
        (agentStore_step_eq (homeOf_modKey req.modid req.cmdid)
          (by simp only [RouteLb.step, hget]; rfl)) fun _ _ h ↦ by cases h
  | recvTasks =>
      simp only [Agents.step] at hst
      cases hts : s.tasks with
      | nil =>
          rw [hts] at hst
          obtain rfl := Except.ok.inj hst
          exact .queues rfl rfl fun req ↦ by simp [asked, hts]
      | cons task tasks =>
          rw [hts] at hst
          obtain rfl := Except.ok.inj hst
          exact .queues rfl rfl fun _ ↦ Iff.rfl
  | sendTask =>
      simp only [Agents.step] at hst
      cases hts : s.tasks with
      | nil =>
          rw [hts] at hst
          obtain rfl := Except.ok.inj hst
          exact .queues rfl rfl fun _ ↦ Iff.rfl
      | cons task tasks =>
          rw [hts] at hst
          obtain rfl := Except.ok.inj hst
          refine .queues rfl rfl fun req ↦ ?_
          simp only [asked, hts, List.mem_append, List.mem_cons, List.not_mem_nil, or_false]
          tauto
  | dnsAnswer host => cases ha
  | dnsPush res => cases ha
  | dnsResCb clock =>
      simp only [Agents.step] at hst
      cases hrs : s.responses with
      | nil =>
          rw [hrs] at hst
          obtain rfl := Except.ok.inj hst
          exact .queues rfl rfl fun _ ↦ Iff.rfl
      | cons resp rest =>
          rw [hrs] at hst
          simp only [Outcome.bind_eq_ok] at hst
          obtain ⟨r, hupdate, ht⟩ := hst
          obtain rfl := Except.ok.inj ht
          have hmove : Moves cfg s { s with
              agentRoutes := Function.update s.agentRoutes
                (agentIndex resp.message.modid resp.message.cmdid) r
              responses := rest } :=
            .update clock (b := .updated) hrs
              (agentStore_step_eq (homeOf_modKey resp.message.modid resp.message.cmdid)
                (by simp only [RouteLb.step, hupdate]; rfl))
          simpa only [Agents.put, List.append_nil] using hmove

/-! ## The invariant -/

/-- The module of a response. -/
def keyOf (resp : Response) : UInt64 := modKey resp.message.modid resp.message.cmdid

/-- The entry of a module has the hosts of the last response that was buffered for it. -/
def Current (c : Conn) (m : UInt64) (lb : LoadBalance) : Prop :=
  ∃ a, c.last m = some a ∧ a.res.host ≠ [] ∧ lb.status = some .new ∧
    ∀ k, k ∈ lb.hostMap ↔ ∃ host ∈ a.res.host, hostKey host.ip host.port = k

/-- What is known of an entry: its module has been asked for, and its hosts are those that
the server sent last, unless something is on its way. -/
structure EntryInv (s : RouteSync) (fd : Int) (c : Conn) (m : UInt64) (lb : LoadBalance) :
    Prop where
  requested : m ∈ c.modSet ∨ Asked s.agents m
  known : Asked s.agents m ∨ (s.dns.workers c.worker).pc.InHand fd m ∨
    (∃ resp ∈ s.agents.responses, keyOf resp = m) ∨ Current c m lb

/-- The agent follows what is buffered on its connection. -/
structure Synced (cfg : LoadBalanceConfig) (fd : Int) (s : RouteSync) (c : Conn) : Prop where
  conn : s.dns.conns[fd]? = some c
  open_ : ¬(s.dns.workers c.worker).pc.Closes fd
  arrived : s.agents.responses.map Response.message <:+ c.answers.map Answer.res
  entries : ∀ m lb, (agentStore cfg).get s.agents.agentRoutes m = some lb → EntryInv s fd c m lb

/-- What every step keeps. -/
structure SyncInv (cfg : LoadBalanceConfig) (fd : Int) (s : RouteSync) : Prop where
  sound : AgentsSound cfg s.agents.agentRoutes
  reachable : dnsServer.Reachable s.dns
  synced : ∃ c, Synced cfg fd s c

variable {s : RouteSync} {c c' : Conn} {m : UInt64} {lb : LoadBalance}

/-- When no later response is for its module, a response is the last one for it. -/
theorem last_of_suffix {resp : Response} {rest : List Response}
    (h : (resp :: rest).map Response.message <:+ c.answers.map Answer.res)
    (hrest : ∀ resp' ∈ rest, keyOf resp' ≠ keyOf resp) :
    ∃ a, c.last (keyOf resp) = some a ∧ a.res = resp.message := by
  obtain ⟨pre, hpre⟩ := h
  obtain ⟨as, bs, hanswers, -, hbs⟩ := List.map_eq_append_iff.mp hpre.symm
  obtain ⟨a, as', rfl, ha, has'⟩ := List.map_eq_cons_iff.mp hbs
  refine ⟨a, ?_, ha⟩
  have hmod : a.mod = keyOf resp := by
    rw [Answer.mod, ha]
    rfl
  have hlate : as'.filter (fun a ↦ a.mod = keyOf resp) = [] := by
    refine List.filter_eq_nil_iff.mpr fun a' ha' hm ↦ ?_
    have hmem : a'.res ∈ rest.map Response.message := has' ▸ List.mem_map_of_mem ha'
    obtain ⟨resp', hresp', hmsg⟩ := List.mem_map.mp hmem
    refine hrest resp' hresp' ?_
    rw [← of_decide_eq_true hm, Answer.mod, ← hmsg]
    rfl
  rw [Conn.last, hanswers, List.filter_append, List.filter_cons_of_pos (by simpa using hmod), hlate,
    List.getLast?_concat]

theorem last_append {new : List Answer} (h : c'.answers = c.answers ++ new)
    (hnew : ∀ a ∈ new, a.mod ≠ m) : c'.last m = c.last m := by
  have hnone : new.filter (fun a ↦ a.mod = m) = [] :=
    List.filter_eq_nil_iff.mpr fun a ha hm ↦ hnew a ha (of_decide_eq_true hm)
  rw [Conn.last, h, List.filter_append, hnone, List.append_nil, Conn.last]

/-! ## Every step keeps it -/

theorem Synced.client {a : RouteOp} {b : RouteResult} {routes : Fin 3 → RouteLb}
    (h : Synced cfg fd s c) (hsound : AgentsSound cfg s.agents.agentRoutes)
    (hst : (agentStore cfg).step a s.agents.agentRoutes = .ok (b, routes))
    (ha : ∀ res clock, a ≠ .updateHost res clock) :
    Synced cfg fd { s with agents := { s.agents with
      agentRoutes := routes
      dnsQueue := s.agents.dnsQueue ++ b.pulls } } c := by
  refine ⟨h.conn, h.open_, h.arrived, fun m lb hget ↦ ?_⟩
  obtain ⟨b', routes', hst', -, hother, hself⟩ := agentStore_step hsound a
  obtain ⟨rfl, rfl⟩ := Prod.mk.inj (Except.ok.inj (hst'.symm.trans hst))
  have hasked : ∀ {m}, Asked s.agents m → Asked { s.agents with
      agentRoutes := routes', dnsQueue := s.agents.dnsQueue ++ b'.pulls } m := by
    rintro m ⟨req, hreq, hkey⟩
    refine ⟨req, ?_, hkey⟩
    simp only [asked, List.mem_append] at hreq ⊢
    tauto
  have hkeep : ∀ lb₀, (agentStore cfg).get s.agents.agentRoutes m = some lb₀ →
      lb.hostMap = lb₀.hostMap → lb.status = lb₀.status → EntryInv { s with agents :=
        { s.agents with agentRoutes := routes', dnsQueue := s.agents.dnsQueue ++ b'.pulls } }
        fd c m lb := by
    intro lb₀ hget₀ hmap hstatus
    obtain ⟨hreq, hknown⟩ := h.entries m lb₀ hget₀
    refine ⟨hreq.imp_right hasked, ?_⟩
    rcases hknown with hk | hk | hk | hk
    · exact .inl (hasked hk)
    · exact .inr (.inl hk)
    · exact .inr (.inr (.inl hk))
    · refine .inr (.inr (.inr ?_))
      rw [Current, hmap, hstatus]
      exact hk
  by_cases hm : m = a.key
  · subst hm
    have hleaves := hself lb hget
    have hor : (∃ req ∈ b'.pulls, modKey req.modid req.cmdid = a.key) ∨
        ∃ lb₀ ∈ (agentStore cfg).get s.agents.agentRoutes a.key,
          lb.hostMap = lb₀.hostMap ∧ lb.status = lb₀.status := by
      cases a with
      | updateHost res clock => exact absurd rfl (ha res clock)
      | getHost | getRoute | reportHost => exact hleaves
    rcases hor with ⟨req, hreq, hkey⟩ | ⟨lb₀, hget₀, hmap, hstatus⟩
    · have hnew : Asked { s.agents with
          agentRoutes := routes', dnsQueue := s.agents.dnsQueue ++ b'.pulls } a.key :=
        ⟨req, by simp [asked, hreq], hkey⟩
      exact ⟨.inr hnew, .inl hnew⟩
    · exact hkeep lb₀ hget₀ hmap hstatus
  · rw [hother m hm] at hget
    exact hkeep lb hget rfl rfl

theorem Synced.queues {t : Agents} (h : Synced cfg fd s c)
    (hroutes : t.agentRoutes = s.agents.agentRoutes) (hresponses : t.responses = s.agents.responses)
    (hasked : ∀ req, req ∈ asked s.agents ↔ req ∈ asked t) :
    Synced cfg fd { s with agents := t } c := by
  have hsame : ∀ m, Asked s.agents m ↔ Asked t m := fun m ↦
    exists_congr fun req ↦ and_congr_left fun _ ↦ hasked req
  refine ⟨h.conn, h.open_, ?_, fun m lb hget ↦ ?_⟩
  · show t.responses.map _ <:+ _
    rw [hresponses]
    exact h.arrived
  · change (agentStore cfg).get t.agentRoutes m = some lb at hget
    rw [hroutes] at hget
    obtain ⟨hreq, hknown⟩ := h.entries m lb hget
    refine ⟨hreq.imp_right (hsame m).mp, ?_⟩
    show Asked t m ∨ _ ∨ (∃ resp ∈ t.responses, _) ∨ _
    rw [← hsame, hresponses]
    exact hknown

theorem Synced.update {resp : Response} {rest : List Response} {clock : Clock} {b : RouteResult}
    {routes : Fin 3 → RouteLb} (h : Synced cfg fd s c)
    (hsound : AgentsSound cfg s.agents.agentRoutes) (hs : s.agents.responses = resp :: rest)
    (hst : (agentStore cfg).step (.updateHost resp.message clock) s.agents.agentRoutes =
      .ok (b, routes)) :
    Synced cfg fd { s with agents := { s.agents with
      agentRoutes := routes
      responses := rest } } c := by
  obtain ⟨b', routes', hst', -, hother, hself⟩ :=
    agentStore_step hsound (.updateHost resp.message clock)
  obtain ⟨rfl, rfl⟩ := Prod.mk.inj (Except.ok.inj (hst'.symm.trans hst))
  have harrived := h.arrived
  rw [hs] at harrived
  refine ⟨h.conn, h.open_, (List.suffix_cons _ _).trans harrived, fun m lb hget ↦ ?_⟩
  by_cases hm : m = keyOf resp
  · subst hm
    obtain ⟨⟨lb₀, hget₀⟩, hne, hstatus, hmap⟩ := hself lb hget
    obtain ⟨hreq, hknown⟩ := h.entries (keyOf resp) lb₀ hget₀
    refine ⟨hreq, ?_⟩
    by_cases hlate : ∃ resp' ∈ rest, keyOf resp' = keyOf resp
    · exact .inr (.inr (.inl hlate))
    · -- nothing for the module is left behind the response
      obtain ⟨a, hlast, hres⟩ := last_of_suffix harrived fun resp' hmem hk ↦
        hlate ⟨resp', hmem, hk⟩
      refine .inr (.inr (.inr ⟨a, hlast, ?_, hstatus, ?_⟩))
      · rw [hres]
        exact hne
      · rw [hres]
        exact hmap
  · rw [show (agentStore cfg).get routes' m = _ from hother m hm] at hget
    obtain ⟨hreq, hknown⟩ := h.entries m lb hget
    refine ⟨hreq, ?_⟩
    rcases hknown with hk | hk | ⟨resp', hmem, hk⟩ | hk
    · exact .inl hk
    · exact .inr (.inl hk)
    · rw [hs] at hmem
      rcases List.mem_cons.mp hmem with rfl | hmem
      · exact absurd hk.symm hm
      · exact .inr (.inr (.inl ⟨resp', hmem, hk⟩))
    · exact .inr (.inr (.inr hk))

theorem Synced.serves {dns : DnsServer} {new : List Answer} (h : Synced cfg fd s c)
    (hserves : DnsServer.Serves s.dns dns fd c c' new) :
    Synced cfg fd ⟨arrive new s.agents, dns⟩ c' := by
  refine ⟨hserves.conn, ?_, ?_, fun m lb hget ↦ ?_⟩
  · rw [hserves.worker]
    exact hserves.open_
  · show (s.agents.responses ++ new.map fun a ↦ Response.push a.res).map _ <:+ _
    rw [hserves.answers, List.map_append, List.map_append, List.map_map]
    exact (List.suffix_append_inj_of_length_eq (by simp)).mpr ⟨h.arrived, rfl⟩
  · obtain ⟨hreq, hknown⟩ := h.entries m lb hget
    refine ⟨by rw [hserves.modSet]; exact hreq, ?_⟩
    have hnew : (∃ a ∈ new, a.mod = m) →
        ∃ resp ∈ (arrive new s.agents).responses, keyOf resp = m := by
      rintro ⟨a, ha, hmod⟩
      exact ⟨.push a.res, List.mem_append_right _ (List.mem_map_of_mem ha), hmod⟩
    rcases hknown with hk | hk | ⟨resp, hmem, hk⟩ | ⟨a, hlast, hk⟩
    · exact .inl hk
    · rcases hserves.inHand m hk with hk | hk
      · rw [hserves.worker]
        exact .inr (.inl hk)
      · exact .inr (.inr (.inl (hnew hk)))
    · exact .inr (.inr (.inl ⟨resp, List.mem_append_left _ hmem, hk⟩))
    · by_cases hmod : ∃ a ∈ new, a.mod = m
      · exact .inr (.inr (.inl (hnew hmod)))
      · refine .inr (.inr (.inr ⟨a, ?_, hk⟩))
        rw [last_append hserves.answers fun a ha hm ↦ hmod ⟨a, ha, hm⟩, hlast]

theorem Synced.request {dns : DnsServer} {req : GetRouteRequest} {requests : List GetRouteRequest}
    {i : ℕ} (h : Synced cfg fd s c) (hi : s.dns.Inv)
    (hs : s.agents.requests = req :: requests)
    (hst : s.dns.step (.request i fd req.modid req.cmdid) = some dns) :
    ∃ c', Synced cfg fd ⟨{ s.agents with requests := requests }, dns⟩ c' := by
  obtain ⟨c', hconn, hw, hanswers, hmem, hsub, hhand, hopen, hnone⟩ :=
    DnsServer.conn_request hi hst h.conn
  refine ⟨c', hconn, by rwa [hw], by rw [hanswers]; exact h.arrived, fun m lb hget ↦ ?_⟩
  obtain ⟨hreq, hknown⟩ := h.entries m lb hget
  have hasked : Asked s.agents m → m = modKey req.modid req.cmdid ∨
      Asked { s.agents with requests := requests } m := by
    rintro ⟨req', hreq', hkey⟩
    simp only [asked, hs, List.mem_append, List.mem_cons] at hreq'
    rcases hreq' with hreq' | rfl | hreq'
    · exact .inr ⟨req', by simp only [asked, List.mem_append]; exact .inl hreq', hkey⟩
    · exact .inl hkey.symm
    · exact .inr ⟨req', by simp only [asked, List.mem_append]; exact .inr hreq', hkey⟩
  constructor
  · rcases hreq with hreq | hreq
    · exact .inl (hsub m hreq)
    · rcases hasked hreq with rfl | hreq
      · exact .inl hmem
      · exact .inr hreq
  · rcases hknown with hk | hk | hk | ⟨a, hlast, hk⟩
    · rcases hasked hk with rfl | hk
      · rw [hw]
        exact .inr (.inl hhand)
      · exact .inl hk
    · exact absurd hk (hnone m)
    · exact .inr (.inr (.inl hk))
    · refine .inr (.inr (.inr ⟨a, ?_, hk⟩))
      rw [Conn.last, hanswers]
      exact hlast

/-- What a step of the whole is for the server: nothing, or a step of its own. -/
theorem dns_step {t : RouteSync} {e : SyncEvent} (hst : s.step cfg fd e = some t) :
    t.dns = s.dns ∨ ∃ e', s.dns.step e' = some t.dns ∧ (s.Announcing e → s.dns.Announced e') := by
  cases e with
  | agent a =>
      simp only [RouteSync.step, Option.ite_none_right_eq_some, Option.map_eq_some_iff] at hst
      obtain ⟨-, agents, -, rfl⟩ := hst
      exact .inl rfl
  | request i =>
      simp only [RouteSync.step] at hst
      split at hst
      · cases hst
      · rename_i req requests hs
        obtain ⟨dns, hdns, rfl⟩ := Option.map_eq_some_iff.mp hst
        exact .inr ⟨.request i fd req.modid req.cmdid, hdns, fun _ ↦ trivial⟩
  | dns e =>
      simp only [RouteSync.step, Option.ite_none_right_eq_some, Option.map_eq_some_iff] at hst
      obtain ⟨-, dns, hdns, rfl⟩ := hst
      exact .inr ⟨e, hdns, id⟩

/-- Every step keeps the invariant. -/
theorem SyncInv.step {t : RouteSync} {e : SyncEvent} (h : SyncInv cfg fd s)
    (hst : s.step cfg fd e = some t) : SyncInv cfg fd t := by
  obtain ⟨hsound, hreach, c, hsync⟩ := h
  have hi := DnsServer.inv_of_reachable hreach
  have hreach' : dnsServer.Reachable t.dns := by
    rcases dns_step hst with he | ⟨e', hdns, -⟩
    · rw [he]
      exact hreach
    · exact hreach.step (a := e') hdns
  cases e with
  | agent a =>
      simp only [RouteSync.step, Option.ite_none_right_eq_some, Option.map_eq_some_iff,
        Outcome.toOption_eq_some] at hst
      obtain ⟨hown, agents, hagent, rfl⟩ := hst
      cases moves_of_step hown hagent with
      | @client a b routes hop ha =>
          obtain ⟨b', routes', hop', hsound', -⟩ := agentStore_step hsound a
          obtain ⟨rfl, rfl⟩ := Prod.mk.inj (Except.ok.inj (hop'.symm.trans hop))
          exact ⟨hsound', hreach', c, hsync.client hsound hop ha⟩
      | queues hroutes hresponses hasked =>
          exact ⟨hroutes ▸ hsound, hreach', c, hsync.queues hroutes hresponses hasked⟩
      | @update clock resp rest b routes hs hop =>
          obtain ⟨b', routes', hop', hsound', -⟩ :=
            agentStore_step hsound (.updateHost resp.message clock)
          obtain ⟨rfl, rfl⟩ := Prod.mk.inj (Except.ok.inj (hop'.symm.trans hop))
          exact ⟨hsound', hreach', c, hsync.update hsound hs hop⟩
  | request i =>
      simp only [RouteSync.step] at hst
      split at hst
      · cases hst
      · rename_i req requests hs
        obtain ⟨dns, hdns, rfl⟩ := Option.map_eq_some_iff.mp hst
        exact ⟨hsound, hreach', hsync.request hi hs hdns⟩
  | dns e =>
      simp only [RouteSync.step, Option.ite_none_right_eq_some, Option.map_eq_some_iff] at hst
      obtain ⟨hspares, dns, hdns, rfl⟩ := hst
      obtain ⟨c', new, hserves⟩ := DnsServer.conn_step hi hdns hsync.conn hsync.open_ hspares
      have hnew : (answersOf fd dns).drop (answersOf fd s.dns).length = new := by
        simp only [answersOf, hsync.conn, hserves.conn, Option.map_some, Option.getD_some,
          hserves.answers, List.drop_left]
      rw [hnew] at hreach' ⊢
      exact ⟨hsound, hreach', c', hsync.serves hserves⟩

/-- The invariant holds in every run. -/
theorem inv_of_reachable (h : (routeSync cfg fd).Reachable s) : SyncInv cfg fd s := by
  refine h.induction (I := SyncInv cfg fd) ?_ fun _ _ _ _ hi hst ↦ hi.step hst
  rintro ⟨_, dns⟩ ⟨rfl, hreach, c, hc, -, hanswers, hpc⟩
  refine ⟨agentsSound_new cfg, hreach, c, hc, ?_, ?_, fun m lb hget ↦ ?_⟩
  · rw [hpc]
    exact id
  · rw [hanswers]
    exact List.suffix_rfl
  · simp [Store.split, routeStore, Agents.new, RouteLb.new] at hget

theorem reachable_of_announcing (h : (announcing cfg fd).Reachable s) :
    (routeSync cfg fd).Reachable s := by
  induction h with
  | init hi => exact .init hi.1
  | step _ hst ih => exact ih.step hst.2

/-- In an announcing run the server announces what it changes. -/
theorem announced_of_reachable (h : (announcing cfg fd).Reachable s) :
    (dnsServer.restrict DnsServer.Announced).Reachable s.dns := by
  induction h with
  | init hi => exact hi.2
  | step _ hst ih =>
      rcases dns_step hst.2 with he | ⟨e', hdns, hc⟩
      · rw [he]
        exact ih
      · exact ih.step (a := e') ⟨hc hst.1, hdns⟩

/-! ## When nothing is on its way -/

/-- The requests have been read and the responses handled, the server has finished all
requests and tasks, and the update thread has published what it has changed. -/
structure RouteSync.Quiet (s : RouteSync) : Prop where
  asked : asked s.agents = []
  responses : s.agents.responses = []
  settled : s.dns.Settled
  published : ¬s.dns.Unpublished

theorem exists_host_iff {modid cmdid : UInt32} {hosts : ExtTreeSet UInt64} {k : UInt64} :
    (∃ host ∈ (routeResponse modid cmdid hosts).host, hostKey host.ip host.port = k) ↔
      k ∈ hosts := by
  simp only [routeResponse, List.mem_map, ExtTreeSet.mem_toList]
  constructor
  · rintro ⟨_, ⟨v, hv, rfl⟩, hk⟩
    rw [hostKey, pack_unpack] at hk
    exact hk ▸ hv
  · exact fun hk ↦ ⟨_, ⟨k, hk, rfl⟩, pack_unpack k⟩

/-- When nothing is on its way, every entry has the hosts of the last response for it. -/
theorem SyncInv.current (h : SyncInv cfg fd s) (hq : s.Quiet)
    (hget : (agentStore cfg).get s.agents.agentRoutes m = some lb) :
    ∃ c, s.dns.conns[fd]? = some c ∧ ¬(s.dns.workers c.worker).pc.Closes fd ∧ m ∈ c.modSet ∧
      Current c m lb := by
  obtain ⟨-, hreach, c, hsync⟩ := h
  obtain ⟨hreq, hknown⟩ := hsync.entries m lb hget
  have hnone : ¬Asked s.agents m := by
    rintro ⟨req, hmem, -⟩
    rw [hq.asked] at hmem
    cases hmem
  have hdone := hq.settled.2 _
    ((DnsServer.inv_of_reachable hreach).conn fd c hsync.conn).inRange
  refine ⟨c, hsync.conn, hsync.open_, hreq.resolve_right hnone, ?_⟩
  rcases hknown with hk | (hk | ⟨a, hk, -⟩) | ⟨resp, hk, -⟩ | hk
  · exact absurd hk hnone
  · exact absurd hk (DnsServer.Worker.Done.quiet hdone).2.1
  · exact absurd hk ((DnsServer.Worker.Done.quiet (m := 0) hdone).2.2 a)
  · rw [hq.responses] at hk
    cases hk
  · exact hk

/-- An entry whose last response has some hosts of a table has these hosts. -/
theorem Current.agrees {modid cmdid : UInt32} {hosts : ExtTreeSet UInt64} (h : Current c m lb)
    (hlast : ∀ a, c.last m = some a → a.res = routeResponse modid cmdid hosts) :
    lb.status = some .new ∧ lb.empty = false ∧ ∀ k, k ∈ lb.hostMap ↔ k ∈ hosts := by
  obtain ⟨a, ha, hne, hstatus, hmap⟩ := h
  rw [hlast a ha] at hne hmap
  refine ⟨hstatus, ?_, fun k ↦ (hmap k).trans exists_host_iff⟩
  obtain ⟨host, hhost⟩ := List.exists_mem_of_ne_nil _ hne
  rw [LoadBalance.empty, ExtTreeMap.isEmpty_eq_false_iff]
  intro hnil
  have hk := (hmap _).mpr ⟨host, hhost, rfl⟩
  rw [hnil] at hk
  exact ExtTreeMap.not_mem_empty hk

/-- When nothing is on its way in an announcing run, the last response for a module that the
agent knows has the hosts that the server serves. -/
theorem served_of_quiet (h : (announcing cfg fd).Reachable s) (hq : s.Quiet)
    {modid cmdid : UInt32}
    (hget : (s.agents.agentRoutes (agentIndex modid cmdid)).routeMap[modKey modid cmdid]? =
      some lb) :
    ∃ c, Current c (modKey modid cmdid) lb ∧ ∀ a, c.last (modKey modid cmdid) = some a →
      a.res = routeResponse modid cmdid (s.dns.publisher.router.getHosts modid cmdid) := by
  have hentry : (agentStore cfg).get s.agents.agentRoutes (modKey modid cmdid) = some lb := by
    simp only [Store.split, homeOf_modKey]
    exact hget
  obtain ⟨c, hc, hopen, hmem, hcurrent⟩ :=
    (inv_of_reachable (reachable_of_announcing h)).current hq hentry
  exact ⟨c, hcurrent, fun a ha ↦ DnsServer.last_answer_current (announced_of_reachable h)
    hq.settled hq.published hc hopen hmem ha⟩

/-- **The agent has what the server serves.**  Let the agent be connected to a server that
announces every change of a module, and let clients, other connections and the update
thread do what they like.  Whenever nothing is on its way, no module that the agent knows is
waiting for its hosts, every one has some, and they are those that the server serves. -/
theorem agents_agree (h : (announcing cfg fd).Reachable s)
    (hq : s.Quiet) {modid cmdid : UInt32}
    (hget : (s.agents.agentRoutes (agentIndex modid cmdid)).routeMap[modKey modid cmdid]? =
      some lb) :
    lb.status = some .new ∧ lb.empty = false ∧
      ∀ k, k ∈ lb.hostMap ↔ k ∈ s.dns.publisher.router.getHosts modid cmdid := by
  obtain ⟨c, hcurrent, hlast⟩ := served_of_quiet h hq hget
  exact hcurrent.agrees hlast

/-- A server with one worker and one route, and the agent on its connection 5. -/
def joined : RouteSync where
  agents := Agents.new
  dns := (DnsServer.start 1 (Router.new (.rows 5 [⟨1, 1, 3232235953, 7777⟩]))).next (.connect 0 5)

/-- A client asks for a host, and the hosts of its module are pulled. -/
def onePull : List SyncEvent :=
  [.agent (.getHost 1 1 1 100), .agent .recvTasks, .agent .sendTask, .request 0,
    .dns (.proceed 0), .dns (.proceed 0), .dns (.proceed 0), .agent (.dnsResCb fun _ ↦ 100)]

/-- The state after a step, if it can be taken. -/
def RouteSync.next (cfg : LoadBalanceConfig) (fd : Int) (s : RouteSync) (e : SyncEvent) :
    RouteSync := (s.step cfg fd e).getD s

/-- The agent and the server after these steps. -/
def pulled : RouteSync := onePull.foldl (RouteSync.next .default 5) joined

theorem RouteSync.next_step (s : RouteSync) (e : SyncEvent)
    (h : (s.step cfg fd e).isSome = true) : (routeSync cfg fd).step s e (s.next cfg fd e) := by
  obtain ⟨t, ht⟩ := Option.isSome_iff_exists.mp h
  show s.step cfg fd e = some ((s.step cfg fd e).getD s)
  rw [ht]
  rfl

theorem joined_announced : (dnsServer.restrict DnsServer.Announced).Reachable joined.dns :=
  .step (a := .connect 0 5) (.init ⟨1, _, rfl⟩) ⟨trivial, rfl⟩

theorem joined_initial : joined.Initial 5 :=
  ⟨rfl, joined_announced.of_restrict, _, ExtTreeMap.getElem?_insert_self, rfl, rfl, rfl⟩

theorem joined_reachable : (announcing .default 5).Reachable joined :=
  .init ⟨joined_initial, joined_announced⟩

theorem pulled_reachable : (announcing .default 5).Reachable pulled := by
  refine joined_reachable.run
    (LTS.Run.foldl (C := fun s e ↦ s.Announcing e ∧ (s.step .default 5 e).isSome = true) ?_ ?_)
  · rintro s e ⟨hc, h⟩
    exact ⟨hc, s.next_step e h⟩
  · exact ⟨⟨trivial, rfl⟩, ⟨trivial, rfl⟩, ⟨trivial, rfl⟩, ⟨trivial, rfl⟩, ⟨trivial, rfl⟩,
      ⟨trivial, rfl⟩, ⟨trivial, rfl⟩, ⟨trivial, rfl⟩, trivial⟩

theorem agents_agree_pulled :
    ∃ lb, (pulled.agents.agentRoutes (agentIndex 1 1)).routeMap[modKey 1 1]? = some lb ∧
      lb.status = some .new ∧ lb.empty = false ∧
        ∀ k, k ∈ lb.hostMap ↔ k ∈ pulled.dns.publisher.router.getHosts 1 1 := by
  obtain ⟨lb, hget⟩ : ∃ lb, (pulled.agents.agentRoutes (agentIndex 1 1)).routeMap[modKey 1 1]? =
      some lb := Option.isSome_iff_exists.mp (by decide)
  refine ⟨lb, hget, agents_agree pulled_reachable ⟨rfl, rfl, ⟨rfl, fun i hi ↦ ?_⟩, ?_⟩ hget⟩
  · obtain rfl := Nat.lt_one_iff.mp hi
    exact ⟨rfl, rfl, .inl rfl⟩
  · rintro (h | ⟨⟨mods, h⟩, -⟩) <;> cases h

end Ylars.System
