import Ylars.Reactor.Drain
import Ylars.System.CatchUp
import Ylars.System.Requests
import Ylars.System.WireSync

/-!
# The agent catches up, in bytes

What is left to do when nothing new comes from outside is the work of the agent and of the
server, and the callbacks for which `epoll_wait` finds a socket of their connection ready.
A callback moves bytes, a step of `RouteSync` is none of them, and each of the two comes to an
end: so does the whole, in every order, and then no byte is left and the agent has the hosts
that the server serves (`bytes_catch_up`).

The module with `modid` and `cmdid` 0 is an exception.  Protobuf writes no field that is 0, so
a request for it is a message without payload, which may stay behind in the write buffer.
-/

namespace Ylars.System

open Std (ExtTreeMap ExtTreeSet)
open Ylars.Lib Ylars.Proto Ylars.Reactor Ylars.Agent Ylars.Dns

/-! ## Payloads -/

/-- A request for a module other than (0, 0) has a payload. -/
theorem requestMsg_ne_nil {req : GetRouteRequest} (h : modKey req.modid req.cmdid ≠ 0) :
    (requestMsg req).data ≠ [] := by
  intro hnil
  have hparse := req.parse_serialize
  rw [show req.serialize = [] from hnil] at hparse
  obtain rfl : (⟨0, 0⟩ : GetRouteRequest) = req := (Prod.mk.inj hparse).1
  exact h (by decide)

/-- A response for a module other than (0, 0) has a payload. -/
theorem responseMsg_ne_nil {a : Answer} (h : a.mod ≠ 0) : (responseMsg a.res).data ≠ [] := by
  intro hnil
  have hparse := a.res.parse_serialize
  rw [show a.res.serialize = [] from hnil] at hparse
  have hres : (⟨0, 0, []⟩ : GetRouteResponse) = a.res := (Prod.mk.inj hparse).1
  refine h ?_
  rw [Answer.mod, ← hres]
  decide

/-! ## The work that is left -/

namespace WireSync

/-- Whether an event is work that is left: in the agent or in the server, or a callback for
which `epoll_wait` finds a socket ready. -/
def Works (w : WireSync) : WireEvent → Prop
  | .agent a => RouteSync.Works ⟨w.agents, w.dns⟩ (.agent a)
  | .sendTask _ _ => True
  | .request _ => True
  | .dns e _ _ => w.dns.Works e
  | .link op => w.link.Moves op

end WireSync

/-- The runs in which nothing new comes from outside. -/
def wireWorking (cfg : LoadBalanceConfig) (nlMsgmax fd : Int) : LTS WireSync WireEvent :=
  (wireSync cfg nlMsgmax fd).restrict WireSync.Works

/-- A client asks for a module in `P`. -/
def WireEvent.Asks (P : UInt64 → Prop) (e : WireEvent) : Prop := ∀ e' ∈ e.sync, e'.Asks P

/-- The runs over a new connection in which no call fails, no end is closed, no module has more
than `n` hosts, the server announces what it changes, and nobody asks for the module 0. -/
def undisturbed (cfg : LoadBalanceConfig) (nlMsgmax fd : Int) (n : ℕ) : LTS WireSync WireEvent where
  init w := (w.Initial fd ∧ w.link.Fresh) ∧
    (dnsServer.restrict fun s e ↦ s.Announced e ∧ e.Asks (· ≠ 0)).Reachable w.dns
  step w e t := (w.Announcing e ∧ w.Smooth nlMsgmax n e ∧ e.Asks (· ≠ 0)) ∧
    w.step cfg nlMsgmax fd e = some t

/-- What a connection on which no call fails and no end is closed keeps, when the responses are
short and nobody asks for the module 0. -/
structure Steady (cfg : LoadBalanceConfig) (nlMsgmax fd : Int) (w : WireSync) : Prop where
  reachable : (wireSync cfg nlMsgmax fd).Reachable w
  requested : Requested (· ≠ 0) w.toSync
  flows : w.link.Flows nlMsgmax
  wired : w.link.Wired

variable {cfg : LoadBalanceConfig} {nlMsgmax fd : Int} {n : ℕ} {w t : WireSync} {e : WireEvent}
  {p₁ p₂ : AmplePool}

theorem Steady.sync (h : Steady cfg nlMsgmax fd w) : (routeSync cfg fd).Reachable w.toSync :=
  messages_of_reachable h.reachable h.flows.opened

/-- Responses with a payload keep the connection wired. -/
theorem wired_respondAll {answers : List Answer} {link link' : Duplex}
    (hf : link.Flows nlMsgmax) (hw : link.Wired)
    (hne : ∀ a ∈ answers, (responseMsg a.res).data ≠ [] ∧
      ((responseMsg a.res).data.length : Int) ≤ nlMsgmax)
    (hs : respondAll nlMsgmax p₁ p₂ answers link = some link') : link'.Wired := by
  induction answers generalizing link with
  | nil =>
      obtain rfl := Option.some.inj hs
      exact hw
  | cons a answers ih =>
      simp only [respondAll, Option.ite_none_right_eq_some, Option.bind_eq_some_iff,
        Outcome.toOption_eq_some] at hs
      obtain ⟨he, mid, hmid, hs⟩ := hs
      obtain ⟨hdata, hle⟩ := hne a List.mem_cons_self
      have hf' := hf.step he hle hmid
      have hw' : mid.Wired := by
        refine hw.step hf.live ?_ ?_ hmid hf'.opened
        · exact hle
        · exact hdata
      exact ih hf' hw' (fun a' ha' ↦ hne a' (List.mem_cons_of_mem _ ha')) hs

/-- Every step keeps the connection wired. -/
theorem Steady.wired_step (hn : 12 + 14 * (n : Int) ≤ nlMsgmax) (h : Steady cfg nlMsgmax fd w)
    (hsmooth : w.Smooth nlMsgmax n e) (hst : w.step cfg nlMsgmax fd e = some t)
    (hf : t.link.Flows nlMsgmax) : t.link.Wired := by
  cases e with
  | agent a =>
      simp only [WireSync.step, Option.ite_none_right_eq_some, Option.map_eq_some_iff] at hst
      obtain ⟨-, agents, -, rfl⟩ := hst
      exact h.wired
  | sendTask p₁ p₂ =>
      simp only [WireSync.step] at hst
      split at hst
      · cases hst
      · rename_i req tasks htasks
        simp only [Option.ite_none_right_eq_some, Option.map_eq_some_iff,
          Outcome.toOption_eq_some] at hst
        obtain ⟨he, link, hlink, rfl⟩ := hst
        have hlen : (requestMsg req).data.length ≤ 12 := req.length_serialize_le
        have hkey : modKey req.modid req.cmdid ≠ 0 :=
          h.requested.requests req (by simp [asked, WireSync.toSync, htasks])
        refine h.wired.step h.flows.live ?_ ?_ hlink hf.opened
        · show ((requestMsg req).data.length : Int) ≤ msgMaxLimit
          rw [msgMaxLimit, msgHeadLen]
          omega
        · exact requestMsg_ne_nil hkey
  | request i =>
      simp only [WireSync.step] at hst
      split at hst
      · cases hst
      · obtain ⟨dns, -, rfl⟩ := Option.map_eq_some_iff.mp hst
        exact h.wired
  | dns e p₁ p₂ =>
      simp only [WireSync.step, Option.ite_none_right_eq_some, Option.bind_eq_some_iff,
        Option.map_eq_some_iff] at hst
      obtain ⟨hspares, dns, hdns, link, hlink, rfl⟩ := hst
      refine wired_respondAll h.flows h.wired (fun a ha ↦ ⟨?_, ?_⟩) hlink
      · exact responseMsg_ne_nil (mod_of_step h.requested h.sync hspares hdns a ha)
      · have hlen := responseMsg_le hsmooth (genuine_of_step h.sync hspares hdns a ha)
        omega
  | link op =>
      simp only [WireSync.step, Option.ite_none_right_eq_some, Option.map_eq_some_iff,
        Outcome.toOption_eq_some] at hst
      obtain ⟨⟨hop, he⟩, link, hlink, rfl⟩ := hst
      refine h.wired.step h.flows.live hsmooth.2 ?_ hlink hf.opened
      cases op with
      | request | respond => cases hop
      | clientWrites | connWrites | connReads | clientReads | clientHangs | connHangs => trivial

/-- Every step in which no call fails keeps the connection steady. -/
theorem Steady.step (hn : 12 + 14 * (n : Int) ≤ nlMsgmax) (hmax : nlMsgmax < 2 ^ 31)
    (h : Steady cfg nlMsgmax fd w) (hc : w.Smooth nlMsgmax n e ∧ e.Asks (· ≠ 0))
    (hst : w.step cfg nlMsgmax fd e = some t) : Steady cfg nlMsgmax fd t := by
  obtain ⟨hsmooth, hasks⟩ := hc
  have hf := flows_step hn hmax h.reachable h.flows hsmooth hst
  refine ⟨h.reachable.step hst, ?_, hf, h.wired_step hn hsmooth hst hf⟩
  rcases sync_step (link_of_reachable h.reachable) hst hf.opened with he | ⟨e', he', hst'⟩
  · rw [he]
    exact h.requested
  · exact h.requested.step h.sync (hasks e' he') hst'

/-- A new connection is steady. -/
theorem steady_initial (hinit : w.Initial fd) (hfresh : w.link.Fresh)
    (hdns : (dnsServer.restrict fun _ e ↦ e.Asks (· ≠ 0)).Reachable w.dns) :
    Steady cfg nlMsgmax fd w := by
  have hwired : (attended nlMsgmax).Reachable w.link := .init hfresh
  obtain ⟨hf, hw⟩ := Duplex.wired_of_reachable hwired
  refine ⟨.init hinit, ?_, hf, hw⟩
  rw [initial_toSync hinit]
  have hasking : (asking (· ≠ 0) cfg fd).Reachable ⟨w.agents, w.dns⟩ := .init ⟨hinit.sync, hdns⟩
  exact requested_of_reachable hasking

/-- An undisturbed connection is steady, and the server announces what it changes. -/
theorem steady_of_reachable (hn : 12 + 14 * (n : Int) ≤ nlMsgmax) (hmax : nlMsgmax < 2 ^ 31)
    (h : (undisturbed cfg nlMsgmax fd n).Reachable w) :
    Steady cfg nlMsgmax fd w ∧ (wireAnnouncing cfg nlMsgmax fd).Reachable w := by
  refine h.induction (I := fun w ↦ Steady cfg nlMsgmax fd w ∧
    (wireAnnouncing cfg nlMsgmax fd).Reachable w) ?_ ?_
  · rintro w ⟨⟨hinit, hfresh⟩, hdns⟩
    exact ⟨steady_initial hinit hfresh (hdns.restrict_mono fun s e hc ↦ hc.2),
      .init ⟨hinit, hdns.restrict_mono fun s e hc ↦ hc.1⟩⟩
  · exact fun w e t _ hi ⟨hc, hst⟩ ↦ ⟨hi.1.step hn hmax hc.2 hst, hi.2.step ⟨hc.1, hst⟩⟩

/-! ## The work comes to an end -/

/-- Work that is left is a step of the undisturbed runs. -/
theorem Steady.undisturbed (h : Steady cfg nlMsgmax fd w) (hfew : FewInTables n w.dns)
    (he : w.Works e) (hst : w.step cfg nlMsgmax fd e = some t) :
    w.Announcing e ∧ w.Smooth nlMsgmax n e ∧ e.Asks (· ≠ 0) := by
  cases e with
  | agent a =>
      refine ⟨trivial, hfew, fun e' he' ↦ ?_⟩
      obtain rfl := Option.some.inj he'
      cases a with
      | recvTasks | dnsResCb => trivial
      | sendTask => simp [WireSync.step, isLocal] at hst
      | getHost | getRoute | reportHost | dnsAnswer | dnsPush => exact absurd he id
  | sendTask p₁ p₂ => exact ⟨trivial, hfew, fun e' he' ↦ Option.some.inj he' ▸ trivial⟩
  | request i => exact ⟨trivial, hfew, fun e' he' ↦ Option.some.inj he' ▸ trivial⟩
  | dns e p₁ p₂ =>
      simp only [WireSync.step, Option.ite_none_right_eq_some, Option.bind_eq_some_iff] at hst
      obtain ⟨-, dns, hdns, -⟩ := hst
      refine ⟨(DnsServer.served_of_works (inv_of_reachable h.sync).reachable he hdns).2.1, hfew,
        fun e' he' ↦ ?_⟩
      obtain rfl := Option.some.inj he'
      cases e with
      | request => exact absurd he id
      | updater | deal | task | connect | close | proceed => trivial
  | link op => exact ⟨trivial, ⟨hfew, Duplex.Moves.smooth he⟩, fun e' he' ↦ by cases he'⟩

/-- Work that is left moves bytes, or is work that is left for `RouteSync`. -/
theorem Steady.works_cases (h : Steady cfg nlMsgmax fd w) (ht : Steady cfg nlMsgmax fd t)
    (he : w.Works e) (hst : w.step cfg nlMsgmax fd e = some t) :
    (t.toSync = w.toSync ∧ t.link.rank < w.link.rank) ∨
      ∃ e', w.toSync.Works e' ∧ w.toSync.step cfg fd e' = some t.toSync := by
  have hcases := sync_cases (link_of_reachable h.reachable) hst ht.flows.opened
  rcases hcases with ⟨hlink, hsync⟩ | ⟨⟨a, rfl⟩, rfl⟩ | ⟨e', he', hst'⟩
  · cases e with
    | agent | sendTask | request | dns => cases hlink
    | link op =>
        simp only [WireSync.step, Option.ite_none_right_eq_some, Option.map_eq_some_iff,
          Outcome.toOption_eq_some] at hst
        obtain ⟨⟨-, hen⟩, link, hlink, rfl⟩ := hst
        exact .inl ⟨hsync, Duplex.rank_lt h.flows h.wired ht.wired hen he hlink ht.flows.opened⟩
  · -- work that is left in the agent changes it
    simp only [WireSync.step, Option.ite_none_right_eq_some, Option.map_eq_some_iff,
      Outcome.toOption_eq_some] at hst
    obtain ⟨hlocal, agents, hagents, hsame⟩ := hst
    obtain rfl : agents = t.agents := congrArg WireSync.agents hsame
    cases a with
    | recvTasks =>
        obtain ⟨htasks, hqueue⟩ : t.agents.tasks = [] ∧ t.agents.dnsQueue ≠ [] := he
        simp only [Agents.step, htasks] at hagents
        exact absurd (congrArg Agents.dnsQueue (Except.ok.inj hagents)).symm hqueue
    | dnsResCb clock =>
        obtain ⟨-, -, -, hlen⟩ := dnsResCb_eq hagents he
        exact absurd hlen (Nat.succ_ne_self _)
    | sendTask => cases hlocal
    | getHost | getRoute | reportHost | dnsAnswer | dnsPush => exact absurd he id
  · refine .inr ⟨e', ?_, hst'⟩
    cases e with
    | agent a =>
        obtain rfl := Option.some.inj he'
        cases a with
        | recvTasks => exact he
        | dnsResCb clock => exact List.append_ne_nil_of_left_ne_nil he _
        | sendTask => exact he
        | getHost | getRoute | reportHost | dnsAnswer | dnsPush => exact absurd he id
    | sendTask p₁ p₂ =>
        obtain rfl := Option.some.inj he'
        simp only [WireSync.step] at hst
        split at hst
        · cases hst
        · rename_i req tasks htasks
          show w.agents.tasks ≠ []
          rw [htasks]
          exact List.cons_ne_nil _ _
    | request i =>
        obtain rfl := Option.some.inj he'
        exact trivial
    | dns e p₁ p₂ =>
        obtain rfl := Option.some.inj he'
        exact he
    | link op => cases he'

/-- Work that is left keeps the served table, and everything published. -/
theorem Steady.served (h : Steady cfg nlMsgmax fd w) (ht : Steady cfg nlMsgmax fd t)
    (he : w.Works e) (hst : w.step cfg nlMsgmax fd e = some t) :
    t.dns.publisher.router = w.dns.publisher.router ∧ t.dns.tables = w.dns.tables ∧
      (¬w.dns.Unpublished → ¬t.dns.Unpublished) := by
  rcases h.works_cases ht he hst with ⟨hsync, -⟩ | ⟨e', he', hst'⟩
  · have hdns : t.dns = w.dns := congrArg RouteSync.dns hsync
    rw [hdns]
    exact ⟨rfl, rfl, id⟩
  · obtain ⟨-, hrouter, hun⟩ := served_of_works h.sync he' hst'
    exact ⟨hrouter, tables_of_works h.sync he' hst', hun⟩

theorem steady_of_works (hn : 12 + 14 * (n : Int) ≤ nlMsgmax) (hmax : nlMsgmax < 2 ^ 31)
    (h : Steady cfg nlMsgmax fd w ∧ FewInTables n w.dns)
    (hst : (wireWorking cfg nlMsgmax fd).step w e t) :
    (Steady cfg nlMsgmax fd t ∧ FewInTables n t.dns) ∧
      t.dns.publisher.router = w.dns.publisher.router ∧
        (¬w.dns.Unpublished → ¬t.dns.Unpublished) := by
  obtain ⟨h, hfew⟩ := h
  obtain ⟨he, hst⟩ := hst
  have ht := h.step hn hmax (h.undisturbed hfew he hst).2 hst
  obtain ⟨hrouter, htables, hun⟩ := h.served ht he hst
  refine ⟨⟨ht, ?_⟩, hrouter, hun⟩
  rw [FewInTables, htables]
  exact hfew

/-- The work on the bytes comes to an end, in whatever order it is done. -/
theorem acc_wireWorking (hn : 12 + 14 * (n : Int) ≤ nlMsgmax) (hmax : nlMsgmax < 2 ^ 31)
    (h : Steady cfg nlMsgmax fd w) (hfew : FewInTables n w.dns) :
    Acc (wireWorking cfg nlMsgmax fd).Next w := by
  refine LTS.acc_of_map (N := working cfg fd) (r := (· < ·)) wellFounded_lt WireSync.toSync
    (fun w ↦ w.link.rank) (I := fun w ↦ Steady cfg nlMsgmax fd w ∧ FewInTables n w.dns)
    (fun w e t hi hst ↦ ?_) ⟨h, hfew⟩ (acc_working h.sync)
  have ht := (steady_of_works hn hmax hi hst).1
  refine ⟨ht, ?_⟩
  rcases hi.1.works_cases ht.1 hst.1 hst.2 with hmoves | ⟨e', he', hst'⟩
  · exact .inr hmoves
  · exact .inl ⟨e', he', hst'⟩

/-! ## When no work is left -/

/-- The connection is drained. -/
theorem Steady.drained (h : Steady cfg nlMsgmax fd w)
    (hrest : (wireWorking cfg nlMsgmax fd).AtRest w) : w.link.Drained := by
  refine Duplex.drained_of_atRest h.flows h.wired fun op link ⟨hm, hen, hlink⟩ ↦ ?_
  obtain ⟨u, hu⟩ : ∃ u, w.step cfg nlMsgmax fd (.link op) = some u := by
    have hsends := hm.sends.2
    simp only [WireSync.step, hlink, if_pos (And.intro hsends hen)]
    exact ⟨_, rfl⟩
  exact hrest (.link op) u ⟨hm, hu⟩

/-- When no work is left in bytes, none is left for `RouteSync`. -/
theorem Steady.atRest_sync (hn : 12 + 14 * (n : Int) ≤ nlMsgmax) (hmax : nlMsgmax < 2 ^ 31)
    (h : Steady cfg nlMsgmax fd w) (hfew : FewInTables n w.dns)
    (hrest : (wireWorking cfg nlMsgmax fd).AtRest w) : (working cfg fd).AtRest w.toSync := by
  obtain ⟨hclient, hup, hconn, hdown⟩ := h.drained hrest
  have hsame : w.toSync = ⟨w.agents, w.dns⟩ := by
    have hcup := h.flows.live.up.carries
    have hcdown := h.flows.live.down.carries
    rw [hclient] at hcup
    rw [hconn] at hcdown
    simp only [WireSync.toSync, hcup.onWay_eq_nil hup, hcdown.onWay_eq_nil hdown,
      List.filterMap_nil, List.map_nil, List.append_nil]
  have hsync := h.sync
  rw [hsame] at hsync ⊢
  have hlocal : ∀ a agents, isLocal a = true → w.Works (.agent a) →
      (w.agents.step cfg a).toOption ≠ some agents := by
    intro a agents ha hw hst
    refine hrest (.agent a) { w with agents := agents } ⟨hw, ?_⟩
    show w.step cfg nlMsgmax fd _ = some _
    simp only [WireSync.step, ha, if_true, hst]
    rfl
  rintro e s ⟨he, hst⟩
  change RouteSync.step cfg fd ⟨w.agents, w.dns⟩ e = some s at hst
  cases e with
  | agent a =>
      simp only [RouteSync.step, Option.ite_none_right_eq_some, Option.map_eq_some_iff] at hst
      obtain ⟨-, agents, hagents, -⟩ := hst
      cases a with
      | recvTasks => exact hlocal .recvTasks agents rfl he hagents
      | dnsResCb clock => exact hlocal (.dnsResCb clock) agents rfl he hagents
      | sendTask =>
          obtain ⟨req, tasks, htasks⟩ : ∃ req tasks, w.agents.tasks = req :: tasks :=
            List.exists_cons_of_ne_nil he
          have hen : w.link.Enabled (.request exactPool exactPool (requestMsg req)) := by
            have hlen : (requestMsg req).data.length ≤ 12 := req.length_serialize_le
            exact ⟨h.flows.opened, by omega⟩
          obtain ⟨link, hlink, -⟩ := h.flows.live.step hen
          refine hrest (.sendTask exactPool exactPool)
            ⟨{ w.agents with tasks := tasks }, w.dns, link⟩ ⟨trivial, ?_⟩
          show w.step cfg nlMsgmax fd _ = some _
          simp only [WireSync.step, htasks, if_pos hen, hlink]
          rfl
      | getHost | getRoute | reportHost | dnsAnswer | dnsPush => exact absurd he id
  | request i =>
      simp only [RouteSync.step] at hst
      split at hst
      · cases hst
      · rename_i req requests hs
        change w.agents.requests = req :: requests at hs
        obtain ⟨dns, hdns, -⟩ := Option.map_eq_some_iff.mp hst
        refine hrest (.request i) ⟨{ w.agents with requests := requests }, dns, w.link⟩
          ⟨trivial, ?_⟩
        show w.step cfg nlMsgmax fd _ = some _
        simp only [WireSync.step, hs, hdns]
        rfl
  | dns e =>
      simp only [RouteSync.step, Option.ite_none_right_eq_some, Option.map_eq_some_iff] at hst
      obtain ⟨hspares, dns, hdns, -⟩ := hst
      obtain ⟨link, hlink, -⟩ := respondAll_smooth exactPool exactPool h.flows fun a ha ↦ by
        have hlen := responseMsg_le hfew (genuine_of_step hsync hspares hdns a ha)
        omega
      refine hrest (.dns e exactPool exactPool) { w with dns := dns, link := link } ⟨he, ?_⟩
      show w.step cfg nlMsgmax fd _ = some _
      simp only [WireSync.step, hspares, if_true, hdns, Option.bind_some, hlink]
      rfl

/-- Along the work that is left the served table stays, everything is published, and nothing has
to be announced. -/
theorem along_wireWorks {es : List WireEvent} (hn : 12 + 14 * (n : Int) ≤ nlMsgmax)
    (hmax : nlMsgmax < 2 ^ 31) (hr : (wireWorking cfg nlMsgmax fd).Run w es t)
    (h : Steady cfg nlMsgmax fd w ∧ FewInTables n w.dns)
    (hannounced : (wireAnnouncing cfg nlMsgmax fd).Reachable w) (hpub : ¬w.dns.Unpublished) :
    (Steady cfg nlMsgmax fd t ∧ FewInTables n t.dns) ∧
      (wireAnnouncing cfg nlMsgmax fd).Reachable t ∧ ¬t.dns.Unpublished ∧
      t.dns.publisher.router = w.dns.publisher.router := by
  induction hr with
  | nil w => exact ⟨h, hannounced, hpub, rfl⟩
  | cons hst _ ih =>
      obtain ⟨h', hrouter, hun⟩ := steady_of_works hn hmax h hst
      have hnext := hannounced.step ⟨(h.1.undisturbed h.2 hst.1 hst.2).1, hst.2⟩
      obtain ⟨hend, hannounced', hpub', hrouter'⟩ := ih h' hnext (hun hpub)
      exact ⟨hend, hannounced', hpub', hrouter'.trans hrouter⟩

theorem sync_of_wireWorks {es : List WireEvent} (hn : 12 + 14 * (n : Int) ≤ nlMsgmax)
    (hmax : nlMsgmax < 2 ^ 31) (hr : (wireWorking cfg nlMsgmax fd).Run w es t)
    (h : Steady cfg nlMsgmax fd w ∧ FewInTables n w.dns) :
    (Steady cfg nlMsgmax fd t ∧ FewInTables n t.dns) ∧
      ∃ es', (working cfg fd).Run w.toSync es' t.toSync := by
  refine hr.map_of (I := fun w ↦ Steady cfg nlMsgmax fd w ∧ FewInTables n w.dns)
    (fun w e t hi hst ↦ ?_) h
  have ht := (steady_of_works hn hmax hi hst).1
  exact ⟨ht, (hi.1.works_cases ht.1 hst.1 hst.2).imp And.left id⟩

/-- **The agent catches up, in bytes.**  Let no call fail, no end close, no module have more
than `n` hosts, a response with `n` hosts be within the limit of the client, the server
announce what it changes, and nobody ask for the module 0.  From any state in which the server
has published what it has changed, when nothing new comes from outside: in no order do the
agent, the server and the callbacks of their connection go on for ever, some order brings them
to rest, and wherever they come to rest the connection is open and every module that the agent
knows has some hosts, those that the server has served all along. -/
theorem bytes_catch_up (hn : 12 + 14 * (n : Int) ≤ nlMsgmax) (hmax : nlMsgmax < 2 ^ 31)
    (h : (undisturbed cfg nlMsgmax fd n).Reachable w) (hfew : FewInTables n w.dns)
    (hpub : ¬w.dns.Unpublished) :
    (¬∃ u : ℕ → WireSync, u 0 = w ∧ ∀ k, (wireWorking cfg nlMsgmax fd).Next (u (k + 1)) (u k)) ∧
      (∃ es t, (wireWorking cfg nlMsgmax fd).Run w es t ∧
        (wireWorking cfg nlMsgmax fd).AtRest t) ∧
      ∀ es t, (wireWorking cfg nlMsgmax fd).Run w es t → (wireWorking cfg nlMsgmax fd).AtRest t →
        t.link.Open ∧ ∀ modid cmdid lb,
          (t.agents.agentRoutes (agentIndex modid cmdid)).routeMap[modKey modid cmdid]? = some lb →
            lb.status = some .new ∧ lb.empty = false ∧
              ∀ k, k ∈ lb.hostMap ↔ k ∈ w.dns.publisher.router.getHosts modid cmdid := by
  obtain ⟨hsteady, hannounced⟩ := steady_of_reachable hn hmax h
  have hacc := acc_wireWorking hn hmax hsteady hfew
  refine ⟨LTS.not_forever hacc, LTS.exists_atRest hacc, fun es t hr hrest ↦ ?_⟩
  obtain ⟨⟨ht, htfew⟩, htannounced, htpub, hrouter⟩ :=
    along_wireWorks hn hmax hr ⟨hsteady, hfew⟩ hannounced hpub
  refine ⟨ht.flows.opened, fun modid cmdid lb hget ↦ ?_⟩
  have hquiet := quiet_of_atRest ht.sync htpub (ht.atRest_sync hn hmax htfew hrest)
  obtain ⟨c, hcurrent, hlast⟩ :=
    served_of_quiet (announcing_of_reachable htannounced ht.flows.opened) hquiet hget
  rw [show t.toSync.dns.publisher.router = w.dns.publisher.router from hrouter] at hlast
  exact hcurrent.agrees hlast

/-- A client has asked for a host before the connection is there. -/
def waitingBytes : WireSync := connecting.next .default 121 5 (.agent (.getHost 1 1 1 100))

theorem waitingBytes_reachable : (undisturbed .default 121 5 7).Reachable waitingBytes := by
  have hdns : (dnsServer.restrict fun s e ↦ s.Announced e ∧ e.Asks (· ≠ 0)).Reachable
      connecting.dns := .step (a := .connect 0 5) (.init ⟨1, _, rfl⟩) ⟨⟨trivial, trivial⟩, rfl⟩
  have hreach : (undisturbed .default 121 5 7).Reachable connecting :=
    .init ⟨⟨connecting_initial, Duplex.fresh_new⟩, hdns⟩
  refine hreach.step (a := .agent (.getHost 1 1 1 100)) ⟨⟨trivial, joined_few, fun e he ↦ ?_⟩,
    connecting.next_step rfl⟩
  obtain rfl := Option.some.inj he
  show modKey 1 1 ≠ 0
  decide

theorem bytes_catch_up_waiting :
    (¬∃ u : ℕ → WireSync, u 0 = waitingBytes ∧
        ∀ k, (wireWorking .default 121 5).Next (u (k + 1)) (u k)) ∧
      (∃ es t, (wireWorking .default 121 5).Run waitingBytes es t ∧
        (wireWorking .default 121 5).AtRest t) ∧
      ∀ es t, (wireWorking .default 121 5).Run waitingBytes es t →
        (wireWorking .default 121 5).AtRest t → t.link.Open ∧ ∀ modid cmdid lb,
          (t.agents.agentRoutes (agentIndex modid cmdid)).routeMap[modKey modid cmdid]? = some lb →
            lb.status = some .new ∧ lb.empty = false ∧
              ∀ k, k ∈ lb.hostMap ↔
                k ∈ waitingBytes.dns.publisher.router.getHosts modid cmdid := by
  refine bytes_catch_up (n := 7) (by decide) (by decide) waitingBytes_reachable joined_few ?_
  rintro (h | ⟨⟨mods, h⟩, -⟩) <;> cases h

end Ylars.System
