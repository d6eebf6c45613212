import Ylars.Agent.AgentServer
import Ylars.Agent.PullProtocol
import Ylars.Lib.Keyed
import Ylars.Lib.Table

/-!
# One module of the agent on its own

What an operation of `route_lb` does depends on the entry of its module alone: `Entry.act` is
the operation on this entry, which is there or not.  A `route_lb` is a store of such entries
(`routeStore_local`), and the three udp servers are one that is split by `agentIndex`.

So modules do not interfere, in whatever order requests and responses come to the three
servers, and three servers are as good as one.
-/

namespace Ylars.Agent

open Std (ExtTreeMap)
open Ylars.Lib

/-- An operation of `route_lb`: a request of a client, or a response of the dns server. -/
inductive RouteOp where
  | getHost (seq modid cmdid : UInt32) (now : Int)
  | getRoute (modid cmdid : UInt32) (now : Int)
  | reportHost (req : Proto.ReportRequest) (clock : Clock)
  | updateHost (res : Proto.GetRouteResponse) (clock : Clock)

/-- What it gives to the client, to the dns queue and to the report queue. -/
inductive RouteResult where
  | host (ret : Proto.LastRetCode) (res : Proto.GetHostResponse)
      (pulls : List Proto.GetRouteRequest)
  | route (ret : Proto.LastRetCode) (res : Proto.GetRouteResponse)
      (pulls : List Proto.GetRouteRequest)
  | status (report : Option Proto.ReportStatusReq)
  | updated

/-- The module of an operation. -/
def RouteOp.key : RouteOp → UInt64
  | .getHost _ modid cmdid _ => modKey modid cmdid
  | .getRoute modid cmdid _ => modKey modid cmdid
  | .reportHost req _ => modKey req.modid req.cmdid
  | .updateHost res _ => modKey res.modid res.cmdid

/-- The operations of one `route_lb`. -/
def RouteLb.step (cfg : LoadBalanceConfig) : RouteOp → RouteLb → Outcome (RouteResult × RouteLb)
  | .getHost seq modid cmdid now, r => do
      let (ret, res, pulls, r) ← r.getHost cfg now modid cmdid
        { seq := seq, modid := modid, cmdid := cmdid, retcode := .retSucc, host := none }
      return (.host ret res pulls, r)
  | .getRoute modid cmdid now, r => do
      let (ret, res, pulls, r) ← r.getRoute cfg now modid cmdid
        { modid := modid, cmdid := cmdid, host := [] }
      return (.route ret res pulls, r)
  | .reportHost req clock, r => do
      let (report, r) ← r.reportHost cfg clock req
      return (.status report, r)
  | .updateHost res clock, r => do
      let r ← r.updateHost cfg clock res
      return (.updated, r)

namespace Entry

/-- A module that a client asks for first: it pulls, and has no hosts. -/
def create (modid cmdid : UInt32) : List Proto.GetRouteRequest × LoadBalance :=
  ([(LoadBalance.new modid cmdid).pull.1], (LoadBalance.new modid cmdid).pull.2)

/-- The hosts that `get_route` adds to its response. -/
def hosts (lb : LoadBalance) : Proto.LastRetCode × List Proto.HostInfo :=
  let (ret, ps) := if lb.empty then (.retNoexist, []) else lb.getAllHost
  (ret, ps.map fun p ↦ ⟨(lb.heap p).ip, (lb.heap p).port⟩)

/-- An operation on the entry of its module. -/
def act (cfg : LoadBalanceConfig) :
    RouteOp → Option LoadBalance → Outcome (RouteResult × Option LoadBalance)
  | .getHost seq modid cmdid _, none =>
      .ok (.host .retNoexist ⟨seq, modid, cmdid, .retNoexist, none⟩ (create modid cmdid).1,
        some (create modid cmdid).2)
  | .getHost seq modid cmdid now, some lb => do
      let (ret, res, lb) ← lb.choiceIfAny cfg ⟨seq, modid, cmdid, .retSucc, none⟩
      let (pulls, lb) ← lb.refresh cfg now
      return (.host ret { res with retcode := ret } pulls, some lb)
  | .getRoute modid cmdid _, none =>
      .ok (.route .retNoexist ⟨modid, cmdid, []⟩ (create modid cmdid).1,
        some (create modid cmdid).2)
  | .getRoute modid cmdid now, some lb => do
      let (ret, hosts) := hosts lb
      let (pulls, lb) ← lb.refresh cfg now
      return (.route ret ⟨modid, cmdid, hosts⟩ pulls, some lb)
  | .reportHost _ _, none => .ok (.status none, none)
  | .reportHost req clock, some lb => do
      let lb ← lb.report cfg clock req.host.ip req.host.port req.issucc
      return (.status (lb.commit (clock 3)), some lb)
  | .updateHost _ _, none => .ok (.updated, none)
  | .updateHost res clock, some lb =>
      if res.host.isEmpty then .ok (.updated, none)
      else do
        let lb ← lb.update cfg clock res
        return (.updated, some lb)

end Entry

/-- The entry of a module, as a cell. -/
def routeCell (cfg : LoadBalanceConfig) : Cell UInt64 LoadBalance Fault RouteOp RouteResult where
  key := RouteOp.key
  act := Entry.act cfg

/-- A `route_lb`, as a store of entries. -/
def routeStore (cfg : LoadBalanceConfig) :
    Store RouteLb UInt64 LoadBalance Fault RouteOp RouteResult where
  get r k := r.routeMap[k]?
  step := RouteLb.step cfg

variable {cfg : LoadBalanceConfig} {r : RouteLb} {k : UInt64} {lb : LoadBalance}

theorem get_insert : (routeStore cfg).get ⟨r.routeMap.insert k lb⟩ =
    Function.update ((routeStore cfg).get r) k (some lb) := by
  funext k'
  rw [Function.update_apply]
  exact Table.getElem?_insert

theorem get_erase : (routeStore cfg).get ⟨r.routeMap.erase k⟩ =
    Function.update ((routeStore cfg).get r) k none := by
  funext k'
  rw [Function.update_apply]
  exact Table.getElem?_erase

theorem get_same {v : Option LoadBalance} (h : r.routeMap[k]? = v) : (routeStore cfg).get r =
    Function.update ((routeStore cfg).get r) k v := by
  subst h
  exact (Function.update_eq_self k _).symm

theorem step_entry (a : RouteOp) {v : Option LoadBalance} (h : r.routeMap[a.key]? = v) :
    (RouteLb.step cfg a r).map (Prod.map id (routeStore cfg).get) =
      (Entry.act cfg a v).map (Prod.map id (Function.update ((routeStore cfg).get r) a.key)) := by
  cases a with
  | getHost seq modid cmdid now =>
      rw [RouteOp.key] at h
      cases v with
      | none =>
          simp only [RouteLb.step, RouteLb.getHost, h]
          exact congrArg Except.ok (Prod.ext rfl get_insert)
      | some lb =>
          simp only [RouteLb.step, RouteLb.getHost, h, Entry.act]
          cases lb.choiceIfAny cfg ⟨seq, modid, cmdid, .retSucc, none⟩ with
          | error e => rfl
          | ok p =>
              simp only [Outcome.ok_bind]
              cases p.2.2.refresh cfg now with
              | error e => rfl
              | ok q => exact congrArg Except.ok (Prod.ext rfl get_insert)
  | getRoute modid cmdid now =>
      rw [RouteOp.key] at h
      cases v with
      | none =>
          simp only [RouteLb.step, RouteLb.getRoute, h]
          exact congrArg Except.ok (Prod.ext rfl get_insert)
      | some lb =>
          simp only [RouteLb.step, RouteLb.getRoute, h, Entry.act]
          cases hr : lb.refresh cfg now with
          | error e => rfl
          | ok q =>
              obtain ⟨-, hheap⟩ := LoadBalance.refresh_frame hr
              simp only [Outcome.ok_bind, hheap, List.nil_append]
              exact congrArg Except.ok (Prod.ext rfl get_insert)
  | reportHost req clock =>
      rw [RouteOp.key] at h
      cases v with
      | none =>
          simp only [RouteLb.step, RouteLb.reportHost, h]
          exact congrArg Except.ok (Prod.ext rfl (get_same h))
      | some lb =>
          simp only [RouteLb.step, RouteLb.reportHost, h, Entry.act]
          cases lb.report cfg clock req.host.ip req.host.port req.issucc with
          | error e => rfl
          | ok lb => exact congrArg Except.ok (Prod.ext rfl get_insert)
  | updateHost res clock =>
      rw [RouteOp.key] at h
      cases v with
      | none =>
          simp only [RouteLb.step, RouteLb.updateHost, h]
          exact congrArg Except.ok (Prod.ext rfl (get_same h))
      | some lb =>
          simp only [RouteLb.step, RouteLb.updateHost, h, Entry.act]
          by_cases he : res.host.isEmpty = true
          · simp only [he, if_true]
            exact congrArg Except.ok (Prod.ext rfl get_erase)
          · simp only [he]
            cases lb.update cfg clock res with
            | error e => rfl
            | ok lb => exact congrArg Except.ok (Prod.ext rfl get_insert)

theorem routeStore_local (cfg : LoadBalanceConfig) : (routeStore cfg).Local (routeCell cfg) :=
  fun a _ ↦ step_entry a rfl

/-! ## What an operation makes of an entry -/

/-- The requests for the dns queue. -/
def RouteResult.pulls : RouteResult → List Proto.GetRouteRequest
  | .host _ _ pulls => pulls
  | .route _ _ pulls => pulls
  | .status _ => []
  | .updated => []

namespace Entry

/-- An entry that is there is sound. -/
def Sound (k : UInt64) (v : Option LoadBalance) : Prop := ∀ lb ∈ v, lb.Sound k

/-- The entry that an operation leaves.  A response sets the hosts; otherwise the request of
the module is put on the dns queue, or hosts and status are what they were. -/
def Leaves (v : Option LoadBalance) (a : RouteOp) (b : RouteResult) (lb' : LoadBalance) : Prop :=
  match a with
  | .updateHost res _ => (∃ lb, v = some lb) ∧ res.host ≠ [] ∧ lb'.status = some .new ∧
      ∀ k, k ∈ lb'.hostMap ↔ ∃ host ∈ res.host, hostKey host.ip host.port = k
  | _ => (∃ req ∈ b.pulls, modKey req.modid req.cmdid = a.key) ∨
      ∃ lb ∈ v, lb'.hostMap = lb.hostMap ∧ lb'.status = lb.status

theorem Sound.none : Sound k none := fun _ h ↦ by cases h

theorem Sound.some (h : lb.Sound k) : Sound k (some lb) := fun _ h' ↦ Option.some.inj h' ▸ h

/-- Pulling again leaves the hosts, and the status unless there is a request. -/
theorem refresh_spec (h : lb.Sound k) (cfg : LoadBalanceConfig) (now : Int) :
    ∃ pulls lb', lb.refresh cfg now = .ok (pulls, lb') ∧ lb'.Sound k ∧
      ((∃ req ∈ pulls, modKey req.modid req.cmdid = k) ∨
        lb'.hostMap = lb.hostMap ∧ lb'.status = lb.status) := by
  unfold LoadBalance.refresh
  rcases h.status with hp | ⟨hn, -, ts, hts⟩
  · rw [hp]
    exact ⟨[], lb, rfl, h, .inr ⟨rfl, hp⟩⟩
  · simp only [hn, hts]
    split
    · exact ⟨_, _, rfl, h.pull, .inl ⟨_, List.mem_singleton.mpr rfl, h.key⟩⟩
    · exact ⟨[], lb, rfl, h, .inr ⟨rfl, hn⟩⟩

/-- A refresh pulls only the module of its own entry. -/
theorem pulls_of_refresh (h : lb.Sound k) {now : Int} {pulls : List Proto.GetRouteRequest}
    {lb' : LoadBalance} (hr : lb.refresh cfg now = .ok (pulls, lb')) :
    ∀ req ∈ pulls, modKey req.modid req.cmdid = k := by
  intro req hreq
  unfold LoadBalance.refresh at hr
  rcases h.status with hp | ⟨hn, -, ts, hts⟩
  · rw [hp] at hr
    obtain ⟨rfl, -⟩ := Prod.mk.inj (Except.ok.inj hr)
    cases hreq
  · simp only [hn, hts] at hr
    split at hr
    · obtain ⟨rfl, -⟩ := Prod.mk.inj (Except.ok.inj hr)
      obtain rfl := List.mem_singleton.mp hreq
      exact h.key
    · obtain ⟨rfl, -⟩ := Prod.mk.inj (Except.ok.inj hr)
      cases hreq

/-- Choosing a host leaves the hosts and the status. -/
theorem choiceIfAny_spec (h : lb.Sound k) (cfg : LoadBalanceConfig)
    (res : Proto.GetHostResponse) : ∃ ret res' lb', lb.choiceIfAny cfg res = .ok (ret, res', lb') ∧
      lb'.Sound k ∧ lb'.hostMap = lb.hostMap ∧ lb'.status = lb.status := by
  obtain ⟨ret, res', lb', hc, hs, hstatus⟩ := h.choiceIfAny cfg res
  refine ⟨ret, res', lb', hc, hs, ?_, hstatus⟩
  unfold LoadBalance.choiceIfAny at hc
  split at hc
  · obtain ⟨-, h₂⟩ := Prod.mk.inj (Except.ok.inj hc)
    rw [(Prod.mk.inj h₂).2]
  · exact (LoadBalance.choiceOneHost_frame hc).1

/-- An operation on a sound entry succeeds. -/
theorem act_spec (cfg : LoadBalanceConfig) (a : RouteOp) {v : Option LoadBalance}
    (h : Sound a.key v) :
    ∃ b v', act cfg a v = .ok (b, v') ∧ Sound a.key v' ∧ ∀ lb' ∈ v', Leaves v a b lb' := by
  cases a with
  | getHost seq modid cmdid now =>
      cases v with
      | none =>
          exact ⟨_, _, rfl, .some (.new_pull modid cmdid), fun _ _ ↦
            .inl ⟨_, List.mem_singleton.mpr rfl, rfl⟩⟩
      | some lb =>
          obtain ⟨ret, res', lb₁, hc, hs₁, hmap, hstatus⟩ :=
            choiceIfAny_spec (h lb rfl) cfg ⟨seq, modid, cmdid, .retSucc, Option.none⟩
          obtain ⟨pulls, lb₂, hr, hs₂, hp⟩ := refresh_spec hs₁ cfg now
          refine ⟨.host ret { res' with retcode := ret } pulls, some lb₂, ?_, .some hs₂,
            fun lb' hlb' ↦ ?_⟩
          · simp only [act, hc, hr, Outcome.ok_bind]
            rfl
          · obtain rfl := Option.some.inj hlb'
            rw [hmap, hstatus] at hp
            exact hp.imp_right fun hp ↦ ⟨lb, rfl, hp⟩
  | getRoute modid cmdid now =>
      cases v with
      | none =>
          exact ⟨_, _, rfl, .some (.new_pull modid cmdid), fun _ _ ↦
            .inl ⟨_, List.mem_singleton.mpr rfl, rfl⟩⟩
      | some lb =>
          obtain ⟨pulls, lb₁, hr, hs₁, hp⟩ := refresh_spec (h lb rfl) cfg now
          refine ⟨.route (hosts lb).1 ⟨modid, cmdid, (hosts lb).2⟩ pulls, some lb₁, ?_, .some hs₁,
            fun lb' hlb' ↦ ?_⟩
          · simp only [act, hr, Outcome.ok_bind]
            rfl
          · obtain rfl := Option.some.inj hlb'
            exact hp.imp_right fun hp ↦ ⟨lb, rfl, hp⟩
  | reportHost req clock =>
      cases v with
      | none => exact ⟨_, _, rfl, .none, fun _ hlb' ↦ by cases hlb'⟩
      | some lb =>
          obtain ⟨lb₁, hrep, hwf⟩ : ∃ lb', lb.report cfg clock req.host.ip req.host.port
              req.issucc = .ok lb' ∧ lb'.WellFormed := (h lb rfl).wf.report clock _ _ _
          have hmap := LoadBalance.hostMap_report hrep
          have hhead := LoadBalance.sameHead_report hrep
          refine ⟨.status (lb₁.commit (clock 3)), some lb₁, ?_,
            .some ((h lb rfl).of_sameHead hwf hhead hmap),
            fun lb' hlb' ↦ ?_⟩
          · simp only [act, hrep, Outcome.ok_bind]
            rfl
          · obtain rfl := Option.some.inj hlb'
            exact .inr ⟨lb, rfl, hmap, hhead.status⟩
  | updateHost res clock =>
      cases v with
      | none => exact ⟨_, _, rfl, .none, fun _ hlb' ↦ by cases hlb'⟩
      | some lb =>
          by_cases he : res.host = []
          · refine ⟨.updated, Option.none, ?_, .none, fun _ hlb' ↦ by cases hlb'⟩
            simp only [act, he, List.isEmpty_nil, if_true]
          · obtain ⟨lb₁, hu, hs₁, hnew⟩ := (h lb rfl).update cfg clock he
            obtain ⟨hset, -⟩ : LoadBalance.SetTo lb res.host lb₁ ∧ _ :=
              Outcome.of_exists_ok ((h lb rfl).wf.update_setTo clock res) hu
            refine ⟨.updated, some lb₁, ?_, .some hs₁, fun lb' hlb' ↦ ?_⟩
            · have hne : res.host.isEmpty = false := by simpa using he
              simp only [act, hne, hu, Outcome.ok_bind, Bool.false_eq_true, if_false]
              rfl
            · obtain rfl := Option.some.inj hlb'
              exact ⟨⟨lb, rfl⟩, he, hnew, hset.mem⟩

/-- An operation for a client keeps the hosts of an entry, or it creates one without. -/
theorem act_keeps {a : RouteOp} {b : RouteResult} {v v' : Option LoadBalance}
    {lb' : LoadBalance}
    (h : Sound a.key v) (hact : act cfg a v = .ok (b, v'))
    (ha : ∀ res clock, a ≠ .updateHost res clock) (hlb' : lb' ∈ v') :
    lb'.empty = true ∨ ∃ lb ∈ v, lb'.hostMap = lb.hostMap := by
  cases a with
  | getHost seq modid cmdid now =>
      cases v with
      | none =>
          obtain ⟨-, rfl⟩ := Prod.mk.inj (Except.ok.inj hact)
          obtain rfl := Option.some.inj hlb'
          exact .inl rfl
      | some lb =>
          simp only [Entry.act, Outcome.bind_eq_ok] at hact
          obtain ⟨⟨ret, res, lb₁⟩, hc, ⟨pulls, lb₂⟩, hr, hb⟩ := hact
          obtain ⟨-, rfl⟩ := Prod.mk.inj (Except.ok.inj hb)
          obtain rfl := Option.some.inj hlb'
          obtain ⟨ret', res', lb₁', hc', -, hmap, -⟩ :=
            choiceIfAny_spec (h lb rfl) cfg ⟨seq, modid, cmdid, .retSucc, Option.none⟩
          obtain ⟨-, hp⟩ := Prod.mk.inj (Except.ok.inj (hc.symm.trans hc'))
          obtain ⟨-, rfl⟩ := Prod.mk.inj hp
          exact .inr ⟨lb, rfl, (LoadBalance.refresh_frame hr).1.trans hmap⟩
  | getRoute modid cmdid now =>
      cases v with
      | none =>
          obtain ⟨-, rfl⟩ := Prod.mk.inj (Except.ok.inj hact)
          obtain rfl := Option.some.inj hlb'
          exact .inl rfl
      | some lb =>
          simp only [Entry.act, Outcome.bind_eq_ok] at hact
          obtain ⟨⟨pulls, lb₁⟩, hr, hb⟩ := hact
          obtain ⟨-, rfl⟩ := Prod.mk.inj (Except.ok.inj hb)
          obtain rfl := Option.some.inj hlb'
          exact .inr ⟨lb, rfl, (LoadBalance.refresh_frame hr).1⟩
  | reportHost req clock =>
      cases v with
      | none =>
          obtain ⟨-, rfl⟩ := Prod.mk.inj (Except.ok.inj hact)
          cases hlb'
      | some lb =>
          simp only [Entry.act, Outcome.bind_eq_ok] at hact
          obtain ⟨lb₁, hr, hb⟩ := hact
          obtain ⟨-, rfl⟩ := Prod.mk.inj (Except.ok.inj hb)
          obtain rfl := Option.some.inj hlb'
          exact .inr ⟨lb, rfl, LoadBalance.hostMap_report hr⟩
  | updateHost res clock => exact absurd rfl (ha res clock)

theorem updated_of_act {res : Proto.GetRouteResponse} {clock : Clock} {b : RouteResult}
    {v v' : Option LoadBalance} (hact : act cfg (.updateHost res clock) v = .ok (b, v')) :
    b = .updated := by
  cases v with
  | none => exact (Prod.mk.inj (Except.ok.inj hact)).1.symm
  | some lb =>
      simp only [act] at hact
      split at hact
      · exact (Prod.mk.inj (Except.ok.inj hact)).1.symm
      · obtain ⟨lb₁, -, hb⟩ := Outcome.bind_eq_ok.mp hact
        exact (Prod.mk.inj (Except.ok.inj hb)).1.symm

/-- The requests of an operation are for its module. -/
theorem pulls_of_act {a : RouteOp} {b : RouteResult} {v v' : Option LoadBalance}
    (h : Sound a.key v) (hact : act cfg a v = .ok (b, v')) :
    ∀ req ∈ b.pulls, modKey req.modid req.cmdid = a.key := by
  intro req hreq
  cases a with
  | getHost seq modid cmdid now =>
      cases v with
      | none =>
          obtain ⟨rfl, -⟩ := Prod.mk.inj (Except.ok.inj hact)
          obtain rfl := List.mem_singleton.mp hreq
          rfl
      | some lb =>
          simp only [act, Outcome.bind_eq_ok] at hact
          obtain ⟨⟨ret, res, lb₁⟩, hc, ⟨pulls, lb₂⟩, hr, hb⟩ := hact
          obtain ⟨rfl, -⟩ := Prod.mk.inj (Except.ok.inj hb)
          obtain ⟨ret', res', lb₁', hc', hs, -⟩ :=
            choiceIfAny_spec (h lb rfl) cfg ⟨seq, modid, cmdid, .retSucc, Option.none⟩
          obtain ⟨-, hp⟩ := Prod.mk.inj (Except.ok.inj (hc.symm.trans hc'))
          obtain ⟨-, rfl⟩ := Prod.mk.inj hp
          exact pulls_of_refresh hs hr req hreq
  | getRoute modid cmdid now =>
      cases v with
      | none =>
          obtain ⟨rfl, -⟩ := Prod.mk.inj (Except.ok.inj hact)
          obtain rfl := List.mem_singleton.mp hreq
          rfl
      | some lb =>
          simp only [act, Outcome.bind_eq_ok] at hact
          obtain ⟨⟨pulls, lb₁⟩, hr, hb⟩ := hact
          obtain ⟨rfl, -⟩ := Prod.mk.inj (Except.ok.inj hb)
          exact pulls_of_refresh (h lb rfl) hr req hreq
  | reportHost report clock =>
      cases v with
      | none =>
          obtain ⟨rfl, -⟩ := Prod.mk.inj (Except.ok.inj hact)
          cases hreq
      | some lb =>
          simp only [act, Outcome.bind_eq_ok] at hact
          obtain ⟨lb₁, -, hb⟩ := hact
          obtain ⟨rfl, -⟩ := Prod.mk.inj (Except.ok.inj hb)
          cases hreq
  | updateHost res clock =>
      rw [updated_of_act hact] at hreq
      cases hreq

end Entry

/-! ## The three udp servers -/

/-- The udp server that a module is at home in. -/
def homeOf (key : UInt64) : Fin 3 := agentIndex (unpack key).1 (unpack key).2

@[simp] theorem homeOf_modKey (modid cmdid : UInt32) :
    homeOf (modKey modid cmdid) = agentIndex modid cmdid := by
  rw [homeOf, modKey, unpack_pack]

/-- The three `route_lb` of the agent, as one store. -/
abbrev agentStore (cfg : LoadBalanceConfig) :
    Store (Fin 3 → RouteLb) UInt64 LoadBalance Fault RouteOp RouteResult :=
  (routeStore cfg).split RouteOp.key homeOf

theorem agentStore_local (cfg : LoadBalanceConfig) : (agentStore cfg).Local (routeCell cfg) :=
  (routeStore_local cfg).split homeOf

theorem agentStore_step_eq {a : RouteOp} {i : Fin 3} {routes : Fin 3 → RouteLb} {b : RouteResult}
    {r : RouteLb} (hi : homeOf a.key = i) (h : RouteLb.step cfg a (routes i) = .ok (b, r)) :
    (agentStore cfg).step a routes = .ok (b, Function.update routes i r) := by
  subst hi
  simp only [Store.split, routeStore, h]
  rfl

/-- All entries that are at home are sound. -/
def AgentsSound (cfg : LoadBalanceConfig) (routes : Fin 3 → RouteLb) : Prop :=
  ∀ k, Entry.Sound k ((agentStore cfg).get routes k)

theorem agentsSound_new (cfg : LoadBalanceConfig) : AgentsSound cfg fun _ ↦ RouteLb.new := by
  intro k lb h
  simp [Store.split, routeStore, RouteLb.new] at h

/-- An operation on sound entries succeeds. -/
theorem agentStore_step {routes : Fin 3 → RouteLb} (h : AgentsSound cfg routes) (a : RouteOp) :
    ∃ b routes', (agentStore cfg).step a routes = .ok (b, routes') ∧ AgentsSound cfg routes' ∧
      (∀ k, k ≠ a.key → (agentStore cfg).get routes' k = (agentStore cfg).get routes k) ∧
      ∀ lb' ∈ (agentStore cfg).get routes' a.key,
        Entry.Leaves ((agentStore cfg).get routes a.key) a b lb' := by
  obtain ⟨b, v, hact, hs, hl⟩ := Entry.act_spec cfg a (h a.key)
  obtain ⟨routes', hst, hget⟩ := (agentStore_local cfg).exists_step hact
  have hother : ∀ k, k ≠ a.key →
      (agentStore cfg).get routes' k = (agentStore cfg).get routes k := fun k hk ↦ by
    rw [hget]
    exact Function.update_of_ne hk _ _
  have hself : (agentStore cfg).get routes' a.key = v := by
    rw [hget]
    exact Function.update_self _ _ _
  refine ⟨b, routes', hst, fun k ↦ ?_, hother, by rwa [hself]⟩
  by_cases hk : k = a.key
  · rw [hk, hself]
    exact hs
  · rw [hother k hk]
    exact h k

theorem exists_runAll_agents (cfg : LoadBalanceConfig) (ops : List RouteOp) :
    ∃ results routes, runAll (agentStore cfg).step ops (fun _ ↦ RouteLb.new) =
      .ok (results, routes) := by
  obtain ⟨results, routes, hr, -⟩ := exists_runAll (I := AgentsSound cfg)
    (fun a _ h ↦ let ⟨b, t, hst, ht, _⟩ := agentStore_step h a; ⟨b, t, hst, ht⟩) ops
    (agentsSound_new cfg)
  exact ⟨results, routes, hr⟩

/-- **Modules do not interfere.**  Requests and responses come to the three udp servers in
any order; what each gives, and the entry that is left of a module, is what the operations
on this module alone give and leave. -/
theorem modules_apart (cfg : LoadBalanceConfig) (ops : List RouteOp) :
    ∃ results routes, runAll (agentStore cfg).step ops (fun _ ↦ RouteLb.new) =
        .ok (results, routes) ∧
      ∀ modid cmdid, runAll (Entry.act cfg) (ops.filter fun a ↦ a.key = modKey modid cmdid) none =
        .ok ((routeCell cfg).results (modKey modid cmdid) ops results,
          (routes (agentIndex modid cmdid)).routeMap[modKey modid cmdid]?) := by
  obtain ⟨results, routes, hr⟩ := exists_runAll_agents cfg ops
  refine ⟨results, routes, hr, fun modid cmdid ↦ ?_⟩
  have hcell := (agentStore_local cfg).run_cell hr (modKey modid cmdid)
  simp only [Store.split, homeOf_modKey] at hcell
  exact hcell

/-- **Three servers are as good as one.**  The udp servers give the results that a single
`route_lb` would give, and have the entries that it would have. -/
theorem three_as_one (cfg : LoadBalanceConfig) (ops : List RouteOp) :
    ∃ results routes r, runAll (agentStore cfg).step ops (fun _ ↦ RouteLb.new) =
        .ok (results, routes) ∧
      runAll (RouteLb.step cfg) ops RouteLb.new = .ok (results, r) ∧
      ∀ modid cmdid, r.routeMap[modKey modid cmdid]? =
        (routes (agentIndex modid cmdid)).routeMap[modKey modid cmdid]? := by
  obtain ⟨results, routes, hr⟩ := exists_runAll_agents cfg ops
  have hempty : (agentStore cfg).get (fun _ ↦ RouteLb.new) = (routeStore cfg).get RouteLb.new := rfl
  obtain ⟨r, hr', hget⟩ := (agentStore_local cfg).run_sim (routeStore_local cfg) hempty hr
  refine ⟨results, routes, r, hr, hr', fun modid cmdid ↦ ?_⟩
  have hk := congrFun hget (modKey modid cmdid)
  simp only [Store.split, homeOf_modKey] at hk
  exact hk.symm

end Ylars.Agent
