import Ylars.Agent.Eviction

/-!
# The modules of one agent: `route_lb`

A `RouteLb` has a load balancer for each module that clients have asked for.  A new one
pulls its hosts at once; one that has hosts pulls them again when they are older than
`update_timeout`.  A request is put on the dns queue, so the functions give it back with
their result.  A response without hosts removes the module.
-/

namespace Ylars.Agent

open Std (ExtTreeMap ExtTreeSet)
open Ylars.Lib

/-- The modules of one agent, `route_lb`. -/
structure RouteLb where
  routeMap : ExtTreeMap UInt64 LoadBalance

/-- The key of a module in `_route_map`. -/
def modKey (modid cmdid : UInt32) : UInt64 := pack modid cmdid

/-- The start of `get_host` in an entry: a host, unless none is known. -/
def LoadBalance.choiceIfAny (cfg : LoadBalanceConfig) (res : Proto.GetHostResponse)
    (lb : LoadBalance) : Outcome (Proto.LastRetCode × Proto.GetHostResponse × LoadBalance) :=
  if lb.empty then .ok (.retNoexist, res, lb) else lb.choiceOneHost cfg res

/-- The end of `get_host` and `get_route`: hosts that are too old are pulled again. -/
def LoadBalance.refresh (cfg : LoadBalanceConfig) (now : Int) (lb : LoadBalance) :
    Outcome (List Proto.GetRouteRequest × LoadBalance) :=
  match lb.status with
  | none => .error .uninitialised
  | some .pulling => .ok ([], lb)
  | some .new =>
      match lb.lastUpdateTs with
      | none => .error .uninitialised
      | some ts =>
          if cfg.updateTimeout ≤ now - ts then .ok ([lb.pull.1], lb.pull.2) else .ok ([], lb)

namespace RouteLb

/-- The constructor. -/
def new : RouteLb where
  routeMap := ∅

/-- A module that is not there: a new load balancer, which pulls. -/
def create (modid cmdid : UInt32) (r : RouteLb) : List Proto.GetRouteRequest × RouteLb :=
  let (req, lb) := (LoadBalance.new modid cmdid).pull
  ([req], ⟨r.routeMap.insert (modKey modid cmdid) lb⟩)

/-- `get_host`: the code, the response, the request for the dns queue. -/
def getHost (cfg : LoadBalanceConfig) (now : Int) (modid cmdid : UInt32)
    (res : Proto.GetHostResponse) (r : RouteLb) :
    Outcome (Proto.LastRetCode × Proto.GetHostResponse × List Proto.GetRouteRequest × RouteLb) :=
  match r.routeMap[modKey modid cmdid]? with
  | none =>
      let (reqs, r) := r.create modid cmdid
      .ok (.retNoexist, { res with retcode := .retNoexist }, reqs, r)
  | some lb => do
      let (ret, res, lb) ← lb.choiceIfAny cfg res
      let (reqs, lb) ← lb.refresh cfg now
      return (ret, { res with retcode := ret }, reqs, ⟨r.routeMap.insert (modKey modid cmdid) lb⟩)

/-- `get_route`: the same for all hosts of the module. -/
def getRoute (cfg : LoadBalanceConfig) (now : Int) (modid cmdid : UInt32)
    (res : Proto.GetRouteResponse) (r : RouteLb) :
    Outcome (Proto.LastRetCode × Proto.GetRouteResponse × List Proto.GetRouteRequest × RouteLb) :=
  match r.routeMap[modKey modid cmdid]? with
  | none =>
      let (reqs, r) := r.create modid cmdid
      .ok (.retNoexist, res, reqs, r)
  | some lb => do
      let (ret, hosts) := if lb.empty then (.retNoexist, []) else lb.getAllHost
      let (reqs, lb) ← lb.refresh cfg now
      return (ret,
        { res with host := res.host ++ hosts.map fun p ↦ ⟨(lb.heap p).ip, (lb.heap p).port⟩ },
        reqs, ⟨r.routeMap.insert (modKey modid cmdid) lb⟩)

/-- `report_host`: the status report for the report queue. -/
def reportHost (cfg : LoadBalanceConfig) (clock : Clock) (req : Proto.ReportRequest)
    (r : RouteLb) : Outcome (Option Proto.ReportStatusReq × RouteLb) :=
  match r.routeMap[modKey req.modid req.cmdid]? with
  | none => .ok (none, r)
  | some lb => do
      let lb ← lb.report cfg clock req.host.ip req.host.port req.issucc
      return (lb.commit (clock 3), ⟨r.routeMap.insert (modKey req.modid req.cmdid) lb⟩)

/-- `update_host`. -/
def updateHost (cfg : LoadBalanceConfig) (clock : Clock) (res : Proto.GetRouteResponse)
    (r : RouteLb) : Outcome RouteLb :=
  match r.routeMap[modKey res.modid res.cmdid]? with
  | none => .ok r
  | some lb =>
      if res.host.isEmpty then .ok ⟨r.routeMap.erase (modKey res.modid res.cmdid)⟩
      else do
        let lb ← lb.update cfg clock res
        return ⟨r.routeMap.insert (modKey res.modid res.cmdid) lb⟩

end RouteLb

/-! ## What the operations leave of an entry -/

namespace LoadBalance

/-- The module, its status and the time of its last update are the same. -/
structure SameHead (lb lb' : LoadBalance) : Prop where
  modid : lb'.modid = lb.modid
  cmdid : lb'.cmdid = lb.cmdid
  status : lb'.status = lb.status
  lastUpdateTs : lb'.lastUpdateTs = lb.lastUpdateTs

theorem SameHead.refl (lb : LoadBalance) : SameHead lb lb := ⟨rfl, rfl, rfl, rfl⟩

theorem SameHead.trans {a b c : LoadBalance} (h : SameHead a b) (h' : SameHead b c) :
    SameHead a c :=
  ⟨h'.modid.trans h.modid, h'.cmdid.trans h.cmdid, h'.status.trans h.status,
    h'.lastUpdateTs.trans h.lastUpdateTs⟩

variable {cfg : LoadBalanceConfig} {lb lb' : LoadBalance}

theorem sameHead_choiceOneHost {res res' : Proto.GetHostResponse} {ret : Proto.LastRetCode}
    (h : lb.choiceOneHost cfg res = .ok (ret, res', lb')) : SameHead lb lb' := by
  obtain ⟨_, _, _, rfl⟩ := choiceOneHost_eq h
  exact ⟨rfl, rfl, rfl, rfl⟩

theorem sameHead_report {clock : Clock} {ip port : UInt32} {isSucc : Bool}
    (h : lb.report cfg clock ip port isSucc = .ok lb') : SameHead lb lb' := by
  obtain ⟨_, _, _, rfl⟩ := report_eq h
  exact ⟨rfl, rfl, rfl, rfl⟩

theorem hostMap_report {clock : Clock} {ip port : UInt32} {isSucc : Bool}
    (h : lb.report cfg clock ip port isSucc = .ok lb') : lb'.hostMap = lb.hostMap := by
  obtain ⟨_, _, _, rfl⟩ := report_eq h
  rfl

/-! ## What an update makes of an entry -/

/-- Filing a host does not touch the head. -/
theorem sameHead_insertHost (now : Int) (host : Proto.HostInfo) :
    SameHead lb (lb.insertHost cfg now host) := by
  unfold insertHost
  dsimp only
  split <;> exact ⟨rfl, rfl, rfl, rfl⟩

/-- Filing the hosts of a response does not touch the head. -/
theorem sameHead_insertHosts (cfg : LoadBalanceConfig) (clock : Clock)
    (hosts : List Proto.HostInfo) :
    ∀ (i : Nat) (lb : LoadBalance) (remoteHosts : ExtTreeSet UInt64),
      SameHead lb (insertHosts cfg clock i lb remoteHosts hosts).1 := by
  induction hosts with
  | nil => exact fun _ lb _ ↦ .refl lb
  | cons host hosts ih => exact fun _ _ _ ↦ (sameHead_insertHost _ host).trans (ih _ _ _)

theorem sameHead_deleteHosts {ks : List UInt64} (h : ks.foldlM deleteHost lb = .ok lb') :
    SameHead lb lb' := by
  obtain ⟨_, _, rfl⟩ := deleteHosts_eq ks lb lb' h
  exact ⟨rfl, rfl, rfl, rfl⟩

/-- A host that is filed has a record. -/
theorem exists_getElem?_insertHost (cfg : LoadBalanceConfig) (lb : LoadBalance) (now : Int)
    (host : Proto.HostInfo) :
    ∃ p, (lb.insertHost cfg now host).hostMap[hostKey host.ip host.port]? = some p := by
  unfold insertHost
  by_cases hk : hostKey host.ip host.port ∈ lb.hostMap
  · simp only [hk, if_true]
    exact Option.isSome_iff_exists.mp (by simpa using hk)
  · simp only [hk, if_false]
    exact ⟨lb.next, by simp⟩

/-- Every host of a response is filed, and its key is collected. -/
theorem insertHosts_files (cfg : LoadBalanceConfig) (clock : Clock) {host : Proto.HostInfo}
    (hosts : List Proto.HostInfo) (hmem : host ∈ hosts) :
    ∀ (i : Nat) (lb : LoadBalance) (remoteHosts : ExtTreeSet UInt64), lb.WellFormed →
      ∃ p, (insertHosts cfg clock i lb remoteHosts hosts).1.hostMap[hostKey host.ip host.port]? =
          some p ∧
        hostKey host.ip host.port ∈ (insertHosts cfg clock i lb remoteHosts hosts).2 := by
  induction hosts with
  | nil => cases hmem
  | cons first hosts ih =>
      intro i lb remoteHosts h
      rw [insertHosts]
      rcases List.mem_cons.mp hmem with rfl | hmem
      · obtain ⟨p, hp⟩ := exists_getElem?_insertHost cfg lb (clock (i + 1)) host
        obtain ⟨hp', -, hr⟩ := insertHosts_frame cfg clock hosts (i + 1) _
          (remoteHosts.insert (hostKey host.ip host.port)) (h.insertHost _ host) hp
        exact ⟨p, hp', hr.mpr (.inl (by simp))⟩
      · exact ih hmem (i + 1) _ _ (h.insertHost _ first)

/-- An update with hosts keeps the module, sets status and time, and leaves hosts. -/
theorem update_spec (h : lb.WellFormed) {clock : Clock} {res : Proto.GetRouteResponse}
    (hres : res.host ≠ []) (hu : lb.update cfg clock res = .ok lb') :
    lb'.modid = lb.modid ∧ lb'.cmdid = lb.cmdid ∧ lb'.status = some .new ∧
      lb'.lastUpdateTs = some (clock 0) ∧ lb'.empty = false := by
  unfold update at hu
  have hfile := insertHosts_files cfg clock res.host (List.head_mem hres) 0
    { lb with lastUpdateTs := some (clock 0) } ∅ (h.of_eq rfl rfl rfl rfl rfl)
  have hhead := sameHead_insertHosts cfg clock res.host 0
    { lb with lastUpdateTs := some (clock 0) } ∅
  generalize hx : insertHosts cfg clock 0
    { lb with lastUpdateTs := some (clock 0) } ∅ res.host = x at hu hfile hhead
  simp only [Outcome.bind_eq_ok] at hu
  obtain ⟨lb₂, h₂, hret⟩ := hu
  obtain rfl := Except.ok.inj hret
  -- the deletes spare the hosts of the response
  obtain ⟨p, hp, hk⟩ := hfile
  have hspare : hostKey (res.host.head hres).ip (res.host.head hres).port ∉ x.1.needDelete x.2 :=
    fun hk' ↦ by simpa [hk] using (List.mem_filter.mp hk').2
  obtain ⟨hp₂, -⟩ := deleteHosts_frame _ hspare _ _ h₂ hp
  have hhead₂ := hhead.trans (sameHead_deleteHosts h₂)
  refine ⟨hhead₂.modid, hhead₂.cmdid, rfl, hhead₂.lastUpdateTs, ?_⟩
  rw [empty, ExtTreeMap.isEmpty_eq_false_iff]
  intro hempty
  simp only at hempty
  simp [hempty] at hp₂

/-! ## The states an entry can be in -/

/-- An entry is filed under the key of its module, and it waits for its hosts or has hosts
and the time they came at. -/
structure Sound (key : UInt64) (lb : LoadBalance) : Prop where
  wf : lb.WellFormed
  key : modKey lb.modid lb.cmdid = key
  status : lb.status = some .pulling ∨
    lb.status = some .new ∧ lb.empty = false ∧ ∃ ts, lb.lastUpdateTs = some ts

namespace Sound

variable {key : UInt64}

/-- An operation on the hosts keeps what it leaves the head and the map of. -/
theorem of_sameHead (h : lb.Sound key) (hwf : lb'.WellFormed) (hhead : SameHead lb lb')
    (hmap : lb'.hostMap = lb.hostMap) : lb'.Sound key where
  wf := hwf
  key := by rw [hhead.modid, hhead.cmdid, h.key]
  status := by
    rw [hhead.status, hhead.lastUpdateTs, empty, hmap]
    exact h.status

theorem new_pull (modid cmdid : UInt32) :
    (LoadBalance.new modid cmdid).pull.2.Sound (modKey modid cmdid) where
  wf := (WellFormed.new modid cmdid).of_eq rfl rfl rfl rfl rfl
  key := rfl
  status := .inl rfl

theorem pull (h : lb.Sound key) : lb.pull.2.Sound key where
  wf := h.wf.of_eq rfl rfl rfl rfl rfl
  key := h.key
  status := .inl rfl

/-- Choosing a host succeeds and leaves the status. -/
theorem choiceIfAny (h : lb.Sound key) (cfg : LoadBalanceConfig) (res : Proto.GetHostResponse) :
    ∃ ret res' lb', lb.choiceIfAny cfg res = .ok (ret, res', lb') ∧ lb'.Sound key ∧
      lb'.status = lb.status := by
  unfold LoadBalance.choiceIfAny
  split
  · exact ⟨_, _, lb, rfl, h, rfl⟩
  · obtain ⟨ret, res', lb', h₁, hwf, -⟩ := h.wf.choiceOneHost cfg res
    have hhead := sameHead_choiceOneHost h₁
    exact ⟨ret, res', lb', h₁, h.of_sameHead hwf hhead (choiceOneHost_frame h₁).1, hhead.status⟩

/-- Hosts that are too old are pulled again: the entry waits only if it did, or if its
request is put on the queue. -/
theorem refresh (h : lb.Sound key) (cfg : LoadBalanceConfig) (now : Int) :
    ∃ reqs lb', lb.refresh cfg now = .ok (reqs, lb') ∧ lb'.Sound key ∧
      (lb'.status = some .pulling → lb.status = some .pulling ∨
        ∃ req ∈ reqs, modKey req.modid req.cmdid = key) := by
  unfold LoadBalance.refresh
  rcases h.status with hp | ⟨hn, -, ts, hts⟩
  · rw [hp]
    exact ⟨[], lb, rfl, h, fun _ ↦ .inl rfl⟩
  · simp only [hn, hts]
    split
    · exact ⟨_, _, rfl, h.pull, fun _ ↦ .inr ⟨_, List.mem_singleton.mpr rfl, h.key⟩⟩
    · exact ⟨[], lb, rfl, h, fun hp ↦ by simp [hn] at hp⟩

/-- A response with hosts ends the wait. -/
theorem update (h : lb.Sound key) (cfg : LoadBalanceConfig) (clock : Clock)
    {res : Proto.GetRouteResponse} (hres : res.host ≠ []) :
    ∃ lb', lb.update cfg clock res = .ok lb' ∧ lb'.Sound key ∧ lb'.status = some .new := by
  obtain ⟨lb', hu, hwf⟩ : ∃ lb', lb.update cfg clock res = .ok lb' ∧ lb'.WellFormed :=
    h.wf.update clock res
  obtain ⟨hmodid, hcmdid, hstatus, hts, hempty⟩ := update_spec h.wf hres hu
  refine ⟨lb', hu, ⟨hwf, ?_, .inr ⟨hstatus, hempty, _, hts⟩⟩, hstatus⟩
  rw [hmodid, hcmdid, h.key]

end Sound

end LoadBalance

/-! ## What one operation does to the modules of its agent -/

namespace RouteLb

/-- Every entry is sound. -/
def Sound (r : RouteLb) : Prop :=
  ∀ (key : UInt64) (lb : LoadBalance), r.routeMap[key]? = some lb → lb.Sound key

/-- An operation on the module `key` that puts `reqs` on the dns queue: the other entries
are the same, and the module waits only if it did or if its request is in `reqs`. -/
structure Acts (key : UInt64) (reqs : List Proto.GetRouteRequest) (r r' : RouteLb) : Prop where
  sound : r'.Sound
  other : ∀ (k : UInt64) (lb : LoadBalance), r'.routeMap[k]? = some lb →
    k = key ∨ r.routeMap[k]? = some lb
  pulling : ∀ lb', r'.routeMap[key]? = some lb' → lb'.status = some .pulling →
    (∃ req ∈ reqs, modKey req.modid req.cmdid = key) ∨
    ∃ lb, r.routeMap[key]? = some lb ∧ lb.status = some .pulling

variable {cfg : LoadBalanceConfig} {r : RouteLb} {key : UInt64}
  {reqs : List Proto.GetRouteRequest} {lb : LoadBalance}

theorem Sound.new : RouteLb.new.Sound := by
  intro key lb h
  simp [RouteLb.new] at h

theorem Acts.refl (h : r.Sound) : Acts key [] r r where
  sound := h
  other _ _ hk := .inr hk
  pulling _ hk hp := .inr ⟨_, hk, hp⟩

theorem Acts.insert (h : r.Sound) (hlb : lb.Sound key)
    (hp : lb.status = some .pulling → (∃ req ∈ reqs, modKey req.modid req.cmdid = key) ∨
      ∃ lb₀, r.routeMap[key]? = some lb₀ ∧ lb₀.status = some .pulling) :
    Acts key reqs r ⟨r.routeMap.insert key lb⟩ := by
  have hget : ∀ (k : UInt64) (lb' : LoadBalance), (r.routeMap.insert key lb)[k]? = some lb' →
      (k = key ∧ lb' = lb) ∨ r.routeMap[k]? = some lb' := by
    intro k lb' hk
    rw [ExtTreeMap.getElem?_insert] at hk
    by_cases e : key = k
    · subst e
      rw [if_pos Std.ReflCmp.compare_self] at hk
      exact .inl ⟨rfl, (Option.some.inj hk).symm⟩
    · simp only [Std.compare_eq_iff_eq, e, if_false] at hk
      exact .inr hk
  refine ⟨fun k lb' hk ↦ ?_, fun k lb' hk ↦ ?_, fun lb' hk hp' ↦ ?_⟩
  · rcases hget k lb' hk with ⟨rfl, rfl⟩ | hk
    · exact hlb
    · exact h k lb' hk
  · exact (hget k lb' hk).imp_left And.left
  · rw [ExtTreeMap.getElem?_insert_self] at hk
    obtain rfl := Option.some.inj hk
    exact hp hp'

theorem acts_create (h : r.Sound) (modid cmdid : UInt32) :
    Acts (modKey modid cmdid) (r.create modid cmdid).1 r (r.create modid cmdid).2 :=
  Acts.insert h (.new_pull modid cmdid) fun _ ↦ .inl ⟨_, List.mem_singleton.mpr rfl, rfl⟩

/-- `get_host` succeeds. -/
theorem acts_getHost (h : r.Sound) (cfg : LoadBalanceConfig) (now : Int) (modid cmdid : UInt32)
    (res : Proto.GetHostResponse) :
    ∃ ret res' reqs r', r.getHost cfg now modid cmdid res = .ok (ret, res', reqs, r') ∧
      Acts (modKey modid cmdid) reqs r r' := by
  unfold getHost
  cases hget : r.routeMap[modKey modid cmdid]? with
  | none => exact ⟨_, _, _, _, rfl, acts_create h modid cmdid⟩
  | some lb =>
      obtain ⟨ret, res', lb₁, h₁, hlb₁, hstatus⟩ := (h _ lb hget).choiceIfAny cfg res
      obtain ⟨reqs, lb₂, h₂, hlb₂, hp⟩ := hlb₁.refresh cfg now
      simp only [h₁, h₂, Outcome.ok_bind]
      refine ⟨_, _, reqs, _, rfl, Acts.insert h hlb₂ fun hp₂ ↦ ?_⟩
      rcases hp hp₂ with hp₁ | hreq
      · exact .inr ⟨lb, hget, hstatus ▸ hp₁⟩
      · exact .inl hreq

/-- `get_route` succeeds. -/
theorem acts_getRoute (h : r.Sound) (cfg : LoadBalanceConfig) (now : Int)
    (modid cmdid : UInt32) (res : Proto.GetRouteResponse) :
    ∃ ret res' reqs r', r.getRoute cfg now modid cmdid res = .ok (ret, res', reqs, r') ∧
      Acts (modKey modid cmdid) reqs r r' := by
  unfold getRoute
  cases hget : r.routeMap[modKey modid cmdid]? with
  | none => exact ⟨_, _, _, _, rfl, acts_create h modid cmdid⟩
  | some lb =>
      obtain ⟨reqs, lb', h₁, hlb', hp⟩ := (h _ lb hget).refresh cfg now
      simp only [h₁, Outcome.ok_bind]
      refine ⟨_, _, reqs, _, rfl, Acts.insert h hlb' fun hp' ↦ ?_⟩
      rcases hp hp' with hp₁ | hreq
      · exact .inr ⟨lb, hget, hp₁⟩
      · exact .inl hreq

/-- `report_host` succeeds and asks for nothing. -/
theorem acts_reportHost (h : r.Sound) (cfg : LoadBalanceConfig) (clock : Clock)
    (req : Proto.ReportRequest) :
    ∃ status r', r.reportHost cfg clock req = .ok (status, r') ∧
      Acts (modKey req.modid req.cmdid) [] r r' := by
  unfold reportHost
  cases hget : r.routeMap[modKey req.modid req.cmdid]? with
  | none => exact ⟨none, r, rfl, .refl h⟩
  | some lb =>
      have hlb := h _ lb hget
      obtain ⟨lb', h₁, hwf⟩ : ∃ lb', lb.report cfg clock req.host.ip req.host.port req.issucc =
          .ok lb' ∧ lb'.WellFormed := hlb.wf.report clock _ _ _
      have hhead := LoadBalance.sameHead_report h₁
      simp only [h₁, Outcome.ok_bind]
      refine ⟨_, _, rfl, Acts.insert h
        (hlb.of_sameHead hwf hhead (LoadBalance.hostMap_report h₁)) fun hp ↦ ?_⟩
      exact .inr ⟨lb, hget, hhead.status ▸ hp⟩

/-- `update_host` succeeds, and its module waits no longer. -/
theorem acts_updateHost (h : r.Sound) (cfg : LoadBalanceConfig) (clock : Clock)
    (res : Proto.GetRouteResponse) :
    ∃ r', r.updateHost cfg clock res = .ok r' ∧ Acts (modKey res.modid res.cmdid) [] r r' ∧
      ∀ lb', r'.routeMap[modKey res.modid res.cmdid]? = some lb' → lb'.status = some .new := by
  unfold updateHost
  cases hget : r.routeMap[modKey res.modid res.cmdid]? with
  | none => exact ⟨r, rfl, .refl h, fun lb' hk ↦ by simp [hget] at hk⟩
  | some lb =>
      by_cases hres : res.host = []
      · have herase : ∀ (k : UInt64) (lb' : LoadBalance),
            (r.routeMap.erase (modKey res.modid res.cmdid))[k]? = some lb' →
            k ≠ modKey res.modid res.cmdid ∧ r.routeMap[k]? = some lb' := by
          intro k lb' hk
          rw [ExtTreeMap.getElem?_erase] at hk
          split at hk
          · cases hk
          · rename_i hne
            exact ⟨fun e ↦ hne (by simp [e]), hk⟩
        simp only [hres, List.isEmpty_nil, if_true]
        refine ⟨_, rfl, ⟨fun k lb' hk ↦ h k lb' (herase k lb' hk).2,
          fun k lb' hk ↦ .inr (herase k lb' hk).2, fun lb' hk ↦ ?_⟩, fun lb' hk ↦ ?_⟩
        · exact absurd rfl (herase _ lb' hk).1
        · exact absurd rfl (herase _ lb' hk).1
      · obtain ⟨lb', h₁, hlb', hnew⟩ := (h _ lb hget).update cfg clock hres
        have hne : res.host.isEmpty = false := by simpa using hres
        simp only [hne, h₁, Outcome.ok_bind, Bool.false_eq_true, if_false]
        refine ⟨_, rfl, Acts.insert h hlb' fun hp ↦ by simp [hnew] at hp, fun lb₁ hk ↦ ?_⟩
        rw [ExtTreeMap.getElem?_insert_self] at hk
        obtain rfl := Option.some.inj hk
        exact hnew

end RouteLb

end Ylars.Agent
