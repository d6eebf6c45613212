import Mathlib.Logic.Function.Basic
import Mathlib.Data.List.Basic
import Ylars.Agent.HostInfo
import Ylars.Fault
import Ylars.Proto

/-!
# The hosts of one module: `load_balance`

A `LoadBalance` files the hosts of one `(modid, cmdid)` in `hostMap` and lists
each of them in the idle or in the overload list.  Map and lists share the host
records: they hold pointers (`HostPtr`), and the records live in `heap`, indexed
by pointer; `next` is the first pointer not handed out yet.  The constructor
leaves `status` and `lastUpdateTs` unset.

`time(nullptr)` is read several times in one call, and the readings are given by
a `Clock`.
-/

namespace Ylars.Agent

open Std (ExtTreeMap ExtTreeSet)

/-- A `std::shared_ptr<host_info>`, as the identity of the record it points to. -/
abbrev HostPtr := Nat

/-- `load_balance::STATUS`. -/
inductive Status where
  /-- A request for the hosts is out. -/
  | pulling
  /-- The hosts have arrived. -/
  | new
deriving DecidableEq, Repr

/-- The state of one module, `load_balance`. -/
structure LoadBalance where
  modid : UInt32
  cmdid : UInt32
  status : Option Status
  lastUpdateTs : Option Int
  hostMap : ExtTreeMap UInt64 HostPtr
  idleList : List HostPtr
  overloadList : List HostPtr
  accessCnt : Int
  /-- The host records. -/
  heap : HostPtr → HostInfo
  /-- The first pointer that no record has been stored at. -/
  next : HostPtr

namespace LoadBalance

/-- The constructor. -/
def new (modid cmdid : UInt32) : LoadBalance where
  modid := modid
  cmdid := cmdid
  status := none
  lastUpdateTs := none
  hostMap := ∅
  idleList := []
  overloadList := []
  accessCnt := 0
  heap := fun _ ↦ HostInfo.new 0 0 0 0
  next := 0

/-- `empty`: no host is known. -/
def empty (lb : LoadBalance) : Bool := lb.hostMap.isEmpty

/-- Changing the record behind a pointer. -/
def modifyHost (lb : LoadBalance) (p : HostPtr) (f : HostInfo → HostInfo) : LoadBalance :=
  { lb with heap := Function.update lb.heap p (f (lb.heap p)) }

/-- `pull`: the request that is put on the dns queue, and the new state. -/
def pull (lb : LoadBalance) : Proto.GetRouteRequest × LoadBalance :=
  ({ modid := lb.modid, cmdid := lb.cmdid }, { lb with status := some .pulling })

/-! ## Updating the host set -/

/-- The first loop of `update`, one host: file it unless its key is known. -/
def insertHost (cfg : LoadBalanceConfig) (now : Int) (lb : LoadBalance)
    (host : Proto.HostInfo) : LoadBalance :=
  let key := hostKey host.ip host.port
  if key ∈ lb.hostMap then lb
  else
    { lb with
      heap := Function.update lb.heap lb.next
        (HostInfo.new host.ip host.port cfg.initSuccCnt now)
      next := lb.next + 1
      hostMap := lb.hostMap.insert key lb.next
      idleList := lb.idleList ++ [lb.next] }

/-- The first loop of `update`: file the new hosts and collect all keys of the
response in `remoteHosts`.  The host at index `i` is born at `clock (i + 1)`. -/
def insertHosts (cfg : LoadBalanceConfig) (clock : Clock) :
    Nat → LoadBalance → ExtTreeSet UInt64 → List Proto.HostInfo →
      LoadBalance × ExtTreeSet UInt64
  | _, lb, remoteHosts, [] => (lb, remoteHosts)
  | i, lb, remoteHosts, host :: hosts =>
      insertHosts cfg clock (i + 1) (lb.insertHost cfg (clock (i + 1)) host)
        (remoteHosts.insert (hostKey host.ip host.port)) hosts

/-- The second loop of `update`: the known keys that the response lacks, in the
order in which the set `need_delete` is run through. -/
def needDelete (lb : LoadBalance) (remoteHosts : ExtTreeSet UInt64) : List UInt64 :=
  lb.hostMap.keys.filter (· ∉ remoteHosts)

/-- The third loop of `update`, one key: take the host off its list and the map. -/
def deleteHost (lb : LoadBalance) (key : UInt64) : Outcome LoadBalance :=
  match lb.hostMap[key]? with
  | none => .error .nullDeref
  | some p =>
      if (lb.heap p).overload then
        .ok { lb with
          overloadList := lb.overloadList.filter (· ≠ p)
          hostMap := lb.hostMap.erase key }
      else
        .ok { lb with
          idleList := lb.idleList.filter (· ≠ p)
          hostMap := lb.hostMap.erase key }

/-- `update`: make the host set that of the response. -/
def update (cfg : LoadBalanceConfig) (clock : Clock) (lb : LoadBalance)
    (res : Proto.GetRouteResponse) : Outcome LoadBalance := do
  let (lb, remoteHosts) :=
    insertHosts cfg clock 0 { lb with lastUpdateTs := some (clock 0) } ∅ res.host
  let lb ← (lb.needDelete remoteHosts).foldlM deleteHost lb
  return { lb with status := some .new }

/-! ## Choosing a host -/

/-- `get_host_from_list`: the head of the list goes into the response and to the
tail of the list. -/
def getHostFromList (heap : HostPtr → HostInfo) (res : Proto.GetHostResponse) :
    List HostPtr → Outcome (Proto.GetHostResponse × List HostPtr)
  | [] => .error .emptyFront
  | p :: hosts =>
      .ok ({ res with host := some ⟨(heap p).ip, (heap p).port⟩ }, hosts ++ [p])

/-- Choosing from the idle list. -/
def chooseIdle (lb : LoadBalance) (res : Proto.GetHostResponse) :
    Outcome (Proto.LastRetCode × Proto.GetHostResponse × LoadBalance) := do
  let (res, hosts) ← getHostFromList lb.heap res lb.idleList
  return (.retSucc, res, { lb with idleList := hosts })

/-- Choosing from the overload list. -/
def chooseOverload (lb : LoadBalance) (res : Proto.GetHostResponse) :
    Outcome (Proto.LastRetCode × Proto.GetHostResponse × LoadBalance) := do
  let (res, hosts) ← getHostFromList lb.heap res lb.overloadList
  return (.retSucc, res, { lb with overloadList := hosts })

/-- `choice_one_host`: idle hosts in turn, with an overloaded one every
`probe_num` calls. -/
def choiceOneHost (cfg : LoadBalanceConfig) (lb : LoadBalance)
    (res : Proto.GetHostResponse) :
    Outcome (Proto.LastRetCode × Proto.GetHostResponse × LoadBalance) :=
  if lb.hostMap.isEmpty then .ok (.retNoexist, res, lb)
  else if lb.idleList.isEmpty then
    if cfg.probeNum ≤ lb.accessCnt then { lb with accessCnt := 0 }.chooseOverload res
    else .ok (.retOverload, res, { lb with accessCnt := lb.accessCnt + 1 })
  else if lb.overloadList.isEmpty then lb.chooseIdle res
  else if cfg.probeNum ≤ lb.accessCnt then { lb with accessCnt := 0 }.chooseOverload res
  else { lb with accessCnt := lb.accessCnt + 1 }.chooseIdle res

/-- `get_all_host`: the hosts of the map, in the order of their keys. -/
def getAllHost (lb : LoadBalance) : Proto.LastRetCode × List HostPtr :=
  if lb.hostMap.isEmpty then (.retNoexist, [])
  else (.retSucc, lb.hostMap.toList.map Prod.snd)

/-! ## Reporting the outcome of a call -/

/-- Making a host overloaded: `set_overload`, off the idle list, to the end of the
overload list. -/
def toOverload (cfg : LoadBalanceConfig) (now : Int) (p : HostPtr) (lb : LoadBalance) :
    LoadBalance :=
  { lb.modifyHost p (·.setOverload cfg now) with
    idleList := lb.idleList.filter (· ≠ p)
    overloadList := lb.overloadList ++ [p] }

/-- Making a host idle: `set_idle`, off the overload list, to the end of the idle
list. -/
def toIdle (cfg : LoadBalanceConfig) (now : Int) (p : HostPtr) (lb : LoadBalance) :
    LoadBalance :=
  { lb.modifyHost p (·.setIdle cfg now) with
    overloadList := lb.overloadList.filter (· ≠ p)
    idleList := lb.idleList ++ [p] }

/-- The threshold switches of `report`: a failure may make an idle host
overloaded, a success an overloaded one idle. -/
def switchState (cfg : LoadBalanceConfig) (now : Int) (isSucc : Bool) (p : HostPtr)
    (lb : LoadBalance) : LoadBalance :=
  let host := lb.heap p
  if !host.overload && !isSucc then
    if host.errLimitReached cfg then lb.toOverload cfg now p else lb
  else if host.overload && isSucc then
    if host.succLimitReached cfg then lb.toIdle cfg now p else lb
  else lb

/-- The timeouts of `report`: an overloaded host comes back after
`overload_timeout`, an idle one starts a new window after `idle_timeout`. -/
def expire (cfg : LoadBalanceConfig) (currTime now : Int) (p : HostPtr)
    (lb : LoadBalance) : Outcome LoadBalance :=
  let host := lb.heap p
  if host.overload then
    match host.overloadTs with
    | none => .error .uninitialised
    | some overloadTs =>
        if cfg.overloadTimeout ≤ currTime - overloadTs then .ok (lb.toIdle cfg now p)
        else .ok lb
  else if cfg.idleTimeout ≤ currTime - host.idleTs then
    .ok (lb.modifyHost p (·.setIdle cfg now))
  else .ok lb

/-- The state of `report` after the threshold switches: the reported host, if it
is known, has been counted and has possibly changed its list. -/
def reportSwitch (cfg : LoadBalanceConfig) (clock : Clock) (ip port : UInt32)
    (isSucc : Bool) (lb : LoadBalance) : LoadBalance :=
  match lb.hostMap[hostKey ip port]? with
  | none => lb
  | some p => (lb.modifyHost p (·.record isSucc)).switchState cfg (clock 1) isSucc p

/-- `report`.  The clock is read on entry, at a threshold switch and at a timeout. -/
def report (cfg : LoadBalanceConfig) (clock : Clock) (ip port : UInt32)
    (isSucc : Bool) (lb : LoadBalance) : Outcome LoadBalance :=
  match lb.hostMap[hostKey ip port]? with
  | none => .ok lb
  | some p =>
      (lb.reportSwitch cfg clock ip port isSucc).expire cfg (clock 0) (clock 2) p

/-! ## The status report -/

/-- The entry of one host in a status report. -/
def callResult (overload : Bool) (host : HostInfo) : Proto.HostCallResult where
  ip := host.ip
  port := host.port
  succ := host.rsuccCnt.toUInt32
  err := host.rerrCnt.toUInt32
  overload := overload

/-- `commit`: the report that is put on the report queue, if there are hosts. -/
def commit (now : Int) (lb : LoadBalance) : Option Proto.ReportStatusReq :=
  if lb.empty then none
  else some
    { modid := lb.modid
      cmdid := lb.cmdid
      caller := 123
      ts := UInt32.ofInt now
      result := lb.idleList.map (fun p ↦ callResult false (lb.heap p)) ++
        lb.overloadList.map (fun p ↦ callResult true (lb.heap p)) }

/-! ## Runs -/

/-- The operations on a module's hosts. -/
inductive Op where
  | update (clock : Clock) (res : Proto.GetRouteResponse)
  | report (clock : Clock) (ip port : UInt32) (isSucc : Bool)
  | choiceOneHost (res : Proto.GetHostResponse)
  | getAllHost
  | commit (now : Int)

/-- The state after an operation.  `get_all_host` and `commit` change nothing. -/
def step (cfg : LoadBalanceConfig) (lb : LoadBalance) : Op → Outcome LoadBalance
  | .update clock res => lb.update cfg clock res
  | .report clock ip port isSucc => lb.report cfg clock ip port isSucc
  | .choiceOneHost res => do
      let (_, _, lb) ← lb.choiceOneHost cfg res
      return lb
  | .getAllHost => .ok lb
  | .commit _ => .ok lb

end LoadBalance

end Ylars.Agent
