import Ylars.Agent.WellFormed
import Ylars.Lib.Transition

/-!
# A host that only fails

A host is taken out of rotation when its run of failures reaches
`contin_err_limit`.  The run is counted in the host's current idle window: the
first report `idle_timeout` seconds or more after `idle_ts` that leaves the host
idle clears the counters (`set_idle`) and starts a new window.  So the limit is
reached when the failures fall into one window, and a host whose failures are
spaced wider is never taken out.
-/

namespace Ylars.Agent.LoadBalance

open Std (ExtTreeMap ExtTreeSet)
open Ylars.Lib

/-- The states that runs from the constructor's state lead to. -/
def Reachable (cfg : LoadBalanceConfig) (lb : LoadBalance) : Prop :=
  ∃ (modid cmdid : UInt32) (ops : List Op), ops.foldlM (step cfg) (new modid cmdid) = .ok lb

/-- What holds at the start and is kept by every operation holds of every reachable
state. -/
theorem Reachable.induction {cfg : LoadBalanceConfig} {I : LoadBalance → Prop}
    (h₀ : ∀ modid cmdid, I (new modid cmdid))
    (hs : ∀ lb op lb', I lb → lb.step cfg op = .ok lb' → I lb') {lb : LoadBalance}
    (h : Reachable cfg lb) : I lb := by
  obtain ⟨modid, cmdid, ops, hrun⟩ := h
  have hr : (LTS.ofFn (fun _ ↦ True) (step cfg)).Run (new modid cmdid) ops lb := .ofFn hrun
  exact hr.invariant hs (h₀ modid cmdid)

/-- The time of a failed report for the host with key `k`, if `op` is one. -/
def Op.failTime (k : UInt64) : Op → Option Int
  | .report clock ip port isSucc =>
      if hostKey ip port = k ∧ isSucc = false then some (clock 0) else none
  | _ => none

/-- The times of the failed reports for `k`, in order. -/
def failTimes (k : UInt64) (ops : List Op) : List Int := ops.filterMap (Op.failTime k)

/-- `op` is neither a successful report for `k` nor an update that removes it. -/
def Op.Spares (k : UInt64) : Op → Prop
  | .report _ ip port isSucc => hostKey ip port = k → isSucc = false
  | .update _ res => ∃ host ∈ res.host, hostKey host.ip host.port = k
  | _ => True

instance (k : UInt64) : DecidablePred (Op.Spares k) := fun op ↦ by
  cases op <;> unfold Op.Spares <;> infer_instance

/-- `op` is a report for `k` whose threshold switch moves the host to the overload
list. -/
def Op.evicts (cfg : LoadBalanceConfig) (k : UInt64) (lb : LoadBalance) : Op → Bool
  | .report clock ip port isSucc =>
      match lb.hostMap[k]? with
      | none => false
      | some p =>
          decide (hostKey ip port = k) && decide (p ∉ lb.overloadList) &&
            decide (p ∈ (lb.reportSwitch cfg clock ip port isSucc).overloadList)
  | _ => false

/-- Some report of the run `ops` from `lb` moves the host with key `k` to the
overload list. -/
def takenOut (cfg : LoadBalanceConfig) (k : UInt64) : LoadBalance → List Op → Bool
  | _, [] => false
  | lb, op :: ops =>
      op.evicts cfg k lb ||
        match lb.step cfg op with
        | .error _ => false
        | .ok lb' => takenOut cfg k lb' ops

variable {cfg : LoadBalanceConfig} {lb : LoadBalance}

/-! ## What the operations on other hosts leave alone -/

/-- Filing a host keeps what is filed, records included. -/
theorem insertHost_frame (cfg : LoadBalanceConfig) (h : lb.WellFormed) (now : Int)
    (host : Proto.HostInfo) {k : UInt64} {p : HostPtr} (hp : lb.hostMap[k]? = some p) :
    (lb.insertHost cfg now host).hostMap[k]? = some p ∧
      (lb.insertHost cfg now host).heap p = lb.heap p := by
  unfold insertHost
  by_cases hk : hostKey host.ip host.port ∈ lb.hostMap
  · simp only [hk, if_true]
    exact ⟨hp, trivial⟩
  · simp only [hk, if_false]
    have hne : hostKey host.ip host.port ≠ k := by
      rintro rfl
      exact hk (ExtTreeMap.mem_iff_isSome_getElem?.mpr (by rw [hp]; rfl))
    refine ⟨?_, Function.update_of_ne (h.fresh p ⟨k, hp⟩).ne _ _⟩
    rw [ExtTreeMap.getElem?_insert]
    simpa [hne] using hp

/-- Filing the hosts of a response keeps what is filed, and collects their keys. -/
theorem insertHosts_frame (cfg : LoadBalanceConfig) (clock : Clock) {k : UInt64} {p : HostPtr}
    (hosts : List Proto.HostInfo) :
    ∀ (i : Nat) (lb : LoadBalance) (remoteHosts : ExtTreeSet UInt64), lb.WellFormed →
      lb.hostMap[k]? = some p →
      (insertHosts cfg clock i lb remoteHosts hosts).1.hostMap[k]? = some p ∧
      (insertHosts cfg clock i lb remoteHosts hosts).1.heap p = lb.heap p ∧
      (k ∈ (insertHosts cfg clock i lb remoteHosts hosts).2 ↔
        k ∈ remoteHosts ∨ ∃ host ∈ hosts, hostKey host.ip host.port = k) := by
  induction hosts with
  | nil => exact fun i lb _ _ hp ↦ ⟨hp, rfl, by simp [insertHosts]⟩
  | cons host hosts ih =>
      intro i lb remoteHosts h hp
      obtain ⟨hp₁, hh₁⟩ := insertHost_frame cfg h (clock (i + 1)) host hp
      obtain ⟨hp₂, hh₂, hr⟩ := ih (i + 1) (lb.insertHost cfg (clock (i + 1)) host)
        (remoteHosts.insert (hostKey host.ip host.port)) (h.insertHost _ host) hp₁
      rw [insertHosts]
      refine ⟨hp₂, hh₂.trans hh₁, ?_⟩
      rw [hr, ExtTreeSet.mem_insert, Std.compare_eq_iff_eq]
      simp only [List.mem_cons, exists_eq_or_imp]
      rw [or_assoc, or_left_comm]

/-- Deleting other hosts keeps what is filed. -/
theorem deleteHosts_frame {k : UInt64} {p : HostPtr} (ks : List UInt64) (hks : k ∉ ks) :
    ∀ lb lb' : LoadBalance, ks.foldlM deleteHost lb = .ok lb' → lb.hostMap[k]? = some p →
      lb'.hostMap[k]? = some p ∧ lb'.heap = lb.heap := by
  induction ks with
  | nil =>
      intro lb lb' h hp
      obtain rfl : lb = lb' := Except.ok.inj h
      exact ⟨hp, rfl⟩
  | cons k' ks ih =>
      intro lb lb' h hp
      rw [List.foldlM_cons, Outcome.bind_eq_ok] at h
      obtain ⟨lb₁, h₁, h₂⟩ := h
      rw [List.mem_cons, not_or] at hks
      obtain ⟨_, _, rfl⟩ := deleteHost_eq h₁
      have herase : (lb.hostMap.erase k')[k]? = some p := by
        rw [ExtTreeMap.getElem?_erase]
        simpa [Ne.symm hks.1] using hp
      obtain ⟨hp₂, hh₂⟩ := ih hks.2 _ lb' h₂ herase
      exact ⟨hp₂, hh₂⟩

/-- An update whose response lists a filed host keeps the host and its record. -/
theorem update_frame (h : lb.WellFormed) {lb' : LoadBalance} {clock : Clock}
    {res : Proto.GetRouteResponse} (hu : lb.update cfg clock res = .ok lb') {k : UInt64}
    {p : HostPtr} (hp : lb.hostMap[k]? = some p)
    (hres : ∃ host ∈ res.host, hostKey host.ip host.port = k) :
    lb'.hostMap[k]? = some p ∧ lb'.heap p = lb.heap p := by
  unfold update at hu
  obtain ⟨hp₁, hh₁, hr⟩ := insertHosts_frame cfg clock res.host 0
    { lb with lastUpdateTs := some (clock 0) } ∅ (h.of_eq rfl rfl rfl rfl rfl) hp
  generalize hx : insertHosts cfg clock 0
    { lb with lastUpdateTs := some (clock 0) } ∅ res.host = x at hu hp₁ hh₁ hr
  simp only [Outcome.bind_eq_ok] at hu
  obtain ⟨lb₂, h₂, hret⟩ := hu
  obtain rfl := Except.ok.inj hret
  have hk : k ∉ x.1.needDelete x.2 := by
    intro hk
    simpa [hr.mpr (.inr hres)] using (List.mem_filter.mp hk).2
  obtain ⟨hp₂, hh₂⟩ := deleteHosts_frame _ hk _ _ h₂ hp₁
  exact ⟨hp₂, (congrFun hh₂ p).trans hh₁⟩

theorem heap_modifyHost_of_ne {f : HostInfo → HostInfo} {p q : HostPtr} (h : q ≠ p) :
    (lb.modifyHost p f).heap q = lb.heap q := Function.update_of_ne h _ _

theorem heap_switchState_of_ne {now : Int} {isSucc : Bool} {p q : HostPtr} (h : q ≠ p) :
    (lb.switchState cfg now isSucc p).heap q = lb.heap q := by
  rcases switchState_cases cfg lb now isSucc p with
    ⟨-, -, -, e⟩ | ⟨-, -, -, e⟩ | ⟨-, -, e⟩ <;> rw [e]
  · exact heap_modifyHost_of_ne h
  · exact heap_modifyHost_of_ne h

/-- The timeouts of a report change the map not at all and no record but the
reported one. -/
theorem expire_frame {lb' : LoadBalance} {currTime now : Int} {p : HostPtr}
    (he : lb.expire cfg currTime now p = .ok lb') :
    lb'.hostMap = lb.hostMap ∧ ∀ q, q ≠ p → lb'.heap q = lb.heap q := by
  rcases expire_cases he with
    ⟨t, -, -, -, rfl⟩ | ⟨t, -, -, -, rfl⟩ | ⟨-, -, rfl⟩ | ⟨-, -, rfl⟩
  · exact ⟨rfl, fun _ hq ↦ heap_modifyHost_of_ne hq⟩
  · exact ⟨rfl, fun _ _ ↦ rfl⟩
  · exact ⟨rfl, fun _ hq ↦ heap_modifyHost_of_ne hq⟩
  · exact ⟨rfl, fun _ _ ↦ rfl⟩

/-- A report for another host keeps what is filed. -/
theorem report_frame (h : lb.WellFormed) {lb' : LoadBalance} {clock : Clock}
    {ip port : UInt32} {isSucc : Bool} (hr : lb.report cfg clock ip port isSucc = .ok lb')
    {k : UInt64} {p : HostPtr} (hp : lb.hostMap[k]? = some p) (hk : hostKey ip port ≠ k) :
    lb'.hostMap[k]? = some p ∧ lb'.heap p = lb.heap p := by
  unfold report at hr
  cases hq : lb.hostMap[hostKey ip port]? with
  | none =>
      rw [hq] at hr
      obtain rfl := Except.ok.inj hr
      exact ⟨hp, rfl⟩
  | some q =>
      simp only [hq] at hr
      have hne : p ≠ q := by
        rintro rfl
        exact hk (h.key_unique hq hp)
      obtain ⟨hm, hh⟩ := expire_frame hr
      refine ⟨by rw [hm, hostMap_reportSwitch, hp], (hh p hne).trans ?_⟩
      simp only [reportSwitch, hq]
      rw [heap_switchState_of_ne hne]
      exact Function.update_of_ne hne _ _

theorem choiceOneHost_frame {lb' : LoadBalance} {ret : Proto.LastRetCode}
    {res res' : Proto.GetHostResponse}
    (hc : lb.choiceOneHost cfg res = .ok (ret, res', lb')) :
    lb'.hostMap = lb.hostMap ∧ lb'.heap = lb.heap := by
  obtain ⟨_, _, _, rfl⟩ := choiceOneHost_eq hc
  exact ⟨rfl, rfl⟩

/-- An operation that neither succeeds for a filed host, nor fails for it, nor
removes it, keeps the host and its record. -/
theorem step_frame (h : lb.WellFormed) {op : Op} {lb' : LoadBalance}
    (hst : lb.step cfg op = .ok lb') {k : UInt64} {p : HostPtr}
    (hp : lb.hostMap[k]? = some p) (hs : op.Spares k) (hf : op.failTime k = none) :
    lb'.hostMap[k]? = some p ∧ lb'.heap p = lb.heap p := by
  cases op with
  | update clock res => exact update_frame h hst hp hs
  | report clock ip port isSucc =>
      refine report_frame h hst hp fun hk ↦ ?_
      simp [Op.failTime, hk, hs hk] at hf
  | choiceOneHost res =>
      obtain ⟨_, _, h₁⟩ := exists_choiceOneHost hst
      obtain ⟨hm, hh⟩ := choiceOneHost_frame h₁
      exact ⟨by rw [hm, hp], congrFun hh p⟩
  | getAllHost =>
      obtain rfl := Except.ok.inj hst
      exact ⟨hp, rfl⟩
  | commit now =>
      obtain rfl := Except.ok.inj hst
      exact ⟨hp, rfl⟩

/-! ## Facts about every record -/

/-- A run that is counted in an `int` and has not reached its limit. -/
def RunBelow (limit : Int) (run : Int32) : Prop := 0 ≤ run.toInt ∧ run.toInt < max 1 limit

theorem RunBelow.zero (limit : Int) : RunBelow limit 0 :=
  ⟨le_rfl, lt_max_of_lt_left Int.one_pos⟩

/-- Below the largest limit counting is exact. -/
theorem RunBelow.toInt_add_one {limit : Int} {run : Int32} (h : RunBelow limit run)
    (hlimit : limit < 2 ^ 31) : (run + 1).toInt = run.toInt + 1 := by
  obtain ⟨hnonneg, hlt⟩ := h
  rw [Int32.toInt_add]
  exact Int.bmod_eq_of_le (by simp; omega) (by simp; omega)

theorem RunBelow.next {limit : Int} {run : Int32} (h : RunBelow limit run)
    (hlimit : limit < 2 ^ 31) (hlt : ¬limit ≤ (run + 1).toInt) : RunBelow limit (run + 1) := by
  refine ⟨?_, lt_max_of_lt_right (not_le.mp hlt)⟩
  rw [h.toInt_add_one hlimit]
  have := h.1
  omega

/-- A property of host records that a new window has and a report that does not end the window
keeps. -/
structure HostInvariant (cfg : LoadBalanceConfig) (P : HostInfo → Prop) : Prop where
  new : ∀ ip port n now, P (HostInfo.new ip port n now)
  record : ∀ isSucc host, P host →
    (host.overload = false → isSucc = false → (host.record isSucc).errLimitReached cfg = false) →
    (host.overload = true → isSucc = true → (host.record isSucc).succLimitReached cfg = false) →
    P (host.record isSucc)
  setOverload : ∀ now (host : HostInfo), P (host.setOverload cfg now)
  setIdle : ∀ now (host : HostInfo), P (host.setIdle cfg now)

namespace HostInvariant

variable {P : HostInfo → Prop} (hP : HostInvariant cfg P)
include hP

omit hP in
/-- A property of all records survives a change of one record to one that has it. -/
theorem modifyHost {p : HostPtr} (h : ∀ q, q ≠ p → P (lb.heap q)) {f : HostInfo → HostInfo}
    (hf : P (f (lb.heap p))) (q : HostPtr) : P ((lb.modifyHost p f).heap q) := by
  by_cases e : q = p
  · subst e
    simpa [LoadBalance.modifyHost] using hf
  · rw [heap_modifyHost_of_ne e]
    exact h q e

/-- A report keeps the property of all records. -/
theorem report (h : ∀ q, P (lb.heap q)) {clock : Clock} {ip port : UInt32} {isSucc : Bool}
    {lb' : LoadBalance} (hr : lb.report cfg clock ip port isSucc = .ok lb') (q : HostPtr) :
    P (lb'.heap q) := by
  unfold LoadBalance.report at hr
  cases hp : lb.hostMap[hostKey ip port]? with
  | none =>
      rw [hp] at hr
      obtain rfl := Except.ok.inj hr
      exact h q
  | some p =>
      simp only [hp] at hr
      have hother : ∀ q, q ≠ p → P ((lb.modifyHost p (·.record isSucc)).heap q) := by
        intro q hq
        rw [heap_modifyHost_of_ne hq]
        exact h q
      have hsw : ∀ q, P ((lb.reportSwitch cfg clock ip port isSucc).heap q) := by
        simp only [reportSwitch, hp]
        rcases switchState_cases cfg (lb.modifyHost p (·.record isSucc))
          (clock 1) isSucc p with ⟨-, -, -, e⟩ | ⟨-, -, -, e⟩ | ⟨herr, hsucc, e⟩ <;> rw [e]
        · exact modifyHost hother (hP.setOverload _ _)
        · exact modifyHost hother (hP.setIdle _ _)
        · -- the window goes on
          have hheap : (lb.modifyHost p (·.record isSucc)).heap p = (lb.heap p).record isSucc :=
            Function.update_self ..
          rw [hheap, HostInfo.overload_record] at herr hsucc
          exact modifyHost (fun q _ ↦ h q) (hP.record isSucc _ (h p) herr hsucc)
      rcases expire_cases hr with
        ⟨t, -, -, -, rfl⟩ | ⟨t, -, -, -, rfl⟩ | ⟨-, -, rfl⟩ | ⟨-, -, rfl⟩
      · exact modifyHost (fun q _ ↦ hsw q) (hP.setIdle _ _) q
      · exact hsw q
      · exact modifyHost (fun q _ ↦ hsw q) (hP.setIdle _ _) q
      · exact hsw q

/-- Filing the hosts of a response keeps the property of all records. -/
theorem insertHosts (clock : Clock) (hosts : List Proto.HostInfo) :
    ∀ (i : Nat) (lb : LoadBalance) (remoteHosts : ExtTreeSet UInt64),
      (∀ q, P (lb.heap q)) →
        ∀ q, P ((LoadBalance.insertHosts cfg clock i lb remoteHosts hosts).1.heap q) := by
  induction hosts with
  | nil => exact fun _ _ _ h ↦ h
  | cons host hosts ih =>
      intro i lb _ h
      refine ih _ _ _ fun q ↦ ?_
      unfold insertHost
      simp only
      split
      · exact h q
      · by_cases e : q = lb.next
        · subst e
          simpa using hP.new _ _ _ _
        · simpa [e] using h q

/-- Every operation keeps the property of all records. -/
theorem step (h : ∀ q, P (lb.heap q)) {op : Op} {lb' : LoadBalance}
    (hst : lb.step cfg op = .ok lb') (q : HostPtr) : P (lb'.heap q) := by
  cases op with
  | update clock res =>
      obtain ⟨_, _, _, rfl⟩ := update_eq hst
      exact hP.insertHosts clock res.host 0 { lb with lastUpdateTs := some (clock 0) } ∅ h q
  | report clock ip port isSucc => exact hP.report h hst q
  | choiceOneHost res =>
      obtain ⟨_, _, h₁⟩ := exists_choiceOneHost hst
      rw [(choiceOneHost_frame h₁).2]
      exact h q
  | getAllHost =>
      obtain rfl := Except.ok.inj hst
      exact h q
  | commit now =>
      obtain rfl := Except.ok.inj hst
      exact h q

theorem of_reachable (h : Reachable cfg lb) : ∀ q, P (lb.heap q) :=
  h.induction (fun _ _ _ ↦ hP.new _ _ _ _) fun _ _ _ hi hst ↦ hP.step hi hst

end HostInvariant

/-- The runs that are compared with a limit have not reached it: the failures of an idle host
and the successes of an overloaded one. -/
structure BelowLimits (cfg : LoadBalanceConfig) (host : HostInfo) : Prop where
  continErr : host.overload = false → RunBelow cfg.continErrLimit host.continErr
  continSucc : host.overload = true → RunBelow cfg.continSuccLimit host.continSucc

/-- Every report keeps the runs below their limits, or starts a new window. -/
theorem belowLimits_invariant : HostInvariant cfg (BelowLimits cfg) where
  new _ _ _ _ := ⟨fun _ ↦ .zero _, fun _ ↦ .zero _⟩
  record isSucc host h herr hsucc := by
    cases isSucc with
    | true =>
        refine ⟨fun _ ↦ .zero _, fun hf ↦ ?_⟩
        rw [HostInfo.overload_record] at hf
        have hl := hsucc hf rfl
        rw [HostInfo.succLimitReached, Bool.or_eq_false_iff] at hl
        exact (h.continSucc hf).next cfg.continSuccLimit_lt (of_decide_eq_false hl.2)
    | false =>
        refine ⟨fun hf ↦ ?_, fun _ ↦ .zero _⟩
        rw [HostInfo.overload_record] at hf
        have hl := herr hf rfl
        rw [HostInfo.errLimitReached, Bool.or_eq_false_iff] at hl
        exact (h.continErr hf).next cfg.continErrLimit_lt (of_decide_eq_false hl.2)
  setOverload _ _ := ⟨fun _ ↦ .zero _, fun _ ↦ .zero _⟩
  setIdle _ _ := ⟨fun _ ↦ .zero _, fun _ ↦ .zero _⟩

theorem Reachable.belowLimits (h : Reachable cfg lb) (p : HostPtr) : BelowLimits cfg (lb.heap p) :=
  belowLimits_invariant.of_reachable h p

theorem Reachable.wellFormed (h : Reachable cfg lb) : lb.WellFormed := by
  obtain ⟨modid, cmdid, ops, hrun⟩ := h
  exact (WellFormed.new modid cmdid).of_run hrun

/-! ## Failures of one host -/

section

variable {k : UInt64} {p : HostPtr} {clock : Clock} {ip port : UInt32}

/-- A failed report of an idle host evicts it when the failure limit is reached. -/
theorem evicts_of_errLimitReached (h : lb.WellFormed) (hp : lb.hostMap[k]? = some p)
    (hf : ¬lb.Overloaded p) (hk : hostKey ip port = k)
    (hl : ((lb.heap p).record false).errLimitReached cfg = true) :
    (Op.report clock ip port false).evicts cfg k lb = true := by
  have hover : p ∉ lb.overloadList := fun hm ↦ hf ((h.split.mem_right p).mp hm).2
  have hheap : (lb.modifyHost p (·.record false)).heap p = (lb.heap p).record false :=
    Function.update_self ..
  have hidle : (lb.heap p).overload = false := by simpa [Overloaded] using hf
  have hsw : (lb.reportSwitch cfg clock ip port false) =
      (lb.modifyHost p (·.record false)).toOverload cfg (clock 1) p := by
    simp [reportSwitch, hk, hp, switchState, hheap, hidle, hl]
  have hmem : p ∈ (lb.reportSwitch cfg clock ip port false).overloadList := by
    rw [hsw]
    exact List.mem_append_right _ (List.mem_singleton_self p)
  simp [Op.evicts, hp, hk, hover, hmem]

/-- A failed report of an idle host that does not evict it has not reached the limit. -/
theorem errLimitReached_of_not_evicts (h : lb.WellFormed) (hp : lb.hostMap[k]? = some p)
    (hf : ¬lb.Overloaded p) (hk : hostKey ip port = k)
    (he : (Op.report clock ip port false).evicts cfg k lb = false) :
    ((lb.heap p).record false).errLimitReached cfg = false := by
  by_contra hl
  rw [evicts_of_errLimitReached h hp hf hk (by simpa using hl)] at he
  cases he

/-- The run of failures of an idle host that a failed report does not evict is below the limit. -/
theorem continErr_lt_of_not_evicts (h : lb.WellFormed) (hp : lb.hostMap[k]? = some p)
    (hf : ¬lb.Overloaded p) (hk : hostKey ip port = k)
    (he : (Op.report clock ip port false).evicts cfg k lb = false) :
    ((lb.heap p).continErr + 1).toInt < cfg.continErrLimit := by
  have hl := errLimitReached_of_not_evicts h hp hf hk he
  rw [HostInfo.errLimitReached, HostInfo.continErr_record_false, Bool.or_eq_false_iff] at hl
  exact not_le.mp (of_decide_eq_false hl.2)

/-- A failed report of an idle host inside its window that does not evict it only
counts. -/
theorem report_counts (h : lb.WellFormed) (hp : lb.hostMap[k]? = some p)
    (hf : ¬lb.Overloaded p) (hk : hostKey ip port = k)
    (ht : clock 0 - (lb.heap p).idleTs < cfg.idleTimeout)
    (he : (Op.report clock ip port false).evicts cfg k lb = false) {lb' : LoadBalance}
    (hr : lb.report cfg clock ip port false = .ok lb') :
    lb'.hostMap[k]? = some p ∧ lb'.heap p = (lb.heap p).record false := by
  have hheap : (lb.modifyHost p (·.record false)).heap p = (lb.heap p).record false :=
    Function.update_self ..
  have hidle : (lb.heap p).overload = false := by simpa [Overloaded] using hf
  have hl := errLimitReached_of_not_evicts h hp hf hk he
  have hsw : lb.reportSwitch cfg clock ip port false = lb.modifyHost p (·.record false) := by
    simp [reportSwitch, hk, hp, switchState, hheap, hidle, hl]
  simp only [report, hk, hp, hsw] at hr
  rcases expire_cases hr with ⟨t, hb, -, -, -⟩ | ⟨t, hb, -, -, -⟩ | ⟨-, hb, -⟩ | ⟨-, -, rfl⟩
  · simp [hheap, hidle] at hb
  · simp [hheap, hidle] at hb
  · rw [hheap, HostInfo.idleTs_record] at hb
    omega
  · exact ⟨hp, hheap⟩

/-- An evicted host is in the overload list when the report returns, unless the
clock jumped by the overload timeout during the report. -/
theorem mem_overloadList_of_evicts
    (he : (Op.report clock ip port false).evicts cfg k lb = true)
    (hp : lb.hostMap[k]? = some p) (ht : clock 0 - clock 1 < cfg.overloadTimeout)
    {lb' : LoadBalance} (hr : lb.report cfg clock ip port false = .ok lb') :
    p ∈ lb'.overloadList := by
  simp only [Op.evicts, hp, Bool.and_eq_true, decide_eq_true_eq] at he
  obtain ⟨⟨hk, hover⟩, hmem⟩ := he
  simp only [report, hk, hp] at hr
  have hheap : (lb.modifyHost p (·.record false)).heap p = (lb.heap p).record false :=
    Function.update_self ..
  have hts : ((lb.reportSwitch cfg clock ip port false).heap p).overload = true ∧
      ((lb.reportSwitch cfg clock ip port false).heap p).overloadTs = some (clock 1) := by
    simp only [reportSwitch, hk, hp] at hmem ⊢
    rcases switchState_cases cfg (lb.modifyHost p (·.record false))
      (clock 1) false p with ⟨-, -, -, e⟩ | ⟨-, hs, -, -⟩ | ⟨-, -, e⟩
    · rw [e]
      simp [toOverload, modifyHost]
    · cases hs
    · rw [e] at hmem
      exact absurd hmem hover
  rcases expire_cases hr with ⟨t, -, ht', hle, -⟩ | ⟨t, -, -, -, rfl⟩ | ⟨hb, -, -⟩ | ⟨hb, -, -⟩
  · obtain rfl : clock 1 = t := Option.some.inj (hts.2.symm.trans ht')
    omega
  · exact hmem
  · simp [hts.1] at hb
  · simp [hts.1] at hb

end

theorem takenOut_of_limit {k : UInt64} {p : HostPtr} {ts : Int} (ops : List Op) :
    ∀ lb : LoadBalance, lb.WellFormed → lb.hostMap[k]? = some p → ¬lb.Overloaded p →
      (lb.heap p).idleTs = ts → RunBelow cfg.continErrLimit (lb.heap p).continErr →
      (∀ op ∈ ops, op.Spares k) → failTimes k ops ≠ [] →
      cfg.continErrLimit ≤ (lb.heap p).continErr.toInt + (failTimes k ops).length →
      (∀ t ∈ (failTimes k ops).dropLast, t - ts < cfg.idleTimeout) →
        takenOut cfg k lb ops = true := by
  induction ops with
  | nil => exact fun _ _ _ _ _ _ _ hne _ _ ↦ absurd rfl hne
  | cons op ops ih =>
      intro lb h hp hf hts hbelow hspare hne hlimit htimes
      obtain ⟨lb', hst, hwf⟩ := h.step cfg op
      have hspare' : ∀ op ∈ ops, op.Spares k := fun o ho ↦ hspare o (List.mem_cons_of_mem _ ho)
      simp only [takenOut, hst, Bool.or_eq_true]
      cases hfail : op.failTime k with
      | none =>
          have htail : failTimes k (op :: ops) = failTimes k ops := List.filterMap_cons_none hfail
          rw [htail] at hne hlimit htimes
          obtain ⟨hp', hh⟩ := step_frame h hst hp (hspare op (List.mem_cons_self ..)) hfail
          refine .inr (ih lb' hwf hp' ?_ ?_ ?_ hspare' hne ?_ htimes)
          · simpa [Overloaded, hh] using hf
          · rw [hh, hts]
          · rwa [hh]
          · rwa [hh]
      | some t =>
          have htail : failTimes k (op :: ops) = t :: failTimes k ops :=
            List.filterMap_cons_some hfail
          rw [htail] at hlimit htimes
          cases op with
          | report clock ip port isSucc =>
              simp only [Op.failTime, Option.ite_none_right_eq_some, Option.some.injEq] at hfail
              obtain ⟨⟨hk, rfl⟩, rfl⟩ := hfail
              cases he : (Op.report clock ip port false).evicts cfg k lb with
              | true => exact .inl rfl
              | false =>
                  -- not evicted: the limit is not reached yet, so failures are left
                  have hlt := continErr_lt_of_not_evicts h hp hf hk he
                  have herr := hbelow.toInt_add_one cfg.continErrLimit_lt
                  have hne' : failTimes k ops ≠ [] := by
                    intro hnil
                    simp only [hnil, List.length_cons, List.length_nil, Nat.zero_add,
                      Nat.cast_one] at hlimit
                    omega
                  rw [List.dropLast_cons_of_ne_nil hne'] at htimes
                  have ht : clock 0 - (lb.heap p).idleTs < cfg.idleTimeout := by
                    rw [hts]
                    exact htimes _ (List.mem_cons_self ..)
                  obtain ⟨hp', hh⟩ := report_counts h hp hf hk ht he hst
                  refine .inr (ih lb' hwf hp' ?_ ?_ ?_ hspare' hne' ?_ fun t' ht' ↦
                    htimes t' (List.mem_cons_of_mem _ ht'))
                  · simpa [Overloaded, hh] using hf
                  · rw [hh, HostInfo.idleTs_record, hts]
                  · rw [hh, HostInfo.continErr_record_false]
                    exact hbelow.next cfg.continErrLimit_lt (not_le.mpr hlt)
                  · rw [hh, HostInfo.continErr_record_false]
                    simp only [List.length_cons, Nat.cast_add, Nat.cast_one] at hlimit
                    omega
          | _ => cases hfail

/-- **A host that only fails is taken out of rotation within its idle window.**  From
a reachable state, in a run with `contin_err_limit` failed reports for an idle host
and nothing that succeeds for it or removes it, one of these reports moves the host
to the overload list, when every report before the last falls into the idle window
the host is in at the start. -/
theorem takenOut_within_window (h : Reachable cfg lb) {k : UInt64} {p : HostPtr}
    (hlimit : 0 < cfg.continErrLimit) (hp : lb.hostMap[k]? = some p) (hidle : p ∈ lb.idleList)
    (ops : List Op) (hspare : ∀ op ∈ ops, op.Spares k)
    (hlen : (failTimes k ops).length = cfg.continErrLimit)
    (htimes : ∀ t ∈ (failTimes k ops).dropLast, t - (lb.heap p).idleTs < cfg.idleTimeout) :
    takenOut cfg k lb ops = true := by
  have hwf := h.wellFormed
  have hf : ¬lb.Overloaded p := ((hwf.split.mem_left p).mp hidle).2
  have hbelow := (h.belowLimits p).continErr (by simpa [Overloaded] using hf)
  refine takenOut_of_limit ops lb hwf hp hf rfl hbelow hspare ?_ ?_ htimes
  · intro hnil
    rw [hnil] at hlen
    simp only [List.length_nil] at hlen
    omega
  · have := hbelow.1
    omega

/-! ## Quick and spread failures -/

/-- A run of `n` failed reports for one host, `gap` seconds apart. -/
def failures (n : Nat) (gap : Int) : List Op :=
  (List.range n).map fun i ↦ .report (fun _ ↦ gap * (i + 1)) 1 80 false

/-- The state after a first response with one host at time 0. -/
def oneHost : Outcome LoadBalance :=
  (new 1 1).update .default (fun _ ↦ 0) { modid := 1, cmdid := 1, host := [⟨1, 80⟩] }

/-- Ten failures one second apart take the host out of rotation. -/
theorem takenOut_within_window_default :
    ∃ lb, oneHost = .ok lb ∧ takenOut .default (hostKey 1 80) lb (failures 10 1) = true := by
  refine ⟨_, rfl, takenOut_within_window (p := 0) ?_ ?_ ?_ ?_ _ ?_ ?_ ?_⟩
  · exact ⟨1, 1, [.update (fun _ ↦ 0) { modid := 1, cmdid := 1, host := [⟨1, 80⟩] }], rfl⟩
  · decide
  · decide
  · decide
  · decide
  · decide
  · decide

/-- Ten failures as far apart as the idle window is long leave the host in rotation:
each one starts a new window. -/
theorem spread_failures_not_takenOut :
    LoadBalanceConfig.default.Positive ∧
    ∃ lb, Reachable .default lb ∧ lb.hostMap[hostKey 1 80]? = some 0 ∧ 0 ∈ lb.idleList ∧
      (∀ op ∈ failures 10 15, op.Spares (hostKey 1 80)) ∧
      (failTimes (hostKey 1 80) (failures 10 15)).length =
        LoadBalanceConfig.default.continErrLimit ∧
      takenOut .default (hostKey 1 80) lb (failures 10 15) = false := by
  refine ⟨LoadBalanceConfig.default_positive, _, ⟨1, 1,
    [.update (fun _ ↦ 0) { modid := 1, cmdid := 1, host := [⟨1, 80⟩] }], rfl⟩, ?_⟩
  decide +kernel

end Ylars.Agent.LoadBalance
