import Ylars.Agent.RouteLb
import Ylars.Lib.Requeue

/-!
# A report touches one host

`report` works on the shared lists and may move the reported host twice in one call.  What
it does is determined by the record of that host alone: `HostInfo.reported` computes, from
the record, the new record and the `Move` of the host between the two lists, and in a
well-formed state `report` stores that record and performs that move.

So the records of the other hosts, their lists and their order are not touched, and
reports for two hosts commute but for the order of these two at the end of a list.
-/

namespace Ylars.Agent

open Std (ExtTreeMap)
open Ylars.Lib

/-! ## One record -/

namespace HostInfo

/-- The threshold switches of a report: the record and the move of its host. -/
def switched (cfg : LoadBalanceConfig) (now : Int) (isSucc : Bool) (h : HostInfo) :
    HostInfo × Move :=
  if !h.overload && !isSucc && h.errLimitReached cfg then (h.setOverload cfg now, .right)
  else if h.overload && isSucc && h.succLimitReached cfg then (h.setIdle cfg now, .left)
  else (h, .stay)

/-- The timeouts of a report. -/
def expired (cfg : LoadBalanceConfig) (currTime now : Int) (h : HostInfo) : HostInfo × Move :=
  if h.overload then
    if ∃ t ∈ h.overloadTs, cfg.overloadTimeout ≤ currTime - t then (h.setIdle cfg now, .left)
    else (h, .stay)
  else if cfg.idleTimeout ≤ currTime - h.idleTs then (h.setIdle cfg now, .stay)
  else (h, .stay)

/-- A whole report: the switches after the counting, and the timeouts after the
switches. -/
def reported (cfg : LoadBalanceConfig) (clock : Clock) (isSucc : Bool) (h : HostInfo) :
    HostInfo × Move :=
  let switched := (h.record isSucc).switched cfg (clock 1) isSucc
  let expired := switched.1.expired cfg (clock 0) (clock 2)
  (expired.1, switched.2.andThen expired.2)

end HostInfo

namespace LoadBalance

variable {cfg : LoadBalanceConfig} {lb : LoadBalance} {p : HostPtr}

/-- Storing a record at `p` and moving `p` between the lists. -/
def refile (lb : LoadBalance) (p : HostPtr) (x : HostInfo × Move) : LoadBalance :=
  { lb with
    heap := Function.update lb.heap p x.1
    idleList := x.2.inLeft.apply p lb.idleList
    overloadList := x.2.inRight.apply p lb.overloadList }

@[simp] theorem heap_refile (x : HostInfo × Move) :
    (lb.refile p x).heap = Function.update lb.heap p x.1 := rfl
@[simp] theorem hostMap_refile (x : HostInfo × Move) : (lb.refile p x).hostMap = lb.hostMap := rfl

theorem refile_refile (x y : HostInfo × Move) :
    (lb.refile p x).refile p y = lb.refile p (y.1, x.2.andThen y.2) := by
  simp only [refile, Function.update_idem, Move.inLeft_andThen, Move.inRight_andThen,
    Place.apply_andThen]

theorem refile_self : lb.refile p (lb.heap p, .stay) = lb := by
  simp [refile, Move.inLeft, Move.inRight]

theorem toOverload_eq_refile (h : Split lb.Known lb.Overloaded lb.idleList lb.overloadList)
    (hf : ¬lb.Overloaded p) (now : Int) :
    lb.toOverload cfg now p = lb.refile p ((lb.heap p).setOverload cfg now, .right) := by
  simp only [toOverload, modifyHost, refile, Move.inLeft, Move.inRight, Place.apply_out,
    Place.apply_back, h.filter_right_of_not_flag hf]

theorem toIdle_eq_refile (h : Split lb.Known lb.Overloaded lb.idleList lb.overloadList)
    (hf : lb.Overloaded p) (now : Int) :
    lb.toIdle cfg now p = lb.refile p ((lb.heap p).setIdle cfg now, .left) := by
  have hleft : lb.idleList.filter (· ≠ p) = lb.idleList :=
    h.symm.filter_right_of_not_flag (not_not.mpr hf)
  simp only [toIdle, modifyHost, refile, Move.inLeft, Move.inRight, Place.apply_out,
    Place.apply_back, hleft]

/-- The threshold switches are those of the record. -/
theorem switchState_eq_refile (h : lb.WellFormed) (now : Int) (isSucc : Bool) :
    lb.switchState cfg now isSucc p = lb.refile p ((lb.heap p).switched cfg now isSucc) := by
  rcases switchState_cases cfg lb now isSucc p with
    ⟨hf, hs, hl, e⟩ | ⟨hf, hs, hl, e⟩ | ⟨herr, hsucc, e⟩ <;> rw [e]
  · rw [toOverload_eq_refile h.split (by simp [Overloaded, hf])]
    simp [HostInfo.switched, hf, hs, hl]
  · rw [toIdle_eq_refile h.split hf]
    simp [HostInfo.switched, hf, hs, hl]
  · have hstay : (lb.heap p).switched cfg now isSucc = (lb.heap p, .stay) := by
      unfold HostInfo.switched
      cases hf : (lb.heap p).overload with
      | false =>
          cases isSucc with
          | false => simp [herr hf rfl]
          | true => simp
      | true =>
          cases isSucc with
          | false => simp
          | true => simp [hsucc hf rfl]
    rw [hstay, refile_self]

/-- The timeouts are those of the record. -/
theorem expire_eq_refile (h : lb.WellFormed) (hp : lb.Known p) (currTime now : Int) :
    lb.expire cfg currTime now p =
      .ok (lb.refile p ((lb.heap p).expired cfg currTime now)) := by
  obtain ⟨lb', he⟩ : ∃ lb', lb.expire cfg currTime now p = .ok lb' :=
    h.exists_expire hp currTime now
  rw [he]
  rcases expire_cases he with
    ⟨t, hf, ht, ho, rfl⟩ | ⟨t, hf, ht, ho, rfl⟩ | ⟨hf, hi, rfl⟩ | ⟨hf, hi, rfl⟩
  · rw [toIdle_eq_refile h.split hf]
    simp [HostInfo.expired, hf, ht, ho]
  · have hstay : (lb'.heap p).expired cfg currTime now = (lb'.heap p, .stay) := by
      simp [HostInfo.expired, hf, ht, ho]
    rw [hstay, refile_self]
  · simp [HostInfo.expired, hf, hi, refile, modifyHost, Move.inLeft, Move.inRight]
  · have hstay : (lb'.heap p).expired cfg currTime now = (lb'.heap p, .stay) := by
      simp [HostInfo.expired, hf, hi]
    rw [hstay, refile_self]

/-- The report of a filed host stores the new record and performs the move. -/
theorem report_of_known (h : lb.WellFormed) (clock : Clock) {ip port : UInt32} (isSucc : Bool)
    (hp : lb.hostMap[hostKey ip port]? = some p) :
    lb.report cfg clock ip port isSucc =
      .ok (lb.refile p ((lb.heap p).reported cfg clock isSucc)) := by
  have hcount : (lb.modifyHost p (·.record isSucc)).WellFormed :=
    h.modifyHost p _ (by simp) (by simp) (by simp)
  have hself : lb.modifyHost p (·.record isSucc) =
      lb.refile p ((lb.heap p).record isSucc, .stay) := rfl
  have hswitch : lb.reportSwitch cfg clock ip port isSucc =
      lb.refile p (((lb.heap p).record isSucc).switched cfg (clock 1) isSucc) := by
    simp only [reportSwitch, hp]
    rw [switchState_eq_refile hcount, hself, refile_refile, heap_refile, Function.update_self,
      Move.stay_andThen]
  have hwf : (lb.reportSwitch cfg clock ip port isSucc).WellFormed :=
    h.reportSwitch cfg clock ip port isSucc
  have hknown : (lb.reportSwitch cfg clock ip port isSucc).Known p :=
    ⟨_, by rw [hostMap_reportSwitch, hp]⟩
  unfold report
  simp only [hp]
  rw [expire_eq_refile hwf hknown, hswitch, refile_refile, heap_refile, Function.update_self]
  rfl

theorem report_of_unknown {clock : Clock} {ip port : UInt32} {isSucc : Bool}
    (hp : lb.hostMap[hostKey ip port]? = none) :
    lb.report cfg clock ip port isSucc = .ok lb := by
  simp only [report, hp]

/-! ## What a report leaves alone -/

/-- `lb'` is `lb` but for the host behind `p`: the other records are the same, the other
hosts are in the same lists in the same order, `p` is where it was or at the end of one of
the lists, and what does not belong to a host is the same. -/
structure OnlyAt (p : HostPtr) (lb lb' : LoadBalance) : Prop where
  heap : ∀ q, q ≠ p → lb'.heap q = lb.heap q
  idleList : lb'.idleList.filter (· ≠ p) = lb.idleList.filter (· ≠ p)
  overloadList : lb'.overloadList.filter (· ≠ p) = lb.overloadList.filter (· ≠ p)
  place :
    (lb'.idleList = lb.idleList ∧ lb'.overloadList = lb.overloadList) ∨
    (lb'.idleList = lb.idleList.filter (· ≠ p) ++ [p] ∧
      lb'.overloadList = lb.overloadList.filter (· ≠ p)) ∨
    (lb'.idleList = lb.idleList.filter (· ≠ p) ∧
      lb'.overloadList = lb.overloadList.filter (· ≠ p) ++ [p])
  hostMap : lb'.hostMap = lb.hostMap
  accessCnt : lb'.accessCnt = lb.accessCnt
  status : lb'.status = lb.status
  lastUpdateTs : lb'.lastUpdateTs = lb.lastUpdateTs

/-- Storing a record and moving its host touches that host only. -/
theorem onlyAt_refile (lb : LoadBalance) (p : HostPtr) (x : HostInfo × Move) :
    OnlyAt p lb (lb.refile p x) where
  heap q hq := Function.update_of_ne hq _ _
  idleList := Place.filter_apply p lb.idleList x.2.inLeft
  overloadList := Place.filter_apply p lb.overloadList x.2.inRight
  place := by
    unfold refile
    cases x.2 with
    | stay => exact .inl ⟨rfl, rfl⟩
    | left => exact .inr (.inl ⟨rfl, rfl⟩)
    | right => exact .inr (.inr ⟨rfl, rfl⟩)
  hostMap := rfl
  accessCnt := rfl
  status := rfl
  lastUpdateTs := rfl

/-- `lb₁` is `lb₂` but for the order of `p` and `q` at the end of a list. -/
structure SameButTails (p q : HostPtr) (lb₁ lb₂ : LoadBalance) : Prop where
  idleList : TailSwap p q lb₁.idleList lb₂.idleList
  overloadList : TailSwap p q lb₁.overloadList lb₂.overloadList
  rest : lb₁ = { lb₂ with idleList := lb₁.idleList, overloadList := lb₁.overloadList }

theorem refile_comm {q : HostPtr} (h : p ≠ q) (lb : LoadBalance) (x y : HostInfo × Move) :
    SameButTails p q ((lb.refile p x).refile q y) ((lb.refile q y).refile p x) where
  idleList := Place.tailSwap_apply h x.2.inLeft y.2.inLeft lb.idleList
  overloadList := Place.tailSwap_apply h x.2.inRight y.2.inRight lb.overloadList
  rest := by
    simp only [refile, Function.update_comm h.symm]

section

variable {ip port ip' port' : UInt32} {q : HostPtr}

theorem report_report (h : lb.WellFormed) (clock clock' : Clock) (isSucc isSucc' : Bool)
    (hp : lb.hostMap[hostKey ip port]? = some p) (hq : lb.hostMap[hostKey ip' port']? = some q)
    (hne : q ≠ p) :
    (lb.report cfg clock ip port isSucc >>= report cfg clock' ip' port' isSucc') =
      .ok ((lb.refile p ((lb.heap p).reported cfg clock isSucc)).refile q
        ((lb.heap q).reported cfg clock' isSucc')) := by
  obtain ⟨lb', h₁, hwf⟩ : ∃ lb', lb.report cfg clock ip port isSucc = .ok lb' ∧
    lb'.WellFormed := h.report clock ip port isSucc
  obtain rfl : lb.refile p ((lb.heap p).reported cfg clock isSucc) = lb' :=
    Except.ok.inj ((report_of_known h clock isSucc hp).symm.trans h₁)
  rw [h₁, Outcome.ok_bind, report_of_known hwf clock' isSucc' hq, heap_refile,
    Function.update_of_ne hne]

/-- Reports for two hosts, one of them unknown, commute. -/
theorem report_comm_of_unknown (h : lb.WellFormed) (clock clock' : Clock) (isSucc isSucc' : Bool)
    (ip' port' : UInt32) (hp : lb.hostMap[hostKey ip port]? = none) :
    ∃ lb',
      (lb.report cfg clock ip port isSucc >>= report cfg clock' ip' port' isSucc') = .ok lb' ∧
      (lb.report cfg clock' ip' port' isSucc' >>= report cfg clock ip port isSucc) = .ok lb' := by
  obtain ⟨lb', h₁, -⟩ : ∃ lb', lb.report cfg clock' ip' port' isSucc' = .ok lb' ∧
    lb'.WellFormed := h.report clock' ip' port' isSucc'
  have hp' : lb'.hostMap[hostKey ip port]? = none := by rw [hostMap_report h₁, hp]
  refine ⟨lb', ?_, ?_⟩
  · rw [report_of_unknown hp, Outcome.ok_bind, h₁]
  · rw [h₁, Outcome.ok_bind, report_of_unknown hp']

end

/-- **A report touches one host.**  In every reachable state a report for `ip : port`
succeeds.  When the host is not filed, nothing changes; when it is, the report touches
that host only (`OnlyAt`).  And reports for two different hosts, in either order, lead to
the same state but for the order of these two at the end of a list. -/
theorem report_touches_one (h : Reachable cfg lb) (clock : Clock) (ip port : UInt32)
    (isSucc : Bool) :
    (∃ lb', lb.report cfg clock ip port isSucc = .ok lb' ∧
      (lb.hostMap[hostKey ip port]? = none → lb' = lb) ∧
      ∀ p, lb.hostMap[hostKey ip port]? = some p → OnlyAt p lb lb') ∧
    ∀ (clock' : Clock) (ip' port' : UInt32) (isSucc' : Bool), (ip, port) ≠ (ip', port') →
      ∃ lb₁ lb₂,
        (lb.report cfg clock ip port isSucc >>= report cfg clock' ip' port' isSucc') = .ok lb₁ ∧
        (lb.report cfg clock' ip' port' isSucc' >>= report cfg clock ip port isSucc) = .ok lb₂ ∧
        (lb.hostMap[hostKey ip port]? = none ∨ lb.hostMap[hostKey ip' port']? = none →
          lb₁ = lb₂) ∧
        ∀ p q, lb.hostMap[hostKey ip port]? = some p → lb.hostMap[hostKey ip' port']? = some q →
          SameButTails p q lb₁ lb₂ := by
  have hwf := h.wellFormed
  refine ⟨?_, fun clock' ip' port' isSucc' hne ↦ ?_⟩
  · cases hp : lb.hostMap[hostKey ip port]? with
    | none => exact ⟨lb, report_of_unknown hp, fun _ ↦ rfl, fun _ h' ↦ by cases h'⟩
    | some p =>
        refine ⟨_, report_of_known hwf clock isSucc hp, fun h' ↦ (by cases h'), fun q hq ↦ ?_⟩
        obtain rfl := Option.some.inj hq
        exact onlyAt_refile lb p _
  · cases hp : lb.hostMap[hostKey ip port]? with
    | none =>
        obtain ⟨lb', h₁, h₂⟩ :=
          report_comm_of_unknown hwf clock clock' isSucc isSucc' ip' port' hp
        exact ⟨lb', lb', h₁, h₂, fun _ ↦ rfl, fun _ _ h' ↦ by cases h'⟩
    | some p =>
        cases hq : lb.hostMap[hostKey ip' port']? with
        | none =>
            obtain ⟨lb', h₁, h₂⟩ :=
              report_comm_of_unknown hwf clock' clock isSucc' isSucc ip port hq
            exact ⟨lb', lb', h₂, h₁, fun _ ↦ rfl, fun _ _ _ h' ↦ by cases h'⟩
        | some q =>
            have hpq : p ≠ q := by
              rintro rfl
              obtain ⟨e₁, e₂⟩ := pack_inj (hwf.key_unique hp hq)
              exact hne (Prod.ext e₁ e₂)
            refine ⟨_, _, report_report hwf clock clock' isSucc isSucc' hp hq hpq.symm,
              report_report hwf clock' clock isSucc' isSucc hq hp hpq, ?_, fun p' q' hp' hq' ↦ ?_⟩
            · rintro (h' | h') <;> cases h'
            · obtain rfl := Option.some.inj hp'
              obtain rfl := Option.some.inj hq'
              exact refile_comm hpq lb _ _

/-- The tenth failure of one host leaves the other one alone, and may be reported before
or after a success of the other. -/
theorem report_touches_one_tenth_failure :
    ∃ lb, Reachable .default lb ∧ lb.idleList = [0, 1] ∧
      (∃ lb', lb.report .default (fun _ ↦ 10) 1 80 false = .ok lb' ∧ OnlyAt 0 lb lb') ∧
      ∃ lb₁ lb₂,
        (lb.report .default (fun _ ↦ 10) 1 80 false >>=
          report .default (fun _ ↦ 10) 2 80 true) = .ok lb₁ ∧
        (lb.report .default (fun _ ↦ 10) 2 80 true >>=
          report .default (fun _ ↦ 10) 1 80 false) = .ok lb₂ ∧ SameButTails 0 1 lb₁ lb₂ := by
  have hmap : ((.update (fun _ ↦ 0) ⟨1, 1, [⟨1, 80⟩, ⟨2, 80⟩]⟩ :: failures 9 1).foldlM
      (step .default) (new 1 1)).map
        (fun lb ↦ (lb.hostMap[hostKey 1 80]?, lb.hostMap[hostKey 2 80]?, lb.idleList)) =
      .ok (some 0, some 1, [0, 1]) := by
    decide +kernel
  obtain ⟨lb, hrun, hlists⟩ := Outcome.map_eq_ok.mp hmap
  simp only [Prod.mk.injEq] at hlists
  obtain ⟨hp, hq, hidle⟩ := hlists
  have hreach : Reachable .default lb := ⟨1, 1, _, hrun⟩
  obtain ⟨⟨lb', h₁, -, honly⟩, hcomm⟩ := report_touches_one hreach (fun _ ↦ 10) 1 80 false
  obtain ⟨lb₁, lb₂, h₁₂, h₂₁, -, hswap⟩ := hcomm (fun _ ↦ 10) 2 80 true (by decide)
  exact ⟨lb, hreach, hidle, ⟨lb', h₁, honly 0 hp⟩, lb₁, lb₂, h₁₂, h₂₁, hswap 0 1 hp hq⟩

end LoadBalance

end Ylars.Agent
