import Mathlib.Data.Bool.Count
import Mathlib.Data.List.DropRight
import Ylars.Agent.Eviction

/-!
# The counters and the history

The log of a run says in order what happened to the host records: a record is created, a
report for it is counted, `set_overload` or `set_idle` starts it anew.  The records are
what the log makes of them (`History.heap_eq`), so what holds of the log holds of them.

The epoch of a host is the reports in the log since its record was last created or started
anew.  `CountsInt` relates the six counters of a record, which are of type `int`, to its epoch;
while the epoch is short enough for an `int` the counters are the numbers of the epoch
(`Counts`), and that a report moves the host is then a condition on the epoch.
-/

namespace Ylars.Agent.LoadBalance

open Std (ExtTreeMap ExtTreeSet)
open Ylars.Lib

/-- What can happen to the record behind a pointer. -/
inductive Event where
  /-- The constructor of `host_info`. -/
  | created (p : HostPtr) (ip port : UInt32) (now : Int)
  /-- A report is counted. -/
  | reported (p : HostPtr) (isSucc : Bool)
  | setOverload (p : HostPtr) (now : Int)
  | setIdle (p : HostPtr) (now : Int)
deriving DecidableEq, Repr

namespace Event

/-- The record an event is about. -/
def ptr : Event → HostPtr
  | created p _ _ _ | reported p _ | setOverload p _ | setIdle p _ => p

/-- What an event makes of the record. -/
def write (cfg : LoadBalanceConfig) : Event → HostInfo → HostInfo
  | created _ ip port now, _ => .new ip port cfg.initSuccCnt now
  | reported _ isSucc, host => host.record isSucc
  | setOverload _ now, host => host.setOverload cfg now
  | setIdle _ now, host => host.setIdle cfg now

/-- What an event makes of the records. -/
def apply (cfg : LoadBalanceConfig) (heap : HostPtr → HostInfo) (e : Event) : HostPtr → HostInfo :=
  Function.update heap e.ptr (e.write cfg (heap e.ptr))

end Event

/-- The records after the events of a log. -/
def replay (cfg : LoadBalanceConfig) (heap : HostPtr → HostInfo) (log : List Event) :
    HostPtr → HostInfo :=
  log.foldl (Event.apply cfg) heap

/-! ## The events of an operation -/

/-- The records that the first loop of `update` creates. -/
def insertEvents (cfg : LoadBalanceConfig) (clock : Clock) :
    Nat → LoadBalance → List Proto.HostInfo → List Event
  | _, _, [] => []
  | i, lb, host :: hosts =>
      (if hostKey host.ip host.port ∈ lb.hostMap then []
        else [.created lb.next host.ip host.port (clock (i + 1))]) ++
      insertEvents cfg clock (i + 1) (lb.insertHost cfg (clock (i + 1)) host) hosts

/-- What the threshold switches of `report` do. -/
def switchEvents (cfg : LoadBalanceConfig) (now : Int) (isSucc : Bool) (p : HostPtr)
    (lb : LoadBalance) : List Event :=
  let host := lb.heap p
  if !host.overload && !isSucc then
    if host.errLimitReached cfg then [.setOverload p now] else []
  else if host.overload && isSucc then
    if host.succLimitReached cfg then [.setIdle p now] else []
  else []

/-- What the timeouts of `report` do. -/
def expireEvents (cfg : LoadBalanceConfig) (currTime now : Int) (p : HostPtr)
    (lb : LoadBalance) : List Event :=
  let host := lb.heap p
  if host.overload then
    match host.overloadTs with
    | none => []
    | some overloadTs =>
        if cfg.overloadTimeout ≤ currTime - overloadTs then [.setIdle p now] else []
  else if cfg.idleTimeout ≤ currTime - host.idleTs then [.setIdle p now]
  else []

/-- What an operation does to the records. -/
def Op.events (cfg : LoadBalanceConfig) (lb : LoadBalance) : Op → List Event
  | .update clock res =>
      insertEvents cfg clock 0 { lb with lastUpdateTs := some (clock 0) } res.host
  | .report clock ip port isSucc =>
      match lb.hostMap[hostKey ip port]? with
      | none => []
      | some p =>
          .reported p isSucc ::
            (switchEvents cfg (clock 1) isSucc p (lb.modifyHost p (·.record isSucc)) ++
              expireEvents cfg (clock 0) (clock 2) p (lb.reportSwitch cfg clock ip port isSucc))
  | _ => []

/-- What the operations of a run do to the records. -/
def runEvents (cfg : LoadBalanceConfig) : LoadBalance → List Op → List Event
  | _, [] => []
  | lb, op :: ops =>
      op.events cfg lb ++
        match lb.step cfg op with
        | .error _ => []
        | .ok lb' => runEvents cfg lb' ops

/-- A run from the constructor's state with the log of what happened to the records. -/
inductive History (cfg : LoadBalanceConfig) : List Event → LoadBalance → Prop
  | new (modid cmdid : UInt32) : History cfg [] (LoadBalance.new modid cmdid)
  | step {log : List Event} {lb lb' : LoadBalance} {op : Op} : History cfg log lb →
      lb.step cfg op = .ok lb' → History cfg (log ++ op.events cfg lb) lb'

variable {cfg : LoadBalanceConfig} {lb lb' : LoadBalance} {log : List Event} {p : HostPtr}

/-! ## The log determines the records -/

section

variable {heap : HostPtr → HostInfo}

@[simp] theorem replay_nil : replay cfg heap [] = heap := rfl

@[simp] theorem replay_cons (e : Event) :
    replay cfg heap (e :: log) = replay cfg (e.apply cfg heap) log := rfl

theorem replay_append (log' : List Event) :
    replay cfg heap (log ++ log') = replay cfg (replay cfg heap log) log' :=
  List.foldl_append

theorem Event.apply_ptr (e : Event) : e.apply cfg heap e.ptr = e.write cfg (heap e.ptr) :=
  Function.update_self ..

theorem Event.apply_of_ne {e : Event} (h : e.ptr ≠ p) : e.apply cfg heap p = heap p :=
  Function.update_of_ne h.symm _ _

end

/-- Filing hosts creates records. -/
theorem heap_insertHosts (clock : Clock) (hosts : List Proto.HostInfo) :
    ∀ (i : Nat) (lb : LoadBalance) (remoteHosts : ExtTreeSet UInt64),
      (insertHosts cfg clock i lb remoteHosts hosts).1.heap =
        replay cfg lb.heap (insertEvents cfg clock i lb hosts) := by
  induction hosts with
  | nil => exact fun _ _ _ ↦ rfl
  | cons host hosts ih =>
      intro i lb remoteHosts
      rw [insertHosts, ih, insertEvents, replay_append]
      refine congrArg (replay cfg · _) ?_
      unfold insertHost
      dsimp only
      split <;> rfl

/-- The threshold switches start records anew. -/
theorem heap_switchState (now : Int) (isSucc : Bool) :
    (lb.switchState cfg now isSucc p).heap =
      replay cfg lb.heap (switchEvents cfg now isSucc p lb) := by
  unfold switchState switchEvents
  dsimp only
  split
  · split <;> rfl
  · split
    · split <;> rfl
    · rfl

/-- The timeouts of a report do to the records what their events say. -/
theorem heap_expire {currTime now : Int} (h : lb.expire cfg currTime now p = .ok lb') :
    lb'.heap = replay cfg lb.heap (expireEvents cfg currTime now p lb) := by
  unfold expireEvents
  rcases expire_cases h with
    ⟨t, hf, ht, hle, rfl⟩ | ⟨t, hf, ht, hle, rfl⟩ | ⟨hf, hle, rfl⟩ | ⟨hf, hle, rfl⟩
  · simp only [hf, ht, hle, if_true]
    rfl
  · simp only [hf, ht, hle, if_true, if_false]
    rfl
  · simp only [hf, hle, if_true, if_false, Bool.false_eq_true]
    rfl
  · simp only [hf, hle, if_false, Bool.false_eq_true]
    rfl

/-- **The events of an operation are all it does to the records.** -/
theorem heap_step {op : Op} (h : lb.step cfg op = .ok lb') :
    lb'.heap = replay cfg lb.heap (op.events cfg lb) := by
  cases op with
  | update clock res =>
      obtain ⟨_, _, _, rfl⟩ := update_eq h
      exact heap_insertHosts clock res.host 0 _ ∅
  | report clock ip port isSucc =>
      simp only [step, report] at h
      simp only [Op.events]
      cases hp : lb.hostMap[hostKey ip port]? with
      | none =>
          rw [hp] at h
          obtain rfl := Except.ok.inj h
          rfl
      | some p =>
          simp only [hp] at h
          rw [heap_expire h, replay_cons, replay_append]
          refine congrArg (replay cfg · _) ?_
          simp only [reportSwitch, hp]
          exact heap_switchState (clock 1) isSucc
  | choiceOneHost res =>
      obtain ⟨_, _, h₁⟩ := exists_choiceOneHost h
      exact (choiceOneHost_frame h₁).2
  | getAllHost =>
      obtain rfl := Except.ok.inj h
      rfl
  | commit now =>
      obtain rfl := Except.ok.inj h
      rfl

/-- **The records are what the log makes of them.** -/
theorem History.heap_eq (h : History cfg log lb) :
    lb.heap = replay cfg (LoadBalance.new 0 0).heap log := by
  induction h with
  | new modid cmdid => rfl
  | step _ hst ih => rw [heap_step hst, replay_append, ih]

/-! ## Runs and their logs -/

/-- A state with a history is reachable. -/
theorem History.reachable (h : History cfg log lb) : Reachable cfg lb := by
  induction h with
  | new modid cmdid => exact ⟨modid, cmdid, [], rfl⟩
  | @step log lb lb' op _ hst ih =>
      obtain ⟨modid, cmdid, ops, hrun⟩ := ih
      refine ⟨modid, cmdid, ops ++ [op], ?_⟩
      rw [List.foldlM_append, hrun, Outcome.ok_bind, List.foldlM_cons, hst]
      rfl

/-- A run goes on with a history. -/
theorem History.run (h : History cfg log lb) {ops : List Op}
    (hrun : ops.foldlM (LoadBalance.step cfg) lb = .ok lb') :
    History cfg (log ++ runEvents cfg lb ops) lb' := by
  induction ops generalizing log lb with
  | nil =>
      obtain rfl : lb = lb' := Except.ok.inj hrun
      rwa [runEvents, List.append_nil]
  | cons op ops ih =>
      rw [List.foldlM_cons, Outcome.bind_eq_ok] at hrun
      obtain ⟨lb₁, hst, hrun⟩ := hrun
      rw [runEvents, hst, ← List.append_assoc]
      exact ih (h.step hst) hrun

theorem Reachable.exists_history (h : Reachable cfg lb) : ∃ log, History cfg log lb := by
  obtain ⟨modid, cmdid, ops, hrun⟩ := h
  exact ⟨_, (History.new modid cmdid).run hrun⟩

/-- Filing hosts files what has been filed or is created. -/
theorem known_insertHosts (clock : Clock) (hosts : List Proto.HostInfo) :
    ∀ (i : Nat) (lb : LoadBalance) (remoteHosts : ExtTreeSet UInt64),
      (insertHosts cfg clock i lb remoteHosts hosts).1.Known p →
        lb.Known p ∨ ∃ ip port now, .created p ip port now ∈ insertEvents cfg clock i lb hosts := by
  induction hosts with
  | nil => exact fun _ _ _ h ↦ .inl h
  | cons host hosts ih =>
      intro i lb remoteHosts h
      rw [insertEvents]
      rcases ih (i + 1) _ _ h with ⟨k, hk⟩ | ⟨ip, port, now, hc⟩
      · unfold insertHost at hk
        by_cases hm : hostKey host.ip host.port ∈ lb.hostMap
        · simp only [hm, if_true] at hk
          exact .inl ⟨k, hk⟩
        · simp only [hm, if_false, ExtTreeMap.getElem?_insert] at hk ⊢
          split at hk
          · obtain rfl := Option.some.inj hk
            exact .inr ⟨_, _, _, List.mem_append_left _ (List.mem_singleton_self _)⟩
          · exact .inl ⟨k, hk⟩
      · exact .inr ⟨ip, port, now, List.mem_append_right _ hc⟩

/-- A filed host has been created. -/
theorem History.created (h : History cfg log lb) (hp : lb.Known p) :
    ∃ ip port now, .created p ip port now ∈ log := by
  induction h with
  | new modid cmdid =>
      obtain ⟨k, hk⟩ := hp
      simp [LoadBalance.new] at hk
  | @step log lb lb' op _ hst ih =>
      have hknown : lb.Known p ∨ ∃ ip port now, .created p ip port now ∈ op.events cfg lb := by
        cases op with
        | update clock res =>
            obtain ⟨_, _, _, rfl⟩ := update_eq hst
            obtain ⟨k, hk⟩ := hp
            rw [getElem?_foldl_erase, Option.ite_none_left_eq_some] at hk
            exact known_insertHosts clock res.host 0 _ ∅ ⟨k, hk.2⟩
        | report clock ip port isSucc =>
            obtain ⟨_, _, _, rfl⟩ := report_eq hst
            exact .inl hp
        | choiceOneHost res =>
            obtain ⟨_, _, h₁⟩ := exists_choiceOneHost hst
            obtain ⟨_, _, _, rfl⟩ := choiceOneHost_eq h₁
            exact .inl hp
        | getAllHost =>
            obtain rfl := Except.ok.inj hst
            exact .inl hp
        | commit now =>
            obtain rfl := Except.ok.inj hst
            exact .inl hp
      rcases hknown with hp | ⟨ip, port, now, hc⟩
      · obtain ⟨ip, port, now, hc⟩ := ih hp
        exact ⟨ip, port, now, List.mem_append_left _ hc⟩
      · exact ⟨ip, port, now, List.mem_append_right _ hc⟩

/-! ## The epoch of a host -/

/-- How long the run of the outcome `b` at the end of the reports is. -/
def trailing (b : Bool) (reports : List Bool) : ℕ := (reports.rtakeWhile (· = b)).length

/-- What an event makes of the epoch of the record it is about. -/
def Event.extend : Event → List Bool → List Bool
  | reported _ isSucc, reports => reports ++ [isSucc]
  | _, _ => []

/-- The reports for `p` since its record was last created or started anew. -/
def epoch (p : HostPtr) (log : List Event) : List Bool :=
  log.foldl (fun reports e ↦ if e.ptr = p then e.extend reports else reports) []

/-- The counters of a record count the reports of its epoch, as far as an `int` can. -/
structure CountsInt (cfg : LoadBalanceConfig) (reports : List Bool) (host : HostInfo) : Prop where
  rsucc : host.rsuccCnt = .ofInt (reports.count true)
  rerr : host.rerrCnt = .ofInt (reports.count false)
  /-- The virtual counters count the reports too, from the values of the window. -/
  vsucc : host.vsuccCnt =
    .ofInt ((if host.overload then 0 else cfg.initSuccCnt) + reports.count true)
  verr : host.verrCnt = .ofInt ((if host.overload then cfg.initErrCnt else 0) + reports.count false)
  continSucc : host.continSucc = .ofInt (trailing true reports)
  continErr : host.continErr = .ofInt (trailing false reports)

/-- The counters of a record are the numbers of its epoch. -/
structure Counts (cfg : LoadBalanceConfig) (reports : List Bool) (host : HostInfo) : Prop where
  rsucc : host.rsuccCnt.toInt = reports.count true
  rerr : host.rerrCnt.toInt = reports.count false
  vsucc : host.vsuccCnt.toInt =
    (if host.overload then 0 else cfg.initSuccCnt) + reports.count true
  verr : host.verrCnt.toInt = (if host.overload then cfg.initErrCnt else 0) + reports.count false
  continSucc : host.continSucc.toInt = trailing true reports
  continErr : host.continErr.toInt = trailing false reports

/-- An `int` can count the reports of an epoch, from the virtual calls that its window starts
with. -/
def Fits (cfg : LoadBalanceConfig) (reports : List Bool) (overload : Bool) : Prop :=
  (if overload then cfg.initErrCnt else cfg.initSuccCnt) + reports.length < 2 ^ 31

variable {reports : List Bool} {host : HostInfo}

@[simp] theorem trailing_nil (b : Bool) : trailing b [] = 0 := rfl

@[simp] theorem trailing_concat_self (b : Bool) :
    trailing b (reports ++ [b]) = trailing b reports + 1 := by
  simp [trailing]

theorem trailing_concat_of_ne {b c : Bool} (h : c ≠ b) : trailing b (reports ++ [c]) = 0 := by
  simp [trailing, h]

theorem trailing_le_length (b : Bool) (reports : List Bool) :
    trailing b reports ≤ reports.length :=
  (List.rtakeWhile_suffix _ _).length_le

namespace CountsInt

theorem new (ip port : UInt32) (now : Int) :
    CountsInt cfg [] (HostInfo.new ip port cfg.initSuccCnt now) := by
  constructor <;> simp [HostInfo.new]

theorem setOverload (now : Int) (host : HostInfo) :
    CountsInt cfg [] (host.setOverload cfg now) := by
  constructor <;> simp [HostInfo.setOverload]

theorem setIdle (now : Int) (host : HostInfo) : CountsInt cfg [] (host.setIdle cfg now) := by
  constructor <;> simp [HostInfo.setIdle]

theorem record (h : CountsInt cfg reports host) (isSucc : Bool) :
    CountsInt cfg (reports ++ [isSucc]) (host.record isSucc) := by
  obtain ⟨hrs, hre, hvs, hve, hcs, hce⟩ := h
  cases isSucc with
  | true =>
      have hother : trailing false (reports ++ [true]) = 0 := trailing_concat_of_ne (by decide)
      constructor <;> simp [HostInfo.record, *, Int32.add_assoc]
  | false =>
      have hother : trailing true (reports ++ [false]) = 0 := trailing_concat_of_ne (by decide)
      constructor <;> simp [HostInfo.record, *, Int32.add_assoc]

/-- In an epoch that is short enough the counters are the numbers themselves. -/
theorem counts (h : CountsInt cfg reports host) (hsucc : 0 ≤ cfg.initSuccCnt)
    (herr : 0 ≤ cfg.initErrCnt) (hfits : Fits cfg reports host.overload) :
    Counts cfg reports host := by
  have hcount : ∀ b, reports.count b ≤ reports.length := fun b ↦ List.count_le_length
  have htrailing := fun b ↦ trailing_le_length b reports
  have hexact : ∀ {x : Int32} {n : Int}, x = .ofInt n → 0 ≤ n → n < 2 ^ 31 → x.toInt = n := by
    rintro x n rfl hn hlt
    exact Int32.toInt_ofInt_of_le (by omega) hlt
  have htrue := hcount true
  have hfalse := hcount false
  have hruns := htrailing true
  have hrunf := htrailing false
  have hstart : 0 ≤ (if host.overload then 0 else cfg.initSuccCnt) ∧
      0 ≤ (if host.overload then cfg.initErrCnt else 0) ∧
      (if host.overload then 0 else cfg.initSuccCnt) + reports.length < 2 ^ 31 ∧
      (if host.overload then cfg.initErrCnt else 0) + reports.length < 2 ^ 31 := by
    unfold Fits at hfits
    cases hf : host.overload <;>
      simp only [hf, if_true, if_false, Bool.false_eq_true] at hfits ⊢ <;> omega
  refine ⟨hexact h.rsucc ?_ ?_, hexact h.rerr ?_ ?_, hexact h.vsucc ?_ ?_, hexact h.verr ?_ ?_,
    hexact h.continSucc ?_ ?_, hexact h.continErr ?_ ?_⟩ <;> omega

end CountsInt

theorem epoch_concat (e : Event) :
    epoch p (log ++ [e]) = if e.ptr = p then e.extend (epoch p log) else epoch p log := by
  simp [epoch, List.foldl_append]

/-- **The counters count the epoch.**  Once the record of a host has been created, its
counters count the reports of its epoch. -/
theorem counts_replay (heap : HostPtr → HostInfo) {ip port : UInt32} {now : Int}
    (hc : .created p ip port now ∈ log) : CountsInt cfg (epoch p log) (replay cfg heap log p) := by
  induction log using List.reverseRecOn with
  | nil => cases hc
  | append_singleton log e ih =>
      rw [epoch_concat, replay_append, replay_cons, replay_nil]
      by_cases he : e.ptr = p
      · subst he
        rw [if_pos rfl, Event.apply_ptr]
        cases e with
        | created p ip port now => exact .new ip port now
        | reported p isSucc =>
            refine CountsInt.record (ih ?_) isSucc
            simpa using hc
        | setOverload p now => exact .setOverload now _
        | setIdle p now => exact .setIdle now _
      · rw [if_neg he, Event.apply_of_ne he]
        refine ih ?_
        rcases List.mem_append.mp hc with hc | hc
        · exact hc
        · rw [List.mem_singleton] at hc
          exact absurd (hc ▸ rfl) he

theorem History.counts (h : History cfg log lb) (hp : lb.Known p) :
    CountsInt cfg (epoch p log) (lb.heap p) := by
  obtain ⟨ip, port, now, hc⟩ := h.created hp
  rw [h.heap_eq]
  exact counts_replay _ hc

/-! ## What a report does to the reported record -/

section

variable {clock : Clock} {ip port : UInt32} {isSucc : Bool}

theorem heap_reportSwitch_cases (cfg : LoadBalanceConfig) (clock : Clock) (isSucc : Bool)
    (hp : lb.hostMap[hostKey ip port]? = some p) :
    ((lb.heap p).overload = false ∧ isSucc = false ∧
      ((lb.heap p).record isSucc).errLimitReached cfg = true ∧
      (lb.reportSwitch cfg clock ip port isSucc).heap p =
        ((lb.heap p).record isSucc).setOverload cfg (clock 1)) ∨
    ((lb.heap p).overload = true ∧ isSucc = true ∧
      ((lb.heap p).record isSucc).succLimitReached cfg = true ∧
      (lb.reportSwitch cfg clock ip port isSucc).heap p =
        ((lb.heap p).record isSucc).setIdle cfg (clock 1)) ∨
    (((lb.heap p).overload = false → isSucc = false →
        ((lb.heap p).record isSucc).errLimitReached cfg = false) ∧
      ((lb.heap p).overload = true → isSucc = true →
        ((lb.heap p).record isSucc).succLimitReached cfg = false) ∧
      (lb.reportSwitch cfg clock ip port isSucc).heap p = (lb.heap p).record isSucc) := by
  have hheap : (lb.modifyHost p (·.record isSucc)).heap p = (lb.heap p).record isSucc :=
    Function.update_self ..
  simp only [reportSwitch, hp]
  rcases switchState_cases cfg (lb.modifyHost p (·.record isSucc)) (clock 1) isSucc p with
    ⟨hf, hs, hl, e⟩ | ⟨hf, hs, hl, e⟩ | ⟨hf, hs, e⟩ <;>
    rw [hheap, HostInfo.overload_record] at hf
  · refine .inl ⟨hf, hs, hheap ▸ hl, ?_⟩
    rw [e, toOverload, modifyHost, hheap]
    exact Function.update_self ..
  · refine .inr (.inl ⟨hf, hs, hheap ▸ hl, ?_⟩)
    rw [e, toIdle, modifyHost, hheap]
    exact Function.update_self ..
  · rw [hheap, HostInfo.overload_record] at hs
    exact .inr (.inr ⟨hf, hs, by rw [e, hheap]⟩)

theorem heap_expire_cases {currTime now : Int} (h : lb.expire cfg currTime now p = .ok lb') :
    (∃ t, (lb.heap p).overload = true ∧ (lb.heap p).overloadTs = some t ∧
      cfg.overloadTimeout ≤ currTime - t ∧ lb'.heap p = (lb.heap p).setIdle cfg now) ∨
    (∃ t, (lb.heap p).overload = true ∧ (lb.heap p).overloadTs = some t ∧
      ¬cfg.overloadTimeout ≤ currTime - t ∧ lb'.heap p = lb.heap p) ∨
    ((lb.heap p).overload = false ∧ cfg.idleTimeout ≤ currTime - (lb.heap p).idleTs ∧
      lb'.heap p = (lb.heap p).setIdle cfg now) ∨
    ((lb.heap p).overload = false ∧ ¬cfg.idleTimeout ≤ currTime - (lb.heap p).idleTs ∧
      lb'.heap p = lb.heap p) := by
  rcases expire_cases h with
    ⟨t, hf, ht, hle, rfl⟩ | ⟨t, hf, ht, hle, rfl⟩ | ⟨hf, hle, rfl⟩ | ⟨hf, hle, rfl⟩
  · exact .inl ⟨t, hf, ht, hle, Function.update_self ..⟩
  · exact .inr (.inl ⟨t, hf, ht, hle, rfl⟩)
  · exact .inr (.inr (.inl ⟨hf, hle, Function.update_self ..⟩))
  · exact .inr (.inr (.inr ⟨hf, hle, rfl⟩))

variable (hp : lb.hostMap[hostKey ip port]? = some p)
  (hr : lb.report cfg clock ip port isSucc = .ok lb')
include hp hr

/-- A report turns an idle host overloaded when it fails and reaches a limit. -/
theorem overload_report_iff (htime : 0 < cfg.overloadTimeout) (hclock : clock 0 ≤ clock 1)
    (hf : (lb.heap p).overload = false) : (lb'.heap p).overload = true ↔
      isSucc = false ∧ ((lb.heap p).record isSucc).errLimitReached cfg = true := by
  simp only [report, hp] at hr
  rcases heap_reportSwitch_cases cfg clock isSucc hp with
    ⟨-, hs, hl, e⟩ | ⟨hf', -, -, -⟩ | ⟨hno, -, e⟩
  · -- switched, and the timeout cannot take it back: it was read before the switch
    rcases heap_expire_cases hr with
      ⟨t, -, ht, hle, -⟩ | ⟨t, -, -, -, e'⟩ | ⟨hf', -, -⟩ | ⟨hf', -, -⟩
    · rw [e, HostInfo.overloadTs_setOverload, Option.some.injEq] at ht
      omega
    · rw [e', e, HostInfo.overload_setOverload]
      exact iff_of_true rfl ⟨hs, hl⟩
    · simp [e] at hf'
    · simp [e] at hf'
  · simp [hf] at hf'
  · have hno' : ¬(isSucc = false ∧ ((lb.heap p).record isSucc).errLimitReached cfg = true) := by
      rintro ⟨hs, hl⟩
      simp [hno hf hs] at hl
    refine iff_of_false ?_ hno'
    rcases heap_expire_cases hr with
      ⟨t, -, -, -, e'⟩ | ⟨t, hf', -, -, -⟩ | ⟨-, -, e'⟩ | ⟨-, -, e'⟩
    · simp [e']
    · simp [e, hf] at hf'
    · simp [e']
    · simp [e', e, hf]

/-- A report turns an overloaded host idle when it succeeds and reaches a limit, or when
the overload timeout has passed. -/
theorem idle_report_iff {t : Int} (hf : (lb.heap p).overload = true)
    (ht : (lb.heap p).overloadTs = some t) : (lb'.heap p).overload = false ↔
      (isSucc = true ∧ ((lb.heap p).record isSucc).succLimitReached cfg = true) ∨
        cfg.overloadTimeout ≤ clock 0 - t := by
  simp only [report, hp] at hr
  rcases heap_reportSwitch_cases cfg clock isSucc hp with
    ⟨hf', -, -, -⟩ | ⟨-, hs, hl, e⟩ | ⟨-, hno, e⟩
  · simp [hf] at hf'
  · refine iff_of_true ?_ (.inl ⟨hs, hl⟩)
    rcases heap_expire_cases hr with
      ⟨t', hf', -, -, -⟩ | ⟨t', hf', -, -, -⟩ | ⟨-, -, e'⟩ | ⟨-, -, e'⟩
    · simp [e] at hf'
    · simp [e] at hf'
    · simp [e']
    · simp [e', e]
  · have hno' : ¬(isSucc = true ∧ ((lb.heap p).record isSucc).succLimitReached cfg = true) := by
      rintro ⟨hs, hl⟩
      simp [hno hf hs] at hl
    rw [or_iff_right hno']
    rcases heap_expire_cases hr with
      ⟨t', -, ht', hle, e'⟩ | ⟨t', -, ht', hle, e'⟩ | ⟨hf', -, -⟩ | ⟨hf', -, -⟩
    · obtain rfl : t = t' := by simpa [e, ht] using ht'
      exact iff_of_true (by simp [e']) hle
    · obtain rfl : t = t' := by simpa [e, ht] using ht'
      exact iff_of_false (by simp [e', e, hf]) hle
    · simp [e, hf] at hf'
    · simp [e, hf] at hf'

end

/-! ## When a report moves a host -/

/-- The calls that the failure rate of an idle epoch is about. -/
def idleCalls (cfg : LoadBalanceConfig) (reports : List Bool) : ℤ :=
  cfg.initSuccCnt + reports.count true + reports.count false

/-- The calls that the success rate of an overloaded epoch is about. -/
def overloadCalls (cfg : LoadBalanceConfig) (reports : List Bool) : ℤ :=
  reports.count true + (cfg.initErrCnt + reports.count false)

/-- `host'` is what a report leaves of `host`, when `reports` are the reports of the epoch,
that report included, and `now` is the time of the report. -/
structure MovesByHistory (cfg : LoadBalanceConfig) (reports : List Bool) (isSucc : Bool)
    (now : Int) (host host' : HostInfo) : Prop where
  /-- An idle host that fails is moved when the failure rate or the run of failures has
  reached its limit. -/
  idle : host.overload = false → 0 < idleCalls cfg reports ∧
    (host'.overload = true ↔ isSucc = false ∧
      (cfg.errRate ≤ (reports.count false : ℚ) / idleCalls cfg reports ∨
        cfg.continErrLimit ≤ trailing false reports))
  /-- An overloaded host that succeeds is moved when the success rate or the run of
  successes has reached its limit; and any report moves it after the overload timeout. -/
  overload : host.overload = true → 0 < overloadCalls cfg reports ∧
    ∃ t, host.overloadTs = some t ∧
    (host'.overload = false ↔ (isSucc = true ∧
      (cfg.succRate ≤ (reports.count true : ℚ) / overloadCalls cfg reports ∨
        cfg.continSuccLimit ≤ trailing true reports)) ∨
      cfg.overloadTimeout ≤ now - t)

theorem toInt_calls {calls : ℤ} (hpos : 0 < calls) (hlt : calls < 2 ^ 31)
    (hcalls : host.vsuccCnt.toInt + host.verrCnt.toInt = calls) :
    (host.vsuccCnt + host.verrCnt).toInt = calls := by
  rw [Int32.toInt_add, hcalls]
  exact Int.bmod_eq_of_le (by simp; omega) (by simp; omega)

theorem Counts.errLimitReached_iff (h : Counts cfg reports host) (hf : host.overload = false)
    (hfits : Fits cfg reports host.overload) (hpos : 0 < idleCalls cfg reports) :
    host.errLimitReached cfg = true ↔
      cfg.errRate ≤ (reports.count false : ℚ) / idleCalls cfg reports ∨
        cfg.continErrLimit ≤ trailing false reports := by
  have hlen := List.count_true_add_count_false reports
  have hcalls : (host.vsuccCnt + host.verrCnt).toInt = idleCalls cfg reports := by
    apply toInt_calls hpos
    · simp only [Fits, hf, Bool.false_eq_true, if_false] at hfits
      unfold idleCalls
      omega
    · simp [h.vsucc, h.verr, hf, idleCalls]
  rw [HostInfo.errLimitReached, Bool.or_eq_true, decide_eq_true_eq,
    HostInfo.rateReached_iff (by rwa [hcalls]), hcalls, h.verr, h.continErr]
  simp [hf]

theorem Counts.succLimitReached_iff (h : Counts cfg reports host) (hf : host.overload = true)
    (hfits : Fits cfg reports host.overload) (hpos : 0 < overloadCalls cfg reports) :
    host.succLimitReached cfg = true ↔
      cfg.succRate ≤ (reports.count true : ℚ) / overloadCalls cfg reports ∨
        cfg.continSuccLimit ≤ trailing true reports := by
  have hlen := List.count_true_add_count_false reports
  have hcalls : (host.vsuccCnt + host.verrCnt).toInt = overloadCalls cfg reports := by
    apply toInt_calls hpos
    · simp only [Fits, hf, if_true] at hfits
      unfold overloadCalls
      omega
    · simp [h.vsucc, h.verr, hf, overloadCalls]
  rw [HostInfo.succLimitReached, Bool.or_eq_true, decide_eq_true_eq,
    HostInfo.rateReached_iff (by rwa [hcalls]), hcalls, h.vsucc, h.continSucc]
  simp [hf]

/-- **The incremental counters equal the history.**  In every run the counters of a filed
host are the numbers of its epoch, and the next report for it moves it exactly when the
epoch, that report included, says so, for as long as an `int` can count the calls. -/
theorem counters_eq_history (hover : 0 < cfg.overloadTimeout) (hsucc : 0 ≤ cfg.initSuccCnt)
    (herr : 0 ≤ cfg.initErrCnt) (h : History cfg log lb) {k : UInt64}
    (hp : lb.hostMap[k]? = some p) :
    (Fits cfg (epoch p log) (lb.heap p).overload → Counts cfg (epoch p log) (lb.heap p)) ∧
      ∀ (clock : Clock) (ip port : UInt32) (isSucc : Bool), hostKey ip port = k →
        clock 0 ≤ clock 1 → ∃ lb', lb.report cfg clock ip port isSucc = .ok lb' ∧
          (Fits cfg (epoch p log ++ [isSucc]) (lb.heap p).overload →
            MovesByHistory cfg (epoch p log ++ [isSucc]) isSucc (clock 0)
              (lb.heap p) (lb'.heap p)) := by
  have hwf := h.reachable.wellFormed
  have hcounts := h.counts ⟨k, hp⟩
  refine ⟨hcounts.counts hsucc herr, ?_⟩
  rintro clock ip port isSucc rfl hclock
  obtain ⟨lb', hr, -⟩ : ∃ lb', lb.report cfg clock ip port isSucc = .ok lb' ∧ lb'.WellFormed :=
    hwf.report clock ip port isSucc
  have hover' := HostInfo.overload_record isSucc (lb.heap p)
  -- the epoch has a report: the one that is just counted
  have hlen : (epoch p log ++ [isSucc]).count true + (epoch p log ++ [isSucc]).count false =
      (epoch p log).length + 1 := by
    rw [List.count_true_add_count_false, List.length_append, List.length_singleton]
  have hidle : 0 < idleCalls cfg (epoch p log ++ [isSucc]) := by
    unfold idleCalls
    omega
  have hoverload : 0 < overloadCalls cfg (epoch p log ++ [isSucc]) := by
    unfold overloadCalls
    omega
  refine ⟨lb', hr, fun hfits ↦ ?_⟩
  rw [← hover'] at hfits
  have hrecord := (hcounts.record isSucc).counts hsucc herr hfits
  refine ⟨fun hf ↦ ⟨hidle, ?_⟩, fun hf ↦ ⟨hoverload, ?_⟩⟩
  · rw [overload_report_iff hp hr hover hclock hf,
      hrecord.errLimitReached_iff (hover'.trans hf) hfits hidle]
  · obtain ⟨t, ht⟩ := hwf.overloadTs p ⟨_, hp⟩ hf
    refine ⟨t, ht, ?_⟩
    rw [idle_report_iff hp hr hf ht,
      hrecord.succLimitReached_iff (hover'.trans hf) hfits hoverload]

/-- An update with one host, and nine failures of that host, one second apart. -/
def nineFailures : List Op :=
  .update (fun _ ↦ 0) ⟨1, 1, [⟨1, 80⟩]⟩ :: failures 9 1

/-- The tenth failure in a row of a host, one second after the ninth, moves it as its history says.
-/
theorem counters_eq_history_tenth_failure :
    ∃ log lb, History .default log lb ∧ nineFailures.foldlM (step .default) (new 1 1) = .ok lb ∧
      epoch 0 log = List.replicate 9 false ∧ Counts .default (epoch 0 log) (lb.heap 0) ∧
      ∃ lb', lb.report .default (fun _ ↦ 10) 1 80 false = .ok lb' ∧
        MovesByHistory .default (epoch 0 log ++ [false]) false 10 (lb.heap 0) (lb'.heap 0) := by
  have hmap : (nineFailures.foldlM (step .default) (new 1 1)).map (fun lb ↦
      (lb.hostMap[hostKey 1 80]?, (lb.heap 0).overload)) = .ok (some 0, false) := by
    decide +kernel
  have hepoch : epoch 0 ([] ++ runEvents .default (new 1 1) nineFailures) =
      List.replicate 9 false := by
    decide +kernel
  obtain ⟨lb, hrun, hlb⟩ := Outcome.map_eq_ok.mp hmap
  obtain ⟨hget, hidle⟩ := Prod.mk.inj hlb
  have h := (History.new 1 1).run hrun
  obtain ⟨hcounts, hmoves⟩ := counters_eq_history (by decide) (by decide) (by decide) h hget
  obtain ⟨lb', hr, hmoves⟩ := hmoves (fun _ ↦ 10) 1 80 false rfl le_rfl
  rw [hidle] at hcounts hmoves
  refine ⟨_, lb, h, hrun, hepoch, hcounts ?_, lb', hr, hmoves ?_⟩
  · rw [hepoch, Fits]
    decide
  · rw [hepoch, Fits]
    decide

/-- Settings with the largest number of virtual successes. -/
def mostVirtual : LoadBalanceConfig :=
  { LoadBalanceConfig.default with initSuccCnt := 2 ^ 31 - 1, fits := by decide }

/-- An update with one host, and a success of that host. -/
def oneSuccess : List Op :=
  [.update (fun _ ↦ 0) ⟨1, 1, [⟨1, 80⟩]⟩, .report (fun _ ↦ 1) 1 80 true]

/-- With the largest number of virtual successes, the first success overflows the counter. -/
theorem counters_overflow :
    0 < mostVirtual.overloadTimeout ∧ 0 < mostVirtual.idleTimeout ∧ 0 ≤ mostVirtual.initErrCnt ∧
      ∃ log lb, History mostVirtual log lb ∧ lb.hostMap[hostKey 1 80]? = some 0 ∧
        epoch 0 log = [true] ∧ (lb.heap 0).overload = false ∧
        (lb.heap 0).vsuccCnt.toInt ≠ mostVirtual.initSuccCnt + (epoch 0 log).count true := by
  have hmap : (oneSuccess.foldlM (step mostVirtual) (new 1 1)).map (fun lb ↦
      (lb.hostMap[hostKey 1 80]?, (lb.heap 0).overload, (lb.heap 0).vsuccCnt)) =
        .ok (some 0, false, .minValue) := by
    decide +kernel
  have hepoch : epoch 0 ([] ++ runEvents mostVirtual (new 1 1) oneSuccess) = [true] := by
    decide +kernel
  obtain ⟨lb, hrun, hlb⟩ := Outcome.map_eq_ok.mp hmap
  obtain ⟨hget, hlb⟩ := Prod.mk.inj hlb
  obtain ⟨hidle, hcount⟩ := Prod.mk.inj hlb
  refine ⟨by decide, by decide, by decide, _, lb, (History.new 1 1).run hrun, hget, hepoch, hidle,
    ?_⟩
  rw [hcount, hepoch]
  decide

end Ylars.Agent.LoadBalance
