import Ylars.Agent.History

/-!
# Recovery and fresh windows

After a report the window of the reported host is younger than its timeout, because the
last thing a report does is to end the windows that are not.  The overload time that it
reads for this has been stored by a `set_overload`.  And a host whose reports succeed
comes back: each success that leaves it overloaded makes its run of successes longer,
until the run reaches `contin_succ_limit`.
-/

namespace Ylars.Agent.LoadBalance

open Std (ExtTreeMap ExtTreeSet)
open Ylars.Lib

/-- `op` is a successful report for `k`. -/
def Op.succeeds (k : UInt64) : Op → Bool
  | .report _ ip port isSucc => decide (hostKey ip port = k) && isSucc
  | _ => false

/-- `op` is neither a failed report for `k` nor an update that removes it. -/
def Op.Favours (k : UInt64) : Op → Prop
  | .report _ ip port isSucc => hostKey ip port = k → isSucc = true
  | .update _ res => ∃ host ∈ res.host, hostKey host.ip host.port = k
  | _ => True

variable {cfg : LoadBalanceConfig} {lb lb' : LoadBalance} {log : List Event} {k : UInt64}
  {p : HostPtr}

/-! ## The overload time -/

/-- The overload time of a record comes from a `set_overload`. -/
theorem overloadTs_replay {heap : HostPtr → HostInfo} (h₀ : (heap p).overloadTs = none) {t : Int}
    (h : (replay cfg heap log p).overloadTs = some t) : .setOverload p t ∈ log := by
  induction log using List.reverseRecOn with
  | nil => simp [h₀] at h
  | append_singleton log e ih =>
      rw [replay_append, replay_cons, replay_nil] at h
      by_cases he : e.ptr = p
      · subst he
        rw [Event.apply_ptr] at h
        cases e with
        | created p ip port now => cases h
        | reported p isSucc =>
            refine List.mem_append_left _ (ih ?_)
            simpa [Event.write] using h
        | setOverload p now =>
            obtain rfl := Option.some.inj h
            exact List.mem_append_right _ (List.mem_singleton_self _)
        | setIdle p now => exact List.mem_append_left _ (ih h)
      · rw [Event.apply_of_ne he] at h
        exact List.mem_append_left _ (ih h)

theorem History.setOverload_mem (h : History cfg log lb) {t : Int}
    (ht : (lb.heap p).overloadTs = some t) : .setOverload p t ∈ log :=
  overloadTs_replay rfl (h.heap_eq ▸ ht)

/-! ## The window after a report -/

section

variable {clock : Clock} {ip port : UInt32} {isSucc : Bool}
  (hp : lb.hostMap[hostKey ip port]? = some p)
  (hr : lb.report cfg clock ip port isSucc = .ok lb')
include hp hr

/-- After a report the window of the host is younger than its timeout. -/
theorem fresh_of_report (htime : 0 < cfg.idleTimeout) (hclock : clock 0 ≤ clock 2) :
    ((lb'.heap p).overload = true → ∃ t, (lb'.heap p).overloadTs = some t ∧
      clock 0 - t < cfg.overloadTimeout) ∧
    ((lb'.heap p).overload = false → clock 0 - (lb'.heap p).idleTs < cfg.idleTimeout) := by
  simp only [report, hp] at hr
  rcases heap_expire_cases hr with
    ⟨t, -, -, -, e⟩ | ⟨t, hf, ht, hle, e⟩ | ⟨-, -, e⟩ | ⟨hf, hle, e⟩
  · rw [e]
    refine ⟨fun hf ↦ ?_, fun _ ↦ ?_⟩
    · simp at hf
    · rw [HostInfo.idleTs_setIdle]
      omega
  · rw [e]
    refine ⟨fun _ ↦ ⟨t, ht, not_le.mp hle⟩, fun hf' ↦ ?_⟩
    rw [hf] at hf'
    cases hf'
  · rw [e]
    refine ⟨fun hf ↦ ?_, fun _ ↦ ?_⟩
    · simp at hf
    · rw [HostInfo.idleTs_setIdle]
      omega
  · rw [e]
    refine ⟨fun hf' ↦ ?_, fun _ ↦ not_le.mp hle⟩
    rw [hf] at hf'
    cases hf'

/-- A success that leaves a host overloaded is counted and has not reached the limits. -/
theorem record_of_succ_of_overload (hs : isSucc = true) (hf' : (lb'.heap p).overload = true) :
    (lb.heap p).overload = true ∧ lb'.heap p = (lb.heap p).record true ∧
      ((lb.heap p).record true).succLimitReached cfg = false := by
  subst hs
  simp only [report, hp] at hr
  rcases heap_expire_cases hr with
    ⟨t, -, -, -, e⟩ | ⟨t, hf, ht, hle, e⟩ | ⟨-, -, e⟩ | ⟨hf, hle, e⟩
  · simp [e] at hf'
  · rcases heap_reportSwitch_cases cfg clock true hp with
      ⟨-, hs, -, -⟩ | ⟨-, -, -, e₁⟩ | ⟨-, hno, e₁⟩
    · cases hs
    · simp [e₁] at hf
    · have hf₀ : (lb.heap p).overload = true := by simpa [e₁] using hf
      exact ⟨hf₀, by rw [e, e₁], hno hf₀ rfl⟩
  · simp [e] at hf'
  · simp [e, hf] at hf'

end

/-! ## Runs of successes -/

/-- An operation that is no report for a filed host and does not remove it keeps the host
and its record. -/
theorem step_frame_of_favours (h : lb.WellFormed) {op : Op} (hst : lb.step cfg op = .ok lb')
    (hp : lb.hostMap[k]? = some p) (hfav : op.Favours k) (hs : op.succeeds k = false) :
    lb'.hostMap[k]? = some p ∧ lb'.heap p = lb.heap p := by
  cases op with
  | update clock res => exact update_frame h hst hp hfav
  | report clock ip port isSucc =>
      refine report_frame h hst hp fun hk ↦ ?_
      simp [Op.succeeds, hk, hfav hk] at hs
  | choiceOneHost res => exact step_frame h hst hp trivial rfl
  | getAllHost => exact step_frame h hst hp trivial rfl
  | commit now => exact step_frame h hst hp trivial rfl

/-- After one of the operations `ops` from `lb`, a successful report for `k`, the host `p` is
filed under `k` and idle. -/
def Recovers (cfg : LoadBalanceConfig) (k : UInt64) (p : HostPtr) (lb : LoadBalance)
    (ops : List Op) : Prop :=
  ∃ before op after lb', ops = before ++ op :: after ∧ op.succeeds k = true ∧
    (before ++ [op]).foldlM (step cfg) lb = .ok lb' ∧ lb'.hostMap[k]? = some p ∧
    p ∈ lb'.idleList

theorem Recovers.cons {op : Op} {ops : List Op} (hst : lb.step cfg op = .ok lb')
    (h : Recovers cfg k p lb' ops) : Recovers cfg k p lb (op :: ops) := by
  obtain ⟨before, op', after, lb₂, rfl, hs, hrun, hp, hidle⟩ := h
  refine ⟨op :: before, op', after, lb₂, rfl, hs, ?_, hp, hidle⟩
  rw [List.cons_append, List.foldlM_cons, hst, Outcome.ok_bind, hrun]

/-- The successes still to come, counted from a state in the middle of the run. -/
theorem recovers_of_limit (ops : List Op) : ∀ lb : LoadBalance, lb.WellFormed →
    lb.hostMap[k]? = some p → (∀ op ∈ ops, op.Favours k) → 0 < ops.countP (Op.succeeds k) →
    ((lb.heap p).overload = true → RunBelow cfg.continSuccLimit (lb.heap p).continSucc ∧
      cfg.continSuccLimit ≤ (lb.heap p).continSucc.toInt + ops.countP (Op.succeeds k)) →
    Recovers cfg k p lb ops := by
  induction ops with
  | nil => exact fun _ _ _ _ hpos _ ↦ absurd hpos (Nat.lt_irrefl 0)
  | cons op ops ih =>
      intro lb h hp hfav hpos hlimit
      obtain ⟨lb', hst, hwf⟩ := h.step cfg op
      have hfav' : ∀ op ∈ ops, op.Favours k := fun o ho ↦ hfav o (List.mem_cons_of_mem _ ho)
      cases hs : op.succeeds k with
      | false =>
          obtain ⟨hp', hh⟩ := step_frame_of_favours h hst hp (hfav op (List.mem_cons_self ..)) hs
          rw [List.countP_cons_of_neg (by simp [hs])] at hpos hlimit
          exact .cons hst (ih lb' hwf hp' hfav' hpos (by rwa [hh]))
      | true =>
          cases op with
          | report clock ip port isSucc =>
              obtain ⟨hk, hs'⟩ := Bool.and_eq_true_iff.mp hs
              obtain rfl := of_decide_eq_true hk
              have hp' : lb'.hostMap[hostKey ip port]? = some p := by
                obtain ⟨_, _, _, rfl⟩ := report_eq hst
                exact hp
              cases hf' : (lb'.heap p).overload with
              | false =>
                  refine ⟨[], .report clock ip port isSucc, ops, lb', rfl, hs, ?_, hp', ?_⟩
                  · rw [List.nil_append, List.foldlM_cons, hst]
                    rfl
                  · exact (hwf.split.mem_left p).mpr ⟨⟨_, hp'⟩, by simp [Overloaded, hf']⟩
              | true =>
                  -- still overloaded: the run of successes is one longer, and below its limit
                  obtain ⟨hf, hh, hl⟩ := record_of_succ_of_overload hp hst hs' hf'
                  obtain ⟨hbelow, hleft⟩ := hlimit hf
                  have hrun : (lb'.heap p).continSucc = (lb.heap p).continSucc + 1 := by
                    rw [hh]
                    rfl
                  have hlt : ¬cfg.continSuccLimit ≤ ((lb.heap p).continSucc + 1).toInt := by
                    simp only [HostInfo.succLimitReached, Bool.or_eq_false_iff,
                      decide_eq_false_iff_not] at hl
                    exact hl.2
                  have hnext := hbelow.toInt_add_one cfg.continSuccLimit_lt
                  rw [List.countP_cons_of_pos hs] at hleft
                  refine .cons hst (ih lb' hwf hp' hfav' (by omega) fun _ ↦ ?_)
                  rw [hrun]
                  exact ⟨hbelow.next cfg.continSuccLimit_lt hlt, by omega⟩
          | _ => cases hs

/-- **Recovery and fresh windows.**  In every run, a report for a filed host reads an
overload time only if a `set_overload` has stored it, and leaves the host in a window
younger than its timeout; and as soon as `contin_succ_limit` reports for the host have
succeeded, with none failed in between, one of them has left the host in the idle list. -/
theorem recovery_and_freshness (htime : 0 < cfg.idleTimeout) (h : History cfg log lb)
    (hp : lb.hostMap[k]? = some p) :
    (∀ t, (lb.heap p).overloadTs = some t → .setOverload p t ∈ log) ∧
    (∀ (clock : Clock) (ip port : UInt32) (isSucc : Bool), hostKey ip port = k →
      clock 0 ≤ clock 2 → ∃ lb', lb.report cfg clock ip port isSucc = .ok lb' ∧
        ((lb'.heap p).overload = true → ∃ t, (lb'.heap p).overloadTs = some t ∧
          clock 0 - t < cfg.overloadTimeout) ∧
        ((lb'.heap p).overload = false → clock 0 - (lb'.heap p).idleTs < cfg.idleTimeout)) ∧
    ∀ ops : List Op, (∀ op ∈ ops, op.Favours k) → 0 < ops.countP (Op.succeeds k) →
      cfg.continSuccLimit ≤ ops.countP (Op.succeeds k) → Recovers cfg k p lb ops := by
  have hwf := h.reachable.wellFormed
  refine ⟨fun t ht ↦ h.setOverload_mem ht, ?_, fun ops hfav hpos hlimit ↦ ?_⟩
  · rintro clock ip port isSucc rfl hclock
    obtain ⟨lb', hr, -⟩ : ∃ lb', lb.report cfg clock ip port isSucc = .ok lb' ∧ lb'.WellFormed :=
      hwf.report clock ip port isSucc
    exact ⟨lb', hr, fresh_of_report hp hr htime hclock⟩
  · refine recovers_of_limit ops lb hwf hp hfav hpos fun hf ↦ ?_
    have hbelow := (h.reachable.belowLimits p).continSucc hf
    have := hbelow.1
    exact ⟨hbelow, by omega⟩

/-- A run of `n` successful reports for one host, a second apart. -/
def successes (n : Nat) (start : Int) : List Op :=
  (List.range n).map fun i ↦ .report (fun _ ↦ start + i) 1 80 true

/-- A host is overloaded after ten failures and comes back with ten successes. -/
theorem recovery_and_freshness_default :
    ∃ log lb, History .default log lb ∧ lb.overloadList = [0] ∧
      (∀ t, (lb.heap 0).overloadTs = some t → .setOverload 0 t ∈ log) ∧
      Recovers .default (hostKey 1 80) 0 lb (successes 10 11) := by
  have hmap : ((.update (fun _ ↦ 0) ⟨1, 1, [⟨1, 80⟩]⟩ :: failures 10 1).foldlM
      (step .default) (new 1 1)).map (fun lb ↦ (lb.hostMap[hostKey 1 80]?, lb.overloadList)) =
        .ok (some 0, [0]) := by
    decide +kernel
  obtain ⟨lb, hrun, hlists⟩ := Outcome.map_eq_ok.mp hmap
  obtain ⟨hget, hover⟩ := Prod.ext_iff.mp hlists
  obtain ⟨log, h⟩ := Reachable.exists_history ⟨1, 1, _, hrun⟩
  obtain ⟨hset, -, hrecover⟩ := recovery_and_freshness (by decide) h hget
  refine ⟨log, lb, h, hover, hset, hrecover _ ?_ (by decide) (by decide)⟩
  intro op hop
  obtain ⟨i, -, rfl⟩ := List.mem_map.mp hop
  exact fun _ ↦ rfl

end Ylars.Agent.LoadBalance
