import Ylars.Agent.Eviction
import Ylars.Lib.RoundRobin

/-!
# The turns of the hosts

A run of `choice_one_host` calls with nothing in between serves the two lists of a load
balancer like a `Rota`: the idle hosts in turn, and, when there are overloaded hosts, one
of them in turn at each call that finds `_access_cnt` at `probe_num`.  So the state after
`i` calls is known in closed form, and so is what each call returns.
-/

namespace Ylars.Agent.LoadBalance

open Ylars.Lib

/-- Calls of `choice_one_host`, one after the other, and what they return. -/
def choiceHosts (cfg : LoadBalanceConfig) : List Proto.GetHostResponse → LoadBalance →
    Outcome (List (Proto.LastRetCode × Proto.GetHostResponse) × LoadBalance)
  | [], lb => .ok ([], lb)
  | res :: ress, lb => do
      let (ret, res, lb) ← lb.choiceOneHost cfg res
      let (outs, lb) ← choiceHosts cfg ress lb
      return ((ret, res) :: outs, lb)

/-- What a call returns that serves a host, or none. -/
def answer (lb : LoadBalance) (res : Proto.GetHostResponse) :
    Option HostPtr → Proto.LastRetCode × Proto.GetHostResponse
  | some p => (.retSucc, { res with host := some (lb.endpoint p) })
  | none => (.retOverload, res)

/-- The call returned the host that `p` points to. -/
def returned (lb : LoadBalance) (p : HostPtr)
    (out : Proto.LastRetCode × Proto.GetHostResponse) : Bool :=
  out.1 = .retSucc ∧ out.2.host = some (lb.endpoint p)

/-- The probe counter is between zero and its limit. -/
structure CntInRange (cfg : LoadBalanceConfig) (lb : LoadBalance) : Prop where
  nonneg : 0 ≤ lb.accessCnt
  le : lb.accessCnt ≤ cfg.probeNum

variable {cfg : LoadBalanceConfig} {lb : LoadBalance}

/-! ## The probe counter -/

namespace CntInRange

theorem of_eq {lb' : LoadBalance} (h : lb.CntInRange cfg) (he : lb'.accessCnt = lb.accessCnt) :
    lb'.CntInRange cfg :=
  ⟨he ▸ h.nonneg, he ▸ h.le⟩

end CntInRange

/-- Filing hosts does not touch the counter. -/
theorem accessCnt_insertHosts (clock : Clock) (hosts : List Proto.HostInfo) :
    ∀ (i : ℕ) (lb : LoadBalance) (remoteHosts : Std.ExtTreeSet UInt64),
      (insertHosts cfg clock i lb remoteHosts hosts).1.accessCnt = lb.accessCnt := by
  induction hosts with
  | nil => exact fun _ _ _ ↦ rfl
  | cons host hosts ih =>
      intro i lb remoteHosts
      rw [insertHosts, ih]
      unfold insertHost
      dsimp only
      split <;> rfl

theorem accessCnt_update {lb' : LoadBalance} {clock : Clock} {res : Proto.GetRouteResponse}
    (h : lb.update cfg clock res = .ok lb') : lb'.accessCnt = lb.accessCnt := by
  obtain ⟨_, _, _, rfl⟩ := update_eq h
  exact accessCnt_insertHosts clock res.host 0 _ ∅

/-- Choosing a host counts up to the limit and starts again. -/
theorem accessCnt_choiceOneHost {lb' : LoadBalance} {ret : Proto.LastRetCode}
    {res res' : Proto.GetHostResponse} (h : lb.choiceOneHost cfg res = .ok (ret, res', lb')) :
    lb'.accessCnt = lb.accessCnt ∨ lb'.accessCnt = 0 ∨
      lb.accessCnt < cfg.probeNum ∧ lb'.accessCnt = lb.accessCnt + 1 := by
  cases chosen_of_choiceOneHost h with
  | noexist => exact .inl rfl
  | overload hlt => exact .inr (.inr ⟨hlt, rfl⟩)
  | probe => exact .inr (.inl rfl)
  | idle _ hcnt => exact hcnt.imp_right .inr

/-- **The probe counter stays in its range.** -/
theorem cntInRange (hp : 0 ≤ cfg.probeNum) (h : Reachable cfg lb) : lb.CntInRange cfg := by
  refine h.induction (I := CntInRange cfg) (fun _ _ ↦ ⟨le_refl _, hp⟩) fun lb op lb' hi hst ↦ ?_
  cases op with
  | update clock res => exact hi.of_eq (accessCnt_update hst)
  | report clock ip port isSucc =>
      obtain ⟨_, _, _, rfl⟩ := report_eq hst
      exact hi.of_eq rfl
  | choiceOneHost res =>
      obtain ⟨_, _, h₁⟩ := exists_choiceOneHost hst
      rcases accessCnt_choiceOneHost h₁ with he | he | ⟨hlt, he⟩
      · exact hi.of_eq he
      · exact ⟨he ▸ le_refl _, he ▸ hp⟩
      · have := hi.nonneg
        constructor <;> omega
  | getAllHost =>
      obtain rfl := Except.ok.inj hst
      exact hi
  | commit now =>
      obtain rfl := Except.ok.inj hst
      exact hi

/-! ## The state after some calls -/

namespace CntInRange

/-- The rota that the calls of `choice_one_host` follow. -/
def rota (h : lb.CntInRange cfg) : Rota HostPtr where
  main := lb.idleList
  second := lb.overloadList
  limit := cfg.probeNum.toNat
  cnt := lb.accessCnt.toNat
  cnt_le := Int.toNat_le_toNat h.le

/-- The state after `i` calls. -/
def after (h : lb.CntInRange cfg) (i : ℕ) : LoadBalance :=
  { lb with
    idleList := lb.idleList.rotate (i - h.rota.probes i)
    overloadList := lb.overloadList.rotate (h.rota.probes i)
    accessCnt := h.rota.cntAfter i }

variable (h : lb.CntInRange cfg)

theorem after_zero : h.after 0 = lb := by
  simp [after, rota, Int.toNat_of_nonneg h.nonneg]

section

variable (ho : lb.overloadList ≠ []) (i : ℕ)
include ho

theorem probes_rota : h.rota.probes i =
    (lb.accessCnt.toNat + i) / (cfg.probeNum.toNat + 1) := by
  simp [Rota.probes, rota, ho]

theorem cntAfter_rota : h.rota.cntAfter i =
    (lb.accessCnt.toNat + i) % (cfg.probeNum.toNat + 1) := by
  simp [Rota.cntAfter, rota, ho]

/-- A call is a probe when the counter is at its limit. -/
theorem isProbe_rota : h.rota.isProbe i =
    ((lb.accessCnt.toNat + i) % (cfg.probeNum.toNat + 1) == cfg.probeNum.toNat) := by
  have he : h.rota.second.isEmpty = false := by simpa [rota] using ho
  rw [Rota.isProbe, he, h.cntAfter_rota ho]
  rfl

end

theorem no_probe_rota (ho : lb.overloadList = []) (i : ℕ) :
    h.rota.isProbe i = false ∧ h.rota.probes i = 0 ∧ h.rota.cntAfter i = lb.accessCnt.toNat := by
  simp [Rota.isProbe, Rota.probes, Rota.cntAfter, rota, ho]

theorem limit_rota : (h.rota.limit : ℤ) = cfg.probeNum :=
  Int.toNat_of_nonneg (h.nonneg.trans h.le)

end CntInRange

/-! ## One call -/

section

variable {p : HostPtr} {rest : List HostPtr}

theorem chooseIdle_of_cons (hl : lb.idleList = p :: rest) (res : Proto.GetHostResponse) :
    lb.chooseIdle res = .ok ((lb.answer res (some p)).1, (lb.answer res (some p)).2,
      { lb with idleList := rest ++ [p] }) := by
  simp only [chooseIdle, hl, getHostFromList, Outcome.ok_bind]
  rfl

theorem chooseOverload_of_cons (hl : lb.overloadList = p :: rest) (res : Proto.GetHostResponse) :
    lb.chooseOverload res = .ok ((lb.answer res (some p)).1, (lb.answer res (some p)).2,
      { lb with overloadList := rest ++ [p] }) := by
  simp only [chooseOverload, hl, getHostFromList, Outcome.ok_bind]
  rfl

variable (hm : lb.hostMap.isEmpty = false) (res : Proto.GetHostResponse)
include hm

/-- With the counter at its limit an overloaded host is probed, idle hosts or not. -/
theorem choiceOneHost_of_probe (ho : lb.overloadList = p :: rest)
    (hc : cfg.probeNum ≤ lb.accessCnt) : lb.choiceOneHost cfg res =
      .ok ((lb.answer res (some p)).1, (lb.answer res (some p)).2,
        { lb with overloadList := rest ++ [p], accessCnt := 0 }) := by
  have hchoose := @chooseOverload_of_cons { lb with accessCnt := 0 } p rest ho res
  have ho' : lb.overloadList.isEmpty = false := by rw [ho, List.isEmpty_cons]
  simp only [choiceOneHost, hm, ho', hc, Bool.false_eq_true, if_false, if_true]
  split <;> exact hchoose

/-- Below the limit an idle host is served and the call is counted. -/
theorem choiceOneHost_of_idle (hi : lb.idleList = p :: rest) (ho : lb.overloadList ≠ [])
    (hc : lb.accessCnt < cfg.probeNum) : lb.choiceOneHost cfg res =
      .ok ((lb.answer res (some p)).1, (lb.answer res (some p)).2,
        { lb with idleList := rest ++ [p], accessCnt := lb.accessCnt + 1 }) := by
  have hchoose := @chooseIdle_of_cons { lb with accessCnt := lb.accessCnt + 1 } p rest hi res
  have hi' : lb.idleList.isEmpty = false := by rw [hi, List.isEmpty_cons]
  have ho' : lb.overloadList.isEmpty = false := by simpa using ho
  simp only [choiceOneHost, hm, hi', ho', not_le.mpr hc, Bool.false_eq_true, if_false]
  exact hchoose

/-- Below the limit, with no idle host, the call is only counted. -/
theorem choiceOneHost_of_no_idle (hi : lb.idleList = []) (hc : lb.accessCnt < cfg.probeNum) :
    lb.choiceOneHost cfg res = .ok ((lb.answer res none).1, (lb.answer res none).2,
      { lb with accessCnt := lb.accessCnt + 1 }) := by
  have hi' : lb.idleList.isEmpty = true := by rw [hi, List.isEmpty_nil]
  simp only [choiceOneHost, hm, hi', not_le.mpr hc, Bool.false_eq_true, if_false, if_true]
  rfl

/-- With no overloaded host an idle one is served, and the call is not counted. -/
theorem choiceOneHost_of_no_overload (hi : lb.idleList = p :: rest) (ho : lb.overloadList = []) :
    lb.choiceOneHost cfg res = .ok ((lb.answer res (some p)).1, (lb.answer res (some p)).2,
      { lb with idleList := rest ++ [p] }) := by
  have hi' : lb.idleList.isEmpty = false := by rw [hi, List.isEmpty_cons]
  have ho' : lb.overloadList.isEmpty = true := by rw [ho, List.isEmpty_nil]
  simp only [choiceOneHost, hm, hi', ho', Bool.false_eq_true, if_false, if_true]
  exact chooseIdle_of_cons hi res

end

/-- **Call `i` serves the pick of the rota.** -/
theorem choiceOneHost_after (h : lb.CntInRange cfg) (hm : lb.hostMap.isEmpty = false)
    (hne : lb.overloadList = [] → lb.idleList ≠ []) (i : ℕ) (res : Proto.GetHostResponse) :
    (h.after i).choiceOneHost cfg res =
      .ok ((lb.answer res (h.rota.pick i)).1, (lb.answer res (h.rota.pick i)).2,
        h.after (i + 1)) := by
  have hle : h.rota.probes i ≤ i := Rota.probes_le
  have hlimit := h.limit_rota
  have hm' : (h.after i).hostMap.isEmpty = false := hm
  rcases Rota.succ_cases (r := h.rota) (n := i) with
    ⟨hp, ho, hc, hcnt, hprobes⟩ | ⟨hp, ho, hc, hcnt, hprobes⟩ | ⟨hp, ho, hcnt, hprobes⟩
  · -- a probe
    have hne : lb.overloadList ≠ [] := by simpa [CntInRange.rota] using ho
    obtain ⟨p, rest, hl, hturn, hnext⟩ := exists_rotate_eq_cons hne (h.rota.probes i)
    have hpick : h.rota.pick i = some p := by rw [Rota.pick, if_pos hp]; exact hturn
    rw [hpick, choiceOneHost_of_probe hm' res hl (by simp only [CntInRange.after]; omega)]
    simp [CntInRange.after, hcnt, hprobes, hnext, answer, endpoint]
  · have hne : lb.overloadList ≠ [] := by simpa [CntInRange.rota] using ho
    have hlt : (h.after i).accessCnt < cfg.probeNum := by simp only [CntInRange.after]; omega
    by_cases hi : lb.idleList = []
    · -- nothing to serve
      have hpick : h.rota.pick i = none := by
        rw [Rota.pick_of_not_isProbe hp]
        simp [CntInRange.rota, hi]
      rw [hpick, choiceOneHost_of_no_idle hm' res (by simp [CntInRange.after, hi]) hlt]
      simp [CntInRange.after, hcnt, hprobes, answer, hi]
    · obtain ⟨p, rest, hl, hturn, hnext⟩ := exists_rotate_eq_cons hi (i - h.rota.probes i)
      have hpick : h.rota.pick i = some p := by rw [Rota.pick_of_not_isProbe hp]; exact hturn
      rw [hpick, choiceOneHost_of_idle hm' res hl (by simpa [CntInRange.after] using hne) hlt]
      simp [CntInRange.after, hcnt, hprobes, Nat.succ_sub hle, hnext, answer, endpoint]
  · -- nothing to probe
    have ho' : lb.overloadList = [] := by simpa [CntInRange.rota] using ho
    obtain ⟨p, rest, hl, hturn, hnext⟩ := exists_rotate_eq_cons (hne ho') (i - h.rota.probes i)
    have hpick : h.rota.pick i = some p := by rw [Rota.pick_of_not_isProbe hp]; exact hturn
    rw [hpick, choiceOneHost_of_no_overload hm' res hl (by simp [CntInRange.after, ho'])]
    simp [CntInRange.after, hcnt, hprobes, Nat.succ_sub hle, hnext, answer, endpoint]

/-! ## A run of calls -/

/-- What a run of calls returns, one for each response in `ress`, and the state `lb'` it
leaves, when the calls take the hosts in turn. -/
structure FairCalls (cfg : LoadBalanceConfig) (lb : LoadBalance)
    (ress : List Proto.GetHostResponse)
    (outs : List (Proto.LastRetCode × Proto.GetHostResponse)) (lb' : LoadBalance) : Prop where
  /-- With overloaded hosts, the calls that find the counter at its limit return these, in
  turn. -/
  probe : lb.overloadList ≠ [] → ∀ i res, ress[i]? = some res →
    (lb.accessCnt.toNat + i) % (cfg.probeNum.toNat + 1) = cfg.probeNum.toNat →
      ∃ q, turn lb.overloadList ((lb.accessCnt.toNat + i) / (cfg.probeNum.toNat + 1)) = some q ∧
        outs[i]? = some (lb.answer res (some q))
  /-- The other calls return the idle hosts, in turn, or none if there is none. -/
  pass : lb.overloadList ≠ [] → ∀ i res, ress[i]? = some res →
    (lb.accessCnt.toNat + i) % (cfg.probeNum.toNat + 1) ≠ cfg.probeNum.toNat →
      outs[i]? = some (lb.answer res
        (turn lb.idleList (i - (lb.accessCnt.toNat + i) / (cfg.probeNum.toNat + 1))))
  /-- Without overloaded hosts every call returns an idle host, in turn. -/
  idle : lb.overloadList = [] → ∀ i res, ress[i]? = some res →
    ∃ q, turn lb.idleList i = some q ∧ outs[i]? = some (lb.answer res (some q))
  /-- One call in `probe_num + 1` returns an overloaded host. -/
  probes : lb.overloadList ≠ [] →
    outs.countP (fun out ↦ lb.overloadList.any fun q ↦ lb.returned q out) =
      (lb.accessCnt.toNat + ress.length) / (cfg.probeNum.toNat + 1)
  /-- No idle host is returned two times more than another. -/
  fair_idle : ∀ q ∈ lb.idleList, ∀ q' ∈ lb.idleList,
    outs.countP (lb.returned q) ≤ outs.countP (lb.returned q') + 1
  /-- No overloaded host is returned two times more than another. -/
  fair_overload : ∀ q ∈ lb.overloadList, ∀ q' ∈ lb.overloadList,
    outs.countP (lb.returned q) ≤ outs.countP (lb.returned q') + 1
  /-- With overloaded hosts both lists are rotated, and the counter goes on. -/
  rotated : lb.overloadList ≠ [] → lb' =
    { lb with
      idleList := lb.idleList.rotate
        (ress.length - (lb.accessCnt.toNat + ress.length) / (cfg.probeNum.toNat + 1))
      overloadList := lb.overloadList.rotate
        ((lb.accessCnt.toNat + ress.length) / (cfg.probeNum.toNat + 1))
      accessCnt := ((lb.accessCnt.toNat + ress.length) % (cfg.probeNum.toNat + 1) : ℕ) }
  /-- Without overloaded hosts only the idle list is rotated. -/
  rotated_idle : lb.overloadList = [] → lb' = { lb with
    idleList := lb.idleList.rotate ress.length }

theorem choiceHosts_after (h : lb.CntInRange cfg) (hm : lb.hostMap.isEmpty = false)
    (hne : lb.overloadList = [] → lb.idleList ≠ []) (ress : List Proto.GetHostResponse) :
    ∀ i, choiceHosts cfg ress (h.after i) =
      .ok (List.zipWith lb.answer ress ((List.range' i ress.length).map h.rota.pick),
        h.after (i + ress.length)) := by
  induction ress with
  | nil => exact fun _ ↦ rfl
  | cons res ress ih =>
      intro i
      rw [choiceHosts, choiceOneHost_after h hm hne i res]
      simp only [Outcome.ok_bind, ih (i + 1)]
      rw [List.length_cons, List.range'_succ, List.map_cons, List.zipWith_cons_cons,
        Nat.add_right_comm i 1, Nat.add_assoc]
      rfl

theorem choiceHosts_eq (h : lb.CntInRange cfg) (hm : lb.hostMap.isEmpty = false)
    (hne : lb.overloadList = [] → lb.idleList ≠ []) (ress : List Proto.GetHostResponse) :
    choiceHosts cfg ress lb =
      .ok (List.zipWith lb.answer ress (h.rota.picks ress.length), h.after ress.length) := by
  have hrun := choiceHosts_after h hm hne ress 0
  rwa [h.after_zero, Nat.zero_add, ← List.range_eq_range'] at hrun

theorem getElem?_zipWith_picks (r : Rota HostPtr) {ress : List Proto.GetHostResponse} {i : ℕ}
    {res : Proto.GetHostResponse} (hi : ress[i]? = some res) :
    (List.zipWith lb.answer ress (r.picks ress.length))[i]? =
      some (lb.answer res (r.pick i)) := by
  obtain ⟨hlt, -⟩ := List.getElem?_eq_some_iff.mp hi
  have hpick : (r.picks ress.length)[i]? = some (r.pick i) := by
    simp [Rota.picks, List.getElem?_range hlt]
  rw [List.getElem?_zipWith, hi, hpick]

/-- How often something is returned depends on the picks alone. -/
theorem countP_zipWith_picks (r : Rota HostPtr) (ress : List Proto.GetHostResponse)
    {P : Proto.LastRetCode × Proto.GetHostResponse → Bool} {Q : Option HostPtr → Bool}
    (hPQ : ∀ res i, P (lb.answer res (r.pick i)) = Q (r.pick i)) :
    (List.zipWith lb.answer ress (r.picks ress.length)).countP P =
      (r.picks ress.length).countP Q := by
  have hlen : (r.picks ress.length).length ≤ ress.length := by simp [Rota.picks]
  rw [← List.map_uncurry_zip_eq_zipWith, List.countP_map]
  conv_rhs => rw [← List.map_snd_zip hlen, List.countP_map]
  refine List.countP_congr ?_
  rintro ⟨res, x⟩ hx
  obtain ⟨i, -, rfl⟩ := List.mem_map.mp (List.of_mem_zip hx).2
  simp only [Function.comp_apply, Function.uncurry, hPQ]

/-- A call that served a filed host returned that host and no other. -/
theorem WellFormed.returned_answer (h : lb.WellFormed) {p : HostPtr} (hp : lb.Known p)
    (res : Proto.GetHostResponse) {x : Option HostPtr} (hx : ∀ q, x = some q → lb.Known q) :
    lb.returned p (lb.answer res x) = (x == some p) := by
  cases x with
  | none => simp [returned, answer]
  | some q =>
      by_cases e : q = p
      · subst e
        simp [returned, answer]
      · have hne : lb.endpoint q ≠ lb.endpoint p := fun he ↦ e (h.endpoint_inj (hx q rfl) hp he)
        simp [returned, answer, e, hne]

theorem WellFormed.known_of_pick (h : lb.WellFormed) (hc : lb.CntInRange cfg) {i : ℕ}
    {q : HostPtr} (hq : hc.rota.pick i = some q) : lb.Known q := by
  unfold Rota.pick at hq
  split at hq
  · exact ((h.split.mem_right q).mp (mem_of_turn_eq hq)).1
  · exact ((h.split.mem_left q).mp (mem_of_turn_eq hq)).1

/-- The picks that are overloaded hosts are the probes. -/
theorem CntInRange.countP_picks_rota (hc : lb.CntInRange cfg) (h : lb.WellFormed) (n : ℕ) :
    (hc.rota.picks n).countP (fun x ↦ lb.overloadList.any fun q ↦ x == some q) =
      hc.rota.probes n := by
  refine Rota.countP_picks_second _ (fun i ↦ ?_) fun q hq ↦ ?_
  · rw [Bool.eq_false_iff, ne_eq, List.any_eq_true]
    rintro ⟨q, hq, he⟩
    exact ((h.split.mem_left q).mp (mem_of_turn_eq (l := lb.idleList) (eq_of_beq he))).2
      ((h.split.mem_right q).mp hq).2
  · exact List.any_eq_true.mpr ⟨q, hq, beq_self_eq_true _⟩

/-- **Choosing hosts is fair.**  From a reachable state with hosts, consecutive calls take
the idle and the overloaded hosts in turn, an overloaded one every `probe_num + 1` calls. -/
theorem choice_fair (h : Reachable cfg lb) (hp : 0 ≤ cfg.probeNum)
    (hne : 1 ≤ lb.idleList.length + lb.overloadList.length) (ress : List Proto.GetHostResponse) :
    0 ≤ lb.accessCnt ∧ lb.accessCnt ≤ cfg.probeNum ∧
      ∃ outs lb', choiceHosts cfg ress lb = .ok (outs, lb') ∧
        FairCalls cfg lb ress outs lb' := by
  have hwf := h.wellFormed
  have hc : lb.CntInRange cfg := cntInRange hp h
  -- some host is filed
  have hm : lb.hostMap.isEmpty = false := by
    obtain ⟨q, hq⟩ : ∃ q, q ∈ lb.idleList ++ lb.overloadList :=
      List.exists_mem_of_length_pos (by rw [List.length_append]; omega)
    obtain ⟨k, hk⟩ := hwf.split.mem_append.mp hq
    rw [Std.ExtTreeMap.isEmpty_eq_false_iff]
    intro he
    simp [he] at hk
  have hidle : lb.overloadList = [] → lb.idleList ≠ [] := by
    intro ho hi
    simp [ho, hi] at hne
  have hdisj : hc.rota.main.Disjoint hc.rota.second :=
    List.disjoint_of_nodup_append hwf.split.nodup_append
  have hcount : ∀ q, lb.Known q →
      (List.zipWith lb.answer ress (hc.rota.picks ress.length)).countP (lb.returned q) =
        (hc.rota.picks ress.length).count (some q) := fun q hq ↦
    countP_zipWith_picks hc.rota ress fun res i ↦
      hwf.returned_answer hq res fun _ he ↦ hwf.known_of_pick hc he
  refine ⟨hc.nonneg, hc.le, _, _, choiceHosts_eq hc hm hidle ress, ?_⟩
  constructor
  case probe =>
    intro ho i res hi hat
    obtain ⟨q, -, hq⟩ := Rota.exists_pick_of_isProbe (r := hc.rota) (n := i)
      (by rw [hc.isProbe_rota ho, hat, beq_self_eq_true])
    refine ⟨q, ?_, by rw [getElem?_zipWith_picks hc.rota hi, hq]⟩
    rw [Rota.pick, hc.isProbe_rota ho, hat, beq_self_eq_true, if_pos rfl, hc.probes_rota ho] at hq
    exact hq
  case pass =>
    intro ho i res hi hat
    have hno : hc.rota.isProbe i = false := by
      rw [hc.isProbe_rota ho]
      exact beq_false_of_ne hat
    rw [getElem?_zipWith_picks hc.rota hi, Rota.pick_of_not_isProbe hno, hc.probes_rota ho]
    rfl
  case idle =>
    intro ho i res hi
    obtain ⟨hno, hprobes, -⟩ := hc.no_probe_rota ho i
    obtain ⟨q, -, -, hq, -⟩ := exists_rotate_eq_cons (hidle ho) i
    refine ⟨q, hq, ?_⟩
    rw [getElem?_zipWith_picks hc.rota hi, Rota.pick_of_not_isProbe hno, hprobes, Nat.sub_zero]
    exact congrArg (fun x ↦ some (lb.answer res x)) hq
  case probes =>
    intro ho
    rw [← hc.probes_rota ho, ← hc.countP_picks_rota hwf]
    refine countP_zipWith_picks hc.rota ress fun res i ↦ ?_
    rw [Bool.eq_iff_iff, List.any_eq_true, List.any_eq_true]
    refine exists_congr fun q ↦ and_congr_right fun hq ↦ ?_
    rw [hwf.returned_answer ((hwf.split.mem_right q).mp hq).1 res
      fun _ he ↦ hwf.known_of_pick hc he]
  case fair_idle =>
    intro q hq q' hq'
    rw [hcount q ((hwf.split.mem_left q).mp hq).1, hcount q' ((hwf.split.mem_left q').mp hq').1]
    exact Rota.count_picks_main_le hwf.split.nodup_left hdisj hq hq'
  case fair_overload =>
    intro q hq q' hq'
    rw [hcount q ((hwf.split.mem_right q).mp hq).1, hcount q' ((hwf.split.mem_right q').mp hq').1]
    exact Rota.count_picks_second_le hwf.split.nodup_right hdisj hq hq'
  case rotated =>
    intro ho
    simp only [CntInRange.after, hc.probes_rota ho, hc.cntAfter_rota ho]
  case rotated_idle =>
    intro ho
    obtain ⟨-, hprobes, hcnt⟩ := hc.no_probe_rota ho ress.length
    simp only [CntInRange.after, hprobes, hcnt, Nat.sub_zero, List.rotate_zero,
      Int.toNat_of_nonneg hc.nonneg]

/-- A module with three hosts, one of which has failed ten times. -/
def oneOfThreeFailing : List Op :=
  .update (fun _ ↦ 0) { modid := 1, cmdid := 1, host := [⟨1, 80⟩, ⟨2, 80⟩, ⟨3, 80⟩] } ::
    failures 10 1

/-- Thirty calls with one of three hosts overloaded are shared fairly. -/
theorem choice_fair_oneOfThreeFailing :
    ∃ lb, oneOfThreeFailing.foldlM (step .default) (new 1 1) = .ok lb ∧
      lb.idleList = [1, 2] ∧ lb.overloadList = [0] ∧
      ∃ outs lb', choiceHosts .default (List.replicate 30 ⟨0, 1, 1, .retSucc, none⟩) lb =
          .ok (outs, lb') ∧
        FairCalls .default lb (List.replicate 30 ⟨0, 1, 1, .retSucc, none⟩) outs lb' := by
  have hlists : (oneOfThreeFailing.foldlM (step .default) (new 1 1)).map
      (fun lb ↦ (lb.idleList, lb.overloadList)) = .ok ([1, 2], [0]) := by decide +kernel
  obtain ⟨lb, hrun, hlists⟩ := Outcome.map_eq_ok.mp hlists
  obtain ⟨hidle, hover⟩ := Prod.ext_iff.mp hlists
  simp only at hidle hover
  exact ⟨lb, hrun, hidle, hover, (choice_fair ⟨1, 1, oneOfThreeFailing, hrun⟩ (by decide)
    (by rw [hidle, hover]; decide) _).2.2⟩

end Ylars.Agent.LoadBalance
