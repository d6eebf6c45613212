import Ylars.Agent.LoadBalance
import Ylars.Lib.Split

/-!
# The containers of a load balancer agree

`WellFormed` relates the three containers and the overload flag of a
`LoadBalance`: the two lists split the filed hosts by their flag, a host is filed
under its own key, and an overloaded host has its overload time set.  Every
operation keeps it, and none of them faults in a well-formed state; both follow
from one lemma per place where the source changes a container.
-/

namespace Ylars.Agent.LoadBalance

open Std (ExtTreeMap ExtTreeSet)
open Ylars.Lib

/-- `p` is filed in the host map. -/
def Known (lb : LoadBalance) (p : HostPtr) : Prop := ∃ k : UInt64, lb.hostMap[k]? = some p

/-- `p` points to an overloaded host. -/
def Overloaded (lb : LoadBalance) (p : HostPtr) : Prop := (lb.heap p).overload = true

/-- The address of the host that `p` points to. -/
def endpoint (lb : LoadBalance) (p : HostPtr) : Proto.HostInfo := ⟨(lb.heap p).ip, (lb.heap p).port⟩

/-- Map, lists and flags of a load balancer agree. -/
structure WellFormed (lb : LoadBalance) : Prop where
  /-- The lists split the filed hosts by the overload flag. -/
  split : Split lb.Known lb.Overloaded lb.idleList lb.overloadList
  /-- A host is filed under its own key. -/
  key : ∀ k p, lb.hostMap[k]? = some p → (lb.heap p).key = k
  /-- Filed pointers have been handed out. -/
  fresh : ∀ p, lb.Known p → p < lb.next
  /-- An overloaded host knows since when. -/
  overloadTs : ∀ p, lb.Known p → lb.Overloaded p → ∃ t, (lb.heap p).overloadTs = some t

namespace WellFormed

variable {cfg : LoadBalanceConfig} {lb : LoadBalance}

theorem key_unique (h : lb.WellFormed) {k k' : UInt64} {p : HostPtr}
    (hk : lb.hostMap[k]? = some p) (hk' : lb.hostMap[k']? = some p) : k = k' := by
  rw [← h.key k p hk, h.key k' p hk']

/-- Filed hosts have different addresses. -/
theorem endpoint_inj (h : lb.WellFormed) {p q : HostPtr} (hp : lb.Known p)
    (hq : lb.Known q) (he : lb.endpoint p = lb.endpoint q) : p = q := by
  obtain ⟨k, hk⟩ := hp
  obtain ⟨k', hk'⟩ := hq
  simp only [endpoint, Proto.HostInfo.mk.injEq] at he
  have hkey : k = k' := by
    rw [← h.key k p hk, ← h.key k' q hk', HostInfo.key, HostInfo.key, he.1, he.2]
  subst hkey
  exact Option.some.inj (hk.symm.trans hk')

/-- The constructor's state is well formed. -/
theorem new (modid cmdid : UInt32) : (LoadBalance.new modid cmdid).WellFormed where
  split := (Split.empty (fun _ ↦ False)).congr (fun p ↦ by simp [Known, LoadBalance.new])
    fun _ h ↦ h.elim
  key k p h := by simp [LoadBalance.new] at h
  fresh p := by simp [Known, LoadBalance.new]
  overloadTs p := by simp [Known, LoadBalance.new]

theorem of_eq {lb' : LoadBalance} (h : lb.WellFormed) (hm : lb'.hostMap = lb.hostMap)
    (hi : lb'.idleList = lb.idleList) (ho : lb'.overloadList = lb.overloadList)
    (hh : lb'.heap = lb.heap) (hn : lb'.next = lb.next) : lb'.WellFormed := by
  cases lb'
  cases lb
  simp only at hm hi ho hh hn
  subst hm hi ho hh hn
  exact ⟨h.split, h.key, h.fresh, h.overloadTs⟩

/-! ## Changing one record -/

/-- A change of a record that leaves its key, flag and overload time keeps the agreement. -/
theorem modifyHost (h : lb.WellFormed) (p : HostPtr) (f : HostInfo → HostInfo)
    (hk : (f (lb.heap p)).key = (lb.heap p).key)
    (ho : (f (lb.heap p)).overload = (lb.heap p).overload)
    (ht : (f (lb.heap p)).overloadTs = (lb.heap p).overloadTs) :
    (lb.modifyHost p f).WellFormed where
  split := by
    refine h.split.congr (fun _ ↦ Iff.rfl) fun q _ ↦ ?_
    by_cases e : q = p
    · subst e
      simp [Overloaded, LoadBalance.modifyHost, ho]
    · simp [Overloaded, LoadBalance.modifyHost, e]
  key k q hq := by
    by_cases e : q = p
    · subst e
      simpa [LoadBalance.modifyHost, hk] using h.key k q hq
    · simpa [LoadBalance.modifyHost, e] using h.key k q hq
  fresh := h.fresh
  overloadTs q hq hf := by
    by_cases e : q = p
    · subst e
      simp only [Overloaded, LoadBalance.modifyHost, Function.update_self, ho, ht] at hf ⊢
      exact h.overloadTs q hq hf
    · simp only [Overloaded, LoadBalance.modifyHost, ne_eq, e,
        not_false_eq_true, Function.update_of_ne] at hf ⊢
      exact h.overloadTs q hq hf

/-- A filed idle host becomes overloaded and changes its list. -/
theorem toOverload (h : lb.WellFormed) {p : HostPtr} (hp : lb.Known p)
    (hf : ¬lb.Overloaded p) (now : Int) :
    (lb.toOverload cfg now p).WellFormed where
  split := by
    refine h.split.move_right _ hp hf ?_ fun q hq ↦ ?_
    · simp [Overloaded, LoadBalance.toOverload, LoadBalance.modifyHost]
    · simp [Overloaded, LoadBalance.toOverload, LoadBalance.modifyHost, hq]
  key k q hq := by
    by_cases e : q = p
    · subst e
      simpa [LoadBalance.toOverload, LoadBalance.modifyHost] using h.key k q hq
    · simpa [LoadBalance.toOverload, LoadBalance.modifyHost, e] using h.key k q hq
  fresh := h.fresh
  overloadTs q hq hf := by
    by_cases e : q = p
    · subst e
      exact ⟨now, by simp [LoadBalance.toOverload, LoadBalance.modifyHost]⟩
    · simp only [Overloaded, LoadBalance.toOverload, LoadBalance.modifyHost, ne_eq, e,
        not_false_eq_true, Function.update_of_ne] at hf ⊢
      exact h.overloadTs q hq hf

/-- A filed overloaded host becomes idle and changes its list. -/
theorem toIdle (h : lb.WellFormed) {p : HostPtr} (hp : lb.Known p)
    (hf : lb.Overloaded p) (now : Int) :
    (lb.toIdle cfg now p).WellFormed where
  split := by
    refine h.split.move_left _ hp hf ?_ fun q hq ↦ ?_
    · simp [Overloaded, LoadBalance.toIdle, LoadBalance.modifyHost]
    · simp [Overloaded, LoadBalance.toIdle, LoadBalance.modifyHost, hq]
  key k q hq := by
    by_cases e : q = p
    · subst e
      simpa [LoadBalance.toIdle, LoadBalance.modifyHost] using h.key k q hq
    · simpa [LoadBalance.toIdle, LoadBalance.modifyHost, e] using h.key k q hq
  fresh := h.fresh
  overloadTs q hq hf := by
    by_cases e : q = p
    · subst e
      simp [Overloaded, LoadBalance.toIdle, LoadBalance.modifyHost] at hf
    · simp only [Overloaded, LoadBalance.toIdle, LoadBalance.modifyHost, ne_eq, e,
        not_false_eq_true, Function.update_of_ne] at hf ⊢
      exact h.overloadTs q hq hf

/-! ## `update` -/

theorem insertHost (h : lb.WellFormed) (now : Int) (host : Proto.HostInfo) :
    (lb.insertHost cfg now host).WellFormed := by
  unfold LoadBalance.insertHost
  by_cases hk : hostKey host.ip host.port ∈ lb.hostMap
  · simpa only [hk, if_true] using h
  simp only [hk, if_false]
  -- the new record is stored at a pointer nothing refers to yet
  have hne : ∀ p, lb.Known p → p ≠ lb.next := fun p hp ↦ (h.fresh p hp).ne
  have hknown : ∀ k p, (lb.hostMap.insert (hostKey host.ip host.port) lb.next)[k]? = some p ↔
      (k = hostKey host.ip host.port ∧ p = lb.next) ∨ lb.hostMap[k]? = some p := by
    intro k p
    rw [ExtTreeMap.getElem?_insert]
    by_cases e : hostKey host.ip host.port = k
    · subst e
      have : lb.hostMap[hostKey host.ip host.port]? = none := by simpa using hk
      simp [this, eq_comm]
    · simp [e, Ne.symm e]
  refine ⟨?_, ?_, ?_, ?_⟩
  · have hsplit : Split lb.Known
        (fun p ↦ (Function.update lb.heap lb.next
          (HostInfo.new host.ip host.port cfg.initSuccCnt now) p).overload = true)
        lb.idleList lb.overloadList := by
      refine h.split.congr (fun _ ↦ Iff.rfl) fun p hp ↦ ?_
      simp [Overloaded, hne p hp]
    refine (hsplit.push (a := lb.next) (fun hp ↦ hne _ hp rfl) (by simp)).congr
      (fun p ↦ ?_) fun _ _ ↦ Iff.rfl
    simp only [Known, hknown]
    constructor
    · rintro ⟨k, ⟨-, rfl⟩ | hp⟩
      · exact .inr rfl
      · exact .inl ⟨k, hp⟩
    · rintro (⟨k, hp⟩ | rfl)
      · exact ⟨k, .inr hp⟩
      · exact ⟨_, .inl ⟨rfl, rfl⟩⟩
  · intro k p hp
    rcases (hknown k p).mp hp with ⟨rfl, rfl⟩ | hp
    · simp
    · simpa [hne p ⟨k, hp⟩] using h.key k p hp
  · rintro p ⟨k, hp⟩
    rcases (hknown k p).mp hp with ⟨-, rfl⟩ | hp
    · exact Nat.lt_succ_self _
    · exact Nat.lt_succ_of_lt (h.fresh p ⟨k, hp⟩)
  · rintro p ⟨k, hp⟩ hf
    rcases (hknown k p).mp hp with ⟨-, rfl⟩ | hp
    · simp [Overloaded] at hf
    · simp only [Overloaded, ne_eq, hne p ⟨k, hp⟩, not_false_eq_true,
        Function.update_of_ne] at hf ⊢
      exact h.overloadTs p ⟨k, hp⟩ hf

theorem insertHosts (clock : Clock) (hosts : List Proto.HostInfo) :
    ∀ (i : Nat) (lb : LoadBalance) (remoteHosts : ExtTreeSet UInt64), lb.WellFormed →
      (LoadBalance.insertHosts cfg clock i lb remoteHosts hosts).1.WellFormed := by
  induction hosts with
  | nil => exact fun _ _ _ h ↦ h
  | cons host hosts ih => exact fun i lb _ h ↦ ih _ _ _ (h.insertHost _ host)

/-- Deleting a filed host succeeds. -/
theorem deleteHost (h : lb.WellFormed) {k : UInt64} (hk : k ∈ lb.hostMap) :
    ∃ lb', lb.deleteHost k = .ok lb' ∧ lb'.WellFormed ∧ lb'.hostMap = lb.hostMap.erase k := by
  obtain ⟨p, hp⟩ : ∃ p, lb.hostMap[k]? = some p :=
    Option.isSome_iff_exists.mp (by simpa using hk)
  have herase : ∀ k' q, (lb.hostMap.erase k)[k']? = some q ↔
      k' ≠ k ∧ lb.hostMap[k']? = some q := by
    intro k' q
    rw [ExtTreeMap.getElem?_erase]
    by_cases e : k = k'
    · simp [e]
    · simp [e, Ne.symm e]
  have hknown : ∀ q, (∃ k' : UInt64, (lb.hostMap.erase k)[k']? = some q) ↔ lb.Known q ∧ q ≠ p := by
    intro q
    constructor
    · rintro ⟨k', hq⟩
      obtain ⟨hne, hq⟩ := (herase k' q).mp hq
      refine ⟨⟨k', hq⟩, ?_⟩
      rintro rfl
      exact hne (h.key_unique hq hp)
    · rintro ⟨⟨k', hq⟩, hne⟩
      refine ⟨k', (herase k' q).mpr ⟨?_, hq⟩⟩
      rintro rfl
      exact hne (Option.some.inj (hq.symm.trans hp))
  -- what the map and the records contribute does not depend on the list
  have hrest : ∀ idle busy, Split (fun q ↦ lb.Known q ∧ q ≠ p) lb.Overloaded idle busy →
      { lb with idleList := idle, overloadList := busy,
                hostMap := lb.hostMap.erase k : LoadBalance }.WellFormed := by
    intro idle busy hs
    refine ⟨hs.congr hknown fun _ _ ↦ Iff.rfl, ?_, fun q hq ↦ ?_, fun q hq ↦ ?_⟩
    · intro k' q hq
      exact h.key k' q ((herase k' q).mp hq).2
    · exact h.fresh q ((hknown q).mp hq).1
    · exact h.overloadTs q ((hknown q).mp hq).1
  unfold LoadBalance.deleteHost
  rw [hp]
  by_cases hf : (lb.heap p).overload = true
  · simp only [hf, if_true]
    exact ⟨_, rfl, hrest _ _ (h.split.remove_right hf), rfl⟩
  · simp only [hf]
    exact ⟨_, rfl, hrest _ _ (h.split.remove_left hf), rfl⟩

/-- Deleting filed hosts one after the other succeeds. -/
theorem deleteHosts (ks : List UInt64) : ∀ lb : LoadBalance, lb.WellFormed → ks.Nodup →
    (∀ k ∈ ks, k ∈ lb.hostMap) →
      ∃ lb', ks.foldlM LoadBalance.deleteHost lb = .ok lb' ∧ lb'.WellFormed := by
  induction ks with
  | nil => exact fun lb h _ _ ↦ ⟨lb, rfl, h⟩
  | cons k ks ih =>
      intro lb h hnd hmem
      obtain ⟨lb₁, h₁, hwf, hmap⟩ := h.deleteHost (hmem k (List.mem_cons_self ..))
      obtain ⟨lb₂, h₂, hwf₂⟩ := ih lb₁ hwf (List.nodup_cons.mp hnd).2 (by
        intro k' hk'
        rw [hmap, ExtTreeMap.mem_erase]
        refine ⟨?_, hmem k' (List.mem_cons_of_mem _ hk')⟩
        intro heq
        rw [Std.compare_eq_iff_eq] at heq
        exact (List.nodup_cons.mp hnd).1 (heq ▸ hk'))
      exact ⟨lb₂, by simpa [List.foldlM_cons, h₁] using h₂, hwf₂⟩

/-- `update` succeeds and keeps the containers in agreement. -/
theorem update (h : lb.WellFormed) (clock : Clock) (res : Proto.GetRouteResponse) :
    ∃ lb', lb.update cfg clock res = .ok lb' ∧ lb'.WellFormed := by
  unfold LoadBalance.update
  generalize hx : LoadBalance.insertHosts cfg clock 0
    { lb with lastUpdateTs := some (clock 0) } ∅ res.host = x
  have hwf : x.1.WellFormed := by
    rw [← hx]
    exact insertHosts clock res.host 0 _ ∅ (h.of_eq rfl rfl rfl rfl rfl)
  obtain ⟨lb', h₁, hwf'⟩ := deleteHosts (x.1.needDelete x.2) x.1 hwf
    (List.Nodup.filter _ ExtTreeMap.nodup_keys) (by
      intro k hk
      exact ExtTreeMap.mem_keys.mp (List.mem_filter.mp hk).1)
  refine ⟨{ lb' with status := some .new }, ?_, hwf'.of_eq rfl rfl rfl rfl rfl⟩
  simp only [h₁, Outcome.ok_bind]
  rfl

end WellFormed

variable {cfg : LoadBalanceConfig} {lb : LoadBalance}

/-! ## What the operations can change -/

/-- Deleting a host changes the lists and takes its key off the map. -/
theorem deleteHost_eq {lb' : LoadBalance} {k : UInt64} (h : lb.deleteHost k = .ok lb') :
    ∃ idle busy, lb' =
      { lb with idleList := idle, overloadList := busy, hostMap := lb.hostMap.erase k } := by
  unfold deleteHost at h
  split at h
  · cases h
  · split at h
    · exact ⟨_, _, (Except.ok.inj h).symm⟩
    · exact ⟨_, _, (Except.ok.inj h).symm⟩

/-- Deleting several hosts changes the lists and takes their keys off the map. -/
theorem deleteHosts_eq (ks : List UInt64) : ∀ lb lb' : LoadBalance,
    ks.foldlM deleteHost lb = .ok lb' →
      ∃ idle busy, lb' = { lb with
        idleList := idle, overloadList := busy,
        hostMap := ks.foldl (fun m k ↦ m.erase k) lb.hostMap } := by
  induction ks with
  | nil =>
      intro lb lb' h
      exact ⟨_, _, (Except.ok.inj h).symm⟩
  | cons k ks ih =>
      intro lb lb' h
      rw [List.foldlM_cons, Outcome.bind_eq_ok] at h
      obtain ⟨lb₁, h₁, h₂⟩ := h
      obtain ⟨_, _, rfl⟩ := deleteHost_eq h₁
      obtain ⟨_, _, rfl⟩ := ih _ lb' h₂
      exact ⟨_, _, rfl⟩

theorem getElem?_foldl_erase {k : UInt64} (ks : List UInt64) :
    ∀ m : ExtTreeMap UInt64 HostPtr,
      (ks.foldl (fun m k ↦ m.erase k) m)[k]? = if k ∈ ks then none else m[k]? := by
  induction ks with
  | nil => exact fun _ ↦ rfl
  | cons k' ks ih =>
      intro m
      rw [List.foldl_cons, ih, ExtTreeMap.getElem?_erase]
      by_cases e : k' = k
      · simp [e]
      · simp [e, Ne.symm e]

/-- An update files the hosts of the response and deletes some. -/
theorem update_eq {lb' : LoadBalance} {clock : Clock} {res : Proto.GetRouteResponse}
    (h : lb.update cfg clock res = .ok lb') :
    ∃ idle busy, ∃ ks : List UInt64, lb' =
      { (insertHosts cfg clock 0 { lb with lastUpdateTs := some (clock 0) } ∅ res.host).1 with
        status := some .new, idleList := idle, overloadList := busy,
        hostMap := ks.foldl (fun m k ↦ m.erase k)
          (insertHosts cfg clock 0 { lb with lastUpdateTs := some (clock 0) } ∅
            res.host).1.hostMap } := by
  simp only [update, Outcome.bind_eq_ok] at h
  obtain ⟨lb₁, h₁, hret⟩ := h
  obtain rfl := Except.ok.inj hret
  obtain ⟨_, _, rfl⟩ := deleteHosts_eq _ _ _ h₁
  exact ⟨_, _, _, rfl⟩

theorem exists_choiceOneHost {lb' : LoadBalance} {res : Proto.GetHostResponse}
    (h : lb.step cfg (.choiceOneHost res) = .ok lb') :
    ∃ ret res', lb.choiceOneHost cfg res = .ok (ret, res', lb') := by
  obtain ⟨⟨ret, res', lb₁⟩, h₁, hret⟩ := Outcome.bind_eq_ok.mp h
  obtain rfl := Except.ok.inj hret
  exact ⟨ret, res', h₁⟩

/-- What `choice_one_host` can do. -/
inductive Chosen (cfg : LoadBalanceConfig) (lb : LoadBalance) (res : Proto.GetHostResponse) :
    Proto.LastRetCode → Proto.GetHostResponse → LoadBalance → Prop where
  | noexist : Chosen cfg lb res .retNoexist res lb
  | overload (hlt : lb.accessCnt < cfg.probeNum) :
      Chosen cfg lb res .retOverload res { lb with accessCnt := lb.accessCnt + 1 }
  /-- A host of the overload list, when it is its turn. -/
  | probe {p : HostPtr} {busy : List HostPtr} (hp : p ∈ lb.overloadList) :
      Chosen cfg lb res .retSucc { res with host := some (lb.endpoint p) }
        { lb with accessCnt := 0, overloadList := busy }
  /-- A host of the idle list, which is counted when there are overloaded hosts. -/
  | idle {p : HostPtr} {idle : List HostPtr} {cnt : Int} (hp : p ∈ lb.idleList)
      (hcnt : cnt = lb.accessCnt ∨ lb.accessCnt < cfg.probeNum ∧ cnt = lb.accessCnt + 1) :
      Chosen cfg lb res .retSucc { res with host := some (lb.endpoint p) }
        { lb with accessCnt := cnt, idleList := idle }

/-- The head of a list goes into the response. -/
theorem getHostFromList_eq_ok {heap : HostPtr → HostInfo} {res : Proto.GetHostResponse}
    {hosts : List HostPtr} {x} (h : getHostFromList heap res hosts = .ok x) :
    ∃ p ∈ hosts, x.1 = { res with host := some ⟨(heap p).ip, (heap p).port⟩ } := by
  cases hosts with
  | nil => cases h
  | cons p hosts =>
      obtain rfl := Except.ok.inj h
      exact ⟨p, List.mem_cons_self, rfl⟩

/-- `choice_one_host` serves the idle list, probes the overload list, or finds no host. -/
theorem chosen_of_choiceOneHost {lb' : LoadBalance} {ret : Proto.LastRetCode}
    {res res' : Proto.GetHostResponse} (h : lb.choiceOneHost cfg res = .ok (ret, res', lb')) :
    lb.Chosen cfg res ret res' lb' := by
  have hidle : ∀ {cnt : Int}, { lb with accessCnt := cnt }.chooseIdle res = .ok (ret, res', lb') →
      (cnt = lb.accessCnt ∨ lb.accessCnt < cfg.probeNum ∧ cnt = lb.accessCnt + 1) →
        lb.Chosen cfg res ret res' lb' := by
    intro cnt hx hcnt
    obtain ⟨a, ha, hret⟩ := Outcome.bind_eq_ok.mp hx
    obtain ⟨p, hp, hhost⟩ := getHostFromList_eq_ok ha
    cases hret
    rw [hhost]
    exact .idle hp hcnt
  have hover : { lb with accessCnt := 0 }.chooseOverload res = .ok (ret, res', lb') →
      lb.Chosen cfg res ret res' lb' := by
    intro hx
    obtain ⟨a, ha, hret⟩ := Outcome.bind_eq_ok.mp hx
    obtain ⟨p, hp, hhost⟩ := getHostFromList_eq_ok ha
    cases hret
    rw [hhost]
    exact .probe hp
  unfold choiceOneHost at h
  repeat' split at h
  · cases h
    exact .noexist
  · exact hover h
  · rename_i hc
    cases h
    exact .overload (not_le.mp hc)
  · exact hidle h (.inl rfl)
  · exact hover h
  · rename_i hc
    exact hidle h (.inr ⟨not_le.mp hc, rfl⟩)

/-- Choosing a host changes only the order of the lists and the probe counter. -/
theorem choiceOneHost_eq {lb' : LoadBalance} {ret : Proto.LastRetCode}
    {res res' : Proto.GetHostResponse} (h : lb.choiceOneHost cfg res = .ok (ret, res', lb')) :
    ∃ idle busy cnt, lb' =
      { lb with idleList := idle, overloadList := busy, accessCnt := cnt } := by
  cases chosen_of_choiceOneHost h with
  | noexist => exact ⟨_, _, _, rfl⟩
  | overload => exact ⟨_, _, _, rfl⟩
  | probe => exact ⟨_, _, _, rfl⟩
  | idle => exact ⟨_, _, _, rfl⟩

/-! ## `report` -/

/-- What the threshold switches can do: move an idle host that failed and reached a
failure limit, move an overloaded one that succeeded and reached a success limit, or
nothing. -/
theorem switchState_cases (cfg : LoadBalanceConfig) (lb : LoadBalance) (now : Int)
    (isSucc : Bool) (p : HostPtr) :
    ((lb.heap p).overload = false ∧ isSucc = false ∧ (lb.heap p).errLimitReached cfg = true ∧
      lb.switchState cfg now isSucc p = lb.toOverload cfg now p) ∨
    ((lb.heap p).overload = true ∧ isSucc = true ∧ (lb.heap p).succLimitReached cfg = true ∧
      lb.switchState cfg now isSucc p = lb.toIdle cfg now p) ∨
    (((lb.heap p).overload = false → isSucc = false →
        (lb.heap p).errLimitReached cfg = false) ∧
      ((lb.heap p).overload = true → isSucc = true →
        (lb.heap p).succLimitReached cfg = false) ∧
      lb.switchState cfg now isSucc p = lb) := by
  unfold switchState
  cases hf : (lb.heap p).overload <;> cases isSucc
  · cases hl : (lb.heap p).errLimitReached cfg <;> simp [hf, hl]
  · simp [hf]
  · simp [hf]
  · cases hl : (lb.heap p).succLimitReached cfg <;> simp [hf, hl]

/-- What the timeouts can do: move a host back whose stay in the overload list is
over, start a new window of an idle host whose window is over, or nothing. -/
theorem expire_cases {currTime now : Int} {p : HostPtr} {lb' : LoadBalance}
    (h : lb.expire cfg currTime now p = .ok lb') :
    (∃ t, (lb.heap p).overload = true ∧ (lb.heap p).overloadTs = some t ∧
      cfg.overloadTimeout ≤ currTime - t ∧ lb' = lb.toIdle cfg now p) ∨
    (∃ t, (lb.heap p).overload = true ∧ (lb.heap p).overloadTs = some t ∧
      ¬cfg.overloadTimeout ≤ currTime - t ∧ lb' = lb) ∨
    ((lb.heap p).overload = false ∧ cfg.idleTimeout ≤ currTime - (lb.heap p).idleTs ∧
      lb' = lb.modifyHost p (·.setIdle cfg now)) ∨
    ((lb.heap p).overload = false ∧ ¬cfg.idleTimeout ≤ currTime - (lb.heap p).idleTs ∧
      lb' = lb) := by
  unfold expire at h
  cases hf : (lb.heap p).overload with
  | true =>
      cases ht : (lb.heap p).overloadTs with
      | none => simp [hf, ht] at h
      | some t =>
          by_cases ho : cfg.overloadTimeout ≤ currTime - t <;>
            simp only [hf, ht, ho, if_true, if_false, Except.ok.injEq] at h
          · exact .inl ⟨t, rfl, rfl, ho, h.symm⟩
          · exact .inr (.inl ⟨t, rfl, rfl, ho, h.symm⟩)
  | false =>
      by_cases hi : cfg.idleTimeout ≤ currTime - (lb.heap p).idleTs <;>
        simp only [hf, hi, if_true, if_false, Bool.false_eq_true, Except.ok.injEq] at h
      · exact .inr (.inr (.inl ⟨rfl, hi, h.symm⟩))
      · exact .inr (.inr (.inr ⟨rfl, hi, h.symm⟩))

/-- The timeouts of a filed host succeed. -/
theorem WellFormed.exists_expire (h : lb.WellFormed) {p : HostPtr} (hp : lb.Known p)
    (currTime now : Int) : ∃ lb', lb.expire cfg currTime now p = .ok lb' := by
  unfold expire
  simp only
  split
  · rename_i hf
    obtain ⟨t, ht⟩ := h.overloadTs p hp hf
    simp only [ht]
    split <;> exact ⟨_, rfl⟩
  · split <;> exact ⟨_, rfl⟩

/-- The threshold switches keep the containers in agreement. -/
theorem WellFormed.switchState (h : lb.WellFormed) {p : HostPtr} (hp : lb.Known p)
    (now : Int) (isSucc : Bool) : (lb.switchState cfg now isSucc p).WellFormed := by
  rcases switchState_cases cfg lb now isSucc p with
    ⟨hf, -, -, e⟩ | ⟨hf, -, -, e⟩ | ⟨-, -, e⟩ <;> rw [e]
  · exact h.toOverload hp (by simp [Overloaded, hf]) now
  · exact h.toIdle hp hf now
  · exact h

/-- The timeouts keep the containers in agreement. -/
theorem WellFormed.expire (h : lb.WellFormed) {p : HostPtr} (hp : lb.Known p)
    {currTime now : Int} {lb' : LoadBalance}
    (he : lb.expire cfg currTime now p = .ok lb') : lb'.WellFormed := by
  rcases expire_cases he with
    ⟨t, hf, -, -, rfl⟩ | ⟨t, -, -, -, rfl⟩ | ⟨hf, -, rfl⟩ | ⟨-, -, rfl⟩
  · exact h.toIdle hp hf now
  · exact h
  · exact h.modifyHost p _ rfl (by simp [hf]) rfl
  · exact h

/-- A report changes the lists and the records. -/
theorem report_eq {clock : Clock} {ip port : UInt32} {isSucc : Bool} {lb' : LoadBalance}
    (h : lb.report cfg clock ip port isSucc = .ok lb') :
    ∃ idle busy heap, lb' =
      { lb with idleList := idle, overloadList := busy, heap := heap } := by
  unfold report at h
  cases hp : lb.hostMap[hostKey ip port]? with
  | none =>
      rw [hp] at h
      exact ⟨_, _, _, (Except.ok.inj h).symm⟩
  | some p =>
      simp only [hp] at h
      have hswitch : ∃ idle busy heap, lb.reportSwitch cfg clock ip port isSucc =
          { lb with idleList := idle, overloadList := busy, heap := heap } := by
        simp only [reportSwitch, hp]
        rcases switchState_cases cfg (lb.modifyHost p (·.record isSucc)) (clock 1) isSucc p with
          ⟨-, -, -, e⟩ | ⟨-, -, -, e⟩ | ⟨-, -, e⟩ <;> rw [e] <;> exact ⟨_, _, _, rfl⟩
      obtain ⟨_, _, _, he⟩ := hswitch
      rw [he] at h
      rcases expire_cases h with
        ⟨t, -, -, -, rfl⟩ | ⟨t, -, -, -, rfl⟩ | ⟨-, -, rfl⟩ | ⟨-, -, rfl⟩ <;>
      exact ⟨_, _, _, rfl⟩

@[simp] theorem hostMap_switchState (now : Int) (isSucc : Bool) (p : HostPtr) :
    (lb.switchState cfg now isSucc p).hostMap = lb.hostMap := by
  rcases switchState_cases cfg lb now isSucc p with
    ⟨-, -, -, e⟩ | ⟨-, -, -, e⟩ | ⟨-, -, e⟩ <;> rw [e] <;> rfl

/-- The threshold switches of a report do not touch the map. -/
@[simp] theorem hostMap_reportSwitch (clock : Clock) (ip port : UInt32) (isSucc : Bool) :
    (lb.reportSwitch cfg clock ip port isSucc).hostMap = lb.hostMap := by
  unfold reportSwitch
  split
  · rfl
  · exact hostMap_switchState ..

namespace WellFormed

/-- Counting and the threshold switches keep the containers in agreement. -/
theorem reportSwitch (h : lb.WellFormed) (cfg : LoadBalanceConfig) (clock : Clock)
    (ip port : UInt32) (isSucc : Bool) : (lb.reportSwitch cfg clock ip port isSucc).WellFormed := by
  unfold LoadBalance.reportSwitch
  cases hp : lb.hostMap[hostKey ip port]? with
  | none => exact h
  | some p =>
      exact (h.modifyHost p _ (by simp) (by simp) (by simp)).switchState ⟨_, hp⟩ _ isSucc

/-- `report` succeeds and keeps the containers in agreement. -/
theorem report (h : lb.WellFormed) (clock : Clock) (ip port : UInt32) (isSucc : Bool) :
    ∃ lb', lb.report cfg clock ip port isSucc = .ok lb' ∧ lb'.WellFormed := by
  unfold LoadBalance.report
  cases hp : lb.hostMap[hostKey ip port]? with
  | none => exact ⟨lb, rfl, h⟩
  | some p =>
      have hknown : (lb.reportSwitch cfg clock ip port isSucc).Known p :=
        ⟨hostKey ip port, by rw [hostMap_reportSwitch, hp]⟩
      have hwf := h.reportSwitch cfg clock ip port isSucc
      obtain ⟨lb', he⟩ := hwf.exists_expire hknown (clock 0) (clock 2)
      exact ⟨lb', he, hwf.expire hknown he⟩

/-! ## `choice_one_host` -/

/-- Choosing from a non-empty idle list returns its head and rotates it. -/
theorem chooseIdle (h : lb.WellFormed) (hne : lb.idleList ≠ []) (res : Proto.GetHostResponse) :
    ∃ p lb', lb.chooseIdle res =
        .ok (.retSucc, { res with host := some ⟨(lb.heap p).ip, (lb.heap p).port⟩ }, lb') ∧
      lb.Known p ∧ lb'.WellFormed := by
  obtain ⟨p, hosts, hl⟩ := List.exists_cons_of_ne_nil hne
  refine ⟨p, { lb with idleList := hosts ++ [p] }, ?_, ?_, ?_⟩
  · simp only [LoadBalance.chooseIdle, hl, getHostFromList, Outcome.ok_bind]
    rfl
  · exact ((h.split.mem_left p).mp (hl ▸ List.mem_cons_self ..)).1
  · refine ⟨h.split.perm ?_ (List.Perm.refl _), h.key, h.fresh, h.overloadTs⟩
    rw [hl]
    exact List.perm_append_singleton p hosts

/-- Choosing from a non-empty overload list returns its head and rotates it. -/
theorem chooseOverload (h : lb.WellFormed) (hne : lb.overloadList ≠ [])
    (res : Proto.GetHostResponse) :
    ∃ p lb', lb.chooseOverload res =
        .ok (.retSucc, { res with host := some ⟨(lb.heap p).ip, (lb.heap p).port⟩ }, lb') ∧
      lb.Known p ∧ lb'.WellFormed := by
  obtain ⟨p, hosts, hl⟩ := List.exists_cons_of_ne_nil hne
  refine ⟨p, { lb with overloadList := hosts ++ [p] }, ?_, ?_, ?_⟩
  · simp only [LoadBalance.chooseOverload, hl, getHostFromList, Outcome.ok_bind]
    rfl
  · exact ((h.split.mem_right p).mp (hl ▸ List.mem_cons_self ..)).1
  · refine ⟨h.split.perm (List.Perm.refl _) ?_, h.key, h.fresh, h.overloadTs⟩
    rw [hl]
    exact List.perm_append_singleton p hosts

/-- When there are hosts and the idle list is empty, the overload list is not. -/
theorem overloadList_ne_nil (h : lb.WellFormed) (hm : lb.hostMap.isEmpty = false)
    (hi : lb.idleList = []) : lb.overloadList ≠ [] := by
  intro ho
  rw [← ExtTreeMap.isEmpty_keys, List.isEmpty_eq_false_iff_exists_mem] at hm
  obtain ⟨k, hk⟩ := hm
  obtain ⟨p, hp⟩ : ∃ p, lb.hostMap[k]? = some p :=
    Option.isSome_iff_exists.mp (by simpa using ExtTreeMap.mem_keys.mp hk)
  have hmem := h.split.mem_append.mpr ⟨k, hp⟩
  simp [hi, ho] at hmem

/-- `choice_one_host` succeeds, keeps the containers in agreement, and with
`RET_SUCC` answers with a filed host. -/
theorem choiceOneHost (h : lb.WellFormed) (cfg : LoadBalanceConfig)
    (res : Proto.GetHostResponse) :
    ∃ ret res' lb', lb.choiceOneHost cfg res = .ok (ret, res', lb') ∧ lb'.WellFormed ∧
      (ret = .retSucc → ∃ p, lb.Known p ∧
        res'.host = some ⟨(lb.heap p).ip, (lb.heap p).port⟩) := by
  have hcnt : ∀ c : Int, { lb with accessCnt := c : LoadBalance }.WellFormed :=
    fun _ ↦ h.of_eq rfl rfl rfl rfl rfl
  unfold LoadBalance.choiceOneHost
  cases hm : lb.hostMap.isEmpty with
  | true => exact ⟨_, res, lb, rfl, h, fun hr ↦ by simp at hr⟩
  | false =>
      by_cases hi : lb.idleList = []
      · simp only [hi, List.isEmpty_nil, if_true, Bool.false_eq_true, if_false]
        by_cases hc : cfg.probeNum ≤ lb.accessCnt
        · obtain ⟨p, lb', h₁, hp, hwf⟩ := (hcnt 0).chooseOverload (h.overloadList_ne_nil hm hi) res
          simp only [hc, if_true]
          exact ⟨_, _, lb', by simpa [hi] using h₁, hwf, fun _ ↦ ⟨p, hp, rfl⟩⟩
        · simp only [hc, if_false]
          exact ⟨_, res, _, rfl, h.of_eq rfl hi.symm rfl rfl rfl, fun hr ↦ by simp at hr⟩
      · have hi' : lb.idleList.isEmpty = false := by simpa using hi
        simp only [hi', Bool.false_eq_true, if_false]
        by_cases ho : lb.overloadList = []
        · obtain ⟨p, lb', h₁, hp, hwf⟩ := h.chooseIdle hi res
          simp only [ho, List.isEmpty_nil, if_true]
          exact ⟨_, _, lb', h₁, hwf, fun _ ↦ ⟨p, hp, rfl⟩⟩
        · have ho' : lb.overloadList.isEmpty = false := by simpa using ho
          simp only [ho', Bool.false_eq_true, if_false]
          by_cases hc : cfg.probeNum ≤ lb.accessCnt
          · obtain ⟨p, lb', h₁, hp, hwf⟩ := (hcnt 0).chooseOverload ho res
            simp only [hc, if_true]
            exact ⟨_, _, lb', h₁, hwf, fun _ ↦ ⟨p, hp, rfl⟩⟩
          · obtain ⟨p, lb', h₁, hp, hwf⟩ := (hcnt (lb.accessCnt + 1)).chooseIdle hi res
            simp only [hc, if_false]
            exact ⟨_, _, lb', h₁, hwf, fun _ ↦ ⟨p, hp, rfl⟩⟩

/-! ## Runs -/

/-- Every operation succeeds and keeps the containers in agreement. -/
theorem step (h : lb.WellFormed) (cfg : LoadBalanceConfig) (op : Op) :
    ∃ lb', lb.step cfg op = .ok lb' ∧ lb'.WellFormed := by
  cases op with
  | update clock res => exact h.update clock res
  | report clock ip port isSucc => exact h.report clock ip port isSucc
  | choiceOneHost res =>
      obtain ⟨ret, res', lb', h₁, hwf, -⟩ := h.choiceOneHost cfg res
      exact ⟨lb', by simp [LoadBalance.step, h₁], hwf⟩
  | getAllHost => exact ⟨lb, rfl, h⟩
  | commit now => exact ⟨lb, rfl, h⟩

end WellFormed

/-- Every run from a well-formed state succeeds and ends in one. -/
theorem WellFormed.run (cfg : LoadBalanceConfig) (ops : List Op) :
    ∀ lb : LoadBalance, lb.WellFormed →
    ∃ lb', ops.foldlM (LoadBalance.step cfg) lb = .ok lb' ∧ lb'.WellFormed := by
  induction ops with
  | nil => exact fun lb h ↦ ⟨lb, rfl, h⟩
  | cons op ops ih =>
      intro lb h
      obtain ⟨lb₁, h₁, hwf₁⟩ := h.step cfg op
      obtain ⟨lb₂, h₂, hwf₂⟩ := ih lb₁ hwf₁
      exact ⟨lb₂, by simpa [List.foldlM_cons, h₁] using h₂, hwf₂⟩

theorem WellFormed.of_run (h : lb.WellFormed) {ops : List Op} {lb' : LoadBalance}
    (hrun : ops.foldlM (LoadBalance.step cfg) lb = .ok lb') : lb'.WellFormed :=
  Outcome.of_exists_ok (WellFormed.run cfg ops lb h) hrun

/-! ## The status report -/

/-- In a well-formed state a report lists every host with its own flag. -/
theorem WellFormed.commit_result (h : lb.WellFormed) {now : Int} {req : Proto.ReportStatusReq}
    (hc : lb.commit now = some req) :
    req.result = (lb.idleList ++ lb.overloadList).map
      fun p ↦ callResult (lb.heap p).overload (lb.heap p) := by
  unfold commit at hc
  split at hc
  · cases hc
  · obtain rfl := Option.some.inj hc
    rw [List.map_append]
    refine congrArg₂ (· ++ ·) ?_ ?_
    · refine List.map_congr_left fun p hp ↦ ?_
      have hf := ((h.split.mem_left p).mp hp).2
      simp only [Overloaded, Bool.not_eq_true] at hf
      rw [hf]
    · refine List.map_congr_left fun p hp ↦ ?_
      have hf : (lb.heap p).overload = true := ((h.split.mem_right p).mp hp).2
      rw [hf]

/-- In a well-formed state a report has exactly one entry for each filed host. -/
theorem WellFormed.commit_entry (h : lb.WellFormed) {now : Int} {req : Proto.ReportStatusReq}
    (hc : lb.commit now = some req) {k : UInt64} {p : HostPtr}
    (hp : lb.hostMap[k]? = some p) :
    req.result.filter (fun e ↦ hostKey e.ip e.port = k) =
      [callResult (lb.heap p).overload (lb.heap p)] := by
  rw [h.commit_result hc, List.filter_map]
  have hfilter : (lb.idleList ++ lb.overloadList).filter
      ((fun e : Proto.HostCallResult ↦ decide (hostKey e.ip e.port = k)) ∘
        fun q ↦ callResult (lb.heap q).overload (lb.heap q)) =
      (lb.idleList ++ lb.overloadList).filter (· = p) := by
    refine List.filter_congr fun q hq ↦ ?_
    obtain ⟨k', hk'⟩ := h.split.mem_append.mp hq
    have hkey : hostKey (lb.heap q).ip (lb.heap q).port = k' := h.key k' q hk'
    simp only [Function.comp_apply, callResult, hkey, decide_eq_decide]
    constructor
    · rintro rfl
      exact Option.some.inj (hk'.symm.trans hp)
    · rintro rfl
      exact h.key_unique hk' hp
  rw [hfilter, List.filter_eq, h.split.count_append ⟨k, hp⟩]
  rfl

/-- Every entry of a report belongs to a filed host. -/
theorem WellFormed.commit_known (h : lb.WellFormed) {now : Int} {req : Proto.ReportStatusReq}
    (hc : lb.commit now = some req) {e : Proto.HostCallResult} (he : e ∈ req.result) :
    hostKey e.ip e.port ∈ lb.hostMap := by
  rw [h.commit_result hc] at he
  obtain ⟨p, hp, rfl⟩ := List.mem_map.mp he
  obtain ⟨k, hk⟩ := h.split.mem_append.mp hp
  have hkey : hostKey (lb.heap p).ip (lb.heap p).port = k := h.key k p hk
  simp only [callResult, hkey]
  exact ExtTreeMap.mem_iff_isSome_getElem?.mpr (by rw [hk]; rfl)

/-- **The containers of a load balancer agree.**  Every run from the constructor's
state succeeds; in the state it ends in, every filed host occurs exactly once in
exactly one list, the overload list if and only if its flag is set, under its own
key; the lists hold filed hosts only; a chosen host is a filed one; and a status
report has exactly one entry for each filed host, with that host's flag. -/
theorem containers_agree (cfg : LoadBalanceConfig) (modid cmdid : UInt32) (ops : List Op) :
    ∃ lb, ops.foldlM (step cfg) (new modid cmdid) = .ok lb ∧
      (∀ k p, lb.hostMap[k]? = some p →
        (lb.idleList ++ lb.overloadList).count p = 1 ∧
        (p ∈ lb.overloadList ↔ (lb.heap p).overload = true) ∧
        k = hostKey (lb.heap p).ip (lb.heap p).port) ∧
      (∀ p ∈ lb.idleList ++ lb.overloadList, ∃ k : UInt64, lb.hostMap[k]? = some p) ∧
      (∀ res, ∃ ret res' lb', lb.choiceOneHost cfg res = .ok (ret, res', lb') ∧
        (ret = .retSucc → ∃ (k : UInt64) (p : HostPtr), lb.hostMap[k]? = some p ∧
          res'.host = some ⟨(lb.heap p).ip, (lb.heap p).port⟩)) ∧
      (∀ now req, lb.commit now = some req →
        (∀ k p, lb.hostMap[k]? = some p →
          req.result.filter (fun e ↦ hostKey e.ip e.port = k) =
            [callResult (lb.heap p).overload (lb.heap p)]) ∧
        ∀ e ∈ req.result, hostKey e.ip e.port ∈ lb.hostMap) := by
  obtain ⟨lb, hrun, h⟩ := WellFormed.run cfg ops _ (.new modid cmdid)
  refine ⟨lb, hrun, fun k p hp ↦ ⟨h.split.count_append ⟨k, hp⟩, ?_, (h.key k p hp).symm⟩,
    fun p hp ↦ h.split.mem_append.mp hp, fun res ↦ ?_,
    fun now req hc ↦ ⟨fun k p hp ↦ h.commit_entry hc hp, fun e he ↦ h.commit_known hc he⟩⟩
  · rw [h.split.mem_right]
    exact and_iff_right ⟨k, hp⟩
  · obtain ⟨ret, res', lb', h₁, -, hs⟩ := h.choiceOneHost cfg res
    refine ⟨ret, res', lb', h₁, fun hr ↦ ?_⟩
    obtain ⟨p, ⟨k, hk⟩, hres⟩ := hs hr
    exact ⟨k, p, hk, hres⟩

end Ylars.Agent.LoadBalance
