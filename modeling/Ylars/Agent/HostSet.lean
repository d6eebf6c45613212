import Ylars.Agent.Eviction

/-!
# What an update makes of the hosts

`update` runs over the hosts three times: it files those that are new, looks for those
that have vanished, and deletes these.  The first pass appends the new hosts to the idle
list (`insertHosts_spec`), the third one leaves what has none of the deleted keys
(`deleteHosts_spec`).  So an update makes the host set that of the response and touches
nothing that stays.
-/

namespace Ylars.Agent.LoadBalance

open Std (ExtTreeMap ExtTreeSet)
open Ylars.Lib

/-- The hosts of a response that are not filed, each of them once, in the order they first
occur in. -/
def newHosts (lb : LoadBalance) (hosts : List Proto.HostInfo) : List Proto.HostInfo :=
  (hosts.filter fun host ↦ hostKey host.ip host.port ∉ lb.hostMap).eraseDups

variable {cfg : LoadBalanceConfig} {lb lb' : LoadBalance}

/-- A key belongs to one address. -/
theorem hostKey_inj {host host' : Proto.HostInfo} :
    hostKey host.ip host.port = hostKey host'.ip host'.port ↔ host = host' := by
  constructor
  · intro h
    obtain ⟨hip, hport⟩ := pack_inj h
    cases host
    cases host'
    simp only at hip hport
    rw [hip, hport]
  · rintro rfl
    rfl

theorem exists_hostKey_eq {hosts : List Proto.HostInfo} {host : Proto.HostInfo} :
    (∃ host' ∈ hosts, hostKey host'.ip host'.port = hostKey host.ip host.port) ↔
      host ∈ hosts := by
  simp only [hostKey_inj, exists_eq_right]

theorem WellFormed.hostKey_endpoint (h : lb.WellFormed) {k : UInt64} {p : HostPtr}
    (hp : lb.hostMap[k]? = some p) : hostKey (lb.endpoint p).ip (lb.endpoint p).port = k :=
  h.key k p hp

/-! ## The first pass -/

theorem insertHost_of_mem {now : Int} {host : Proto.HostInfo}
    (h : hostKey host.ip host.port ∈ lb.hostMap) : lb.insertHost cfg now host = lb := by
  simp only [insertHost, h, if_true]

theorem newHosts_cons_of_mem {host : Proto.HostInfo} {hosts : List Proto.HostInfo}
    (h : hostKey host.ip host.port ∈ lb.hostMap) :
    lb.newHosts (host :: hosts) = lb.newHosts hosts := by
  rw [newHosts, List.filter_cons_of_neg (by simpa using h), newHosts]

/-- Once a new host is filed, the new hosts are the others. -/
theorem newHosts_cons_of_notMem {now : Int} {host : Proto.HostInfo} {hosts : List Proto.HostInfo}
    (h : hostKey host.ip host.port ∉ lb.hostMap) :
    lb.newHosts (host :: hosts) = host :: (lb.insertHost cfg now host).newHosts hosts := by
  have hmem : ∀ host' : Proto.HostInfo,
      hostKey host'.ip host'.port ∈ (lb.insertHost cfg now host).hostMap ↔
        host' = host ∨ hostKey host'.ip host'.port ∈ lb.hostMap := by
    intro host'
    simp only [insertHost, h, if_false]
    rw [ExtTreeMap.mem_insert, Std.compare_eq_iff_eq, hostKey_inj, eq_comm]
  rw [newHosts, List.filter_cons_of_pos (by simpa using h), List.eraseDups_cons,
    List.filter_filter, newHosts]
  refine congrArg (host :: ·.eraseDups) (List.filter_congr fun host' _ ↦ ?_)
  by_cases e : host' = host <;> simp [hmem, e]

/-- What the first pass of an update leaves, when it files the hosts of a response. -/
structure Filed (lb lb₁ : LoadBalance) (hosts : List Proto.HostInfo) : Prop where
  mem : ∀ k, k ∈ lb₁.hostMap ↔
    k ∈ lb.hostMap ∨ ∃ host ∈ hosts, hostKey host.ip host.port = k
  heap : ∀ p < lb.next, lb₁.heap p = lb.heap p
  next : lb₁.next = lb.next + (lb.newHosts hosts).length
  /-- The new hosts are at the end of the idle list. -/
  idleList : lb₁.idleList = lb.idleList ++ List.range' lb.next (lb.newHosts hosts).length
  endpoints : (List.range' lb.next (lb.newHosts hosts).length).map lb₁.endpoint =
    lb.newHosts hosts
  overloadList : lb₁.overloadList = lb.overloadList

namespace Filed

variable {lb₁ : LoadBalance} {now : Int} {host : Proto.HostInfo} {hosts : List Proto.HostInfo}

/-- A host that is filed is passed over. -/
theorem skip (hk : hostKey host.ip host.port ∈ lb.hostMap) (h : Filed lb lb₁ hosts) :
    Filed lb lb₁ (host :: hosts) := by
  refine ⟨fun k ↦ ?_, h.heap, ?_, ?_, ?_, h.overloadList⟩
  · rw [h.mem]
    simp only [List.mem_cons, exists_eq_or_imp]
    constructor
    · exact Or.imp_right .inr
    · rintro (hk' | rfl | hk')
      · exact .inl hk'
      · exact .inl hk
      · exact .inr hk'
  · rw [h.next, newHosts_cons_of_mem hk]
  · rw [h.idleList, newHosts_cons_of_mem hk]
  · rw [newHosts_cons_of_mem hk, h.endpoints]

/-- A new host is filed at the end of the idle list. -/
theorem file (hk : hostKey host.ip host.port ∉ lb.hostMap)
    (h : Filed (lb.insertHost cfg now host) lb₁ hosts) : Filed lb lb₁ (host :: hosts) := by
  have hnew : lb.newHosts (host :: hosts) = host :: (lb.insertHost cfg now host).newHosts hosts :=
    newHosts_cons_of_notMem hk
  obtain ⟨hmem, hheap, hnext, hidle, hend, hover⟩ := h
  generalize (lb.insertHost cfg now host).newHosts hosts = rest at hnew hnext hidle hend
  simp only [insertHost, hk, if_false] at hmem hheap hnext hidle hend hover
  refine ⟨fun k ↦ ?_, fun p hp ↦ ?_, ?_, ?_, ?_, hover⟩
  · rw [hmem, ExtTreeMap.mem_insert, Std.compare_eq_iff_eq]
    simp only [List.mem_cons, exists_eq_or_imp]
    rw [or_assoc, or_left_comm]
  · rw [hheap p (Nat.lt_succ_of_lt hp), Function.update_of_ne hp.ne]
  · rw [hnext, hnew, List.length_cons, Nat.add_right_comm, Nat.add_assoc]
  · rw [hidle, hnew, List.length_cons, List.range'_succ, List.append_assoc, List.singleton_append]
  · rw [hnew, List.length_cons, List.range'_succ, List.map_cons, hend]
    refine congrArg (· :: rest) ?_
    rw [endpoint, hheap _ (Nat.lt_succ_self _), Function.update_self]
    rfl

end Filed

/-- The first pass of `update` files the new hosts of the response at the end of the idle list. -/
theorem insertHosts_spec (cfg : LoadBalanceConfig) (clock : Clock) (hosts : List Proto.HostInfo) :
    ∀ (i : Nat) (lb : LoadBalance) (remoteHosts : ExtTreeSet UInt64),
      Filed lb (insertHosts cfg clock i lb remoteHosts hosts).1 hosts ∧
        ∀ k, k ∈ (insertHosts cfg clock i lb remoteHosts hosts).2 ↔
          k ∈ remoteHosts ∨ ∃ host ∈ hosts, hostKey host.ip host.port = k := by
  induction hosts with
  | nil =>
      intro i lb remoteHosts
      refine ⟨⟨?_, ?_, ?_, ?_, ?_, ?_⟩, ?_⟩ <;> simp [insertHosts, newHosts]
  | cons host hosts ih =>
      intro i lb remoteHosts
      obtain ⟨h, hr⟩ := ih (i + 1) (lb.insertHost cfg (clock (i + 1)) host)
        (remoteHosts.insert (hostKey host.ip host.port))
      rw [insertHosts]
      constructor
      · by_cases hk : hostKey host.ip host.port ∈ lb.hostMap
        · rw [insertHost_of_mem hk] at h ⊢
          exact h.skip hk
        · exact h.file hk
      · intro k
        rw [hr, ExtTreeSet.mem_insert, Std.compare_eq_iff_eq]
        simp only [List.mem_cons, exists_eq_or_imp]
        rw [or_assoc, or_left_comm]

/-- Hosts that are all filed are passed over. -/
theorem insertHosts_of_mem (clock : Clock) (hosts : List Proto.HostInfo) :
    ∀ (i : Nat) (remoteHosts : ExtTreeSet UInt64),
      (∀ host ∈ hosts, hostKey host.ip host.port ∈ lb.hostMap) →
        (insertHosts cfg clock i lb remoteHosts hosts).1 = lb := by
  induction hosts with
  | nil => exact fun _ _ _ ↦ rfl
  | cons host hosts ih =>
      intro i remoteHosts h
      rw [insertHosts, insertHost_of_mem (h host (List.mem_cons_self ..))]
      exact ih _ _ fun host' h' ↦ h host' (List.mem_cons_of_mem _ h')

/-! ## The third pass -/

theorem WellFormed.filter_ne_eq (h : lb.WellFormed) {k : UInt64} {p : HostPtr}
    (hp : lb.hostMap[k]? = some p) {l : List HostPtr} (hl : ∀ q ∈ l, lb.Known q) :
    l.filter (· ≠ p) = l.filter fun q ↦ (lb.heap q).key ≠ k := by
  refine List.filter_congr fun q hq ↦ ?_
  obtain ⟨k', hk'⟩ := hl q hq
  simp only [decide_eq_decide]
  refine not_congr ⟨?_, ?_⟩
  · rintro rfl
    exact h.key k q hp
  · rintro hkey
    rw [h.key k' q hk'] at hkey
    subst hkey
    exact Option.some.inj (hk'.symm.trans hp)

/-- Deleting a host takes it off the map and off both lists. -/
theorem WellFormed.deleteHost_spec (h : lb.WellFormed) {k : UInt64} (hk : k ∈ lb.hostMap) :
    lb.deleteHost k = .ok
      { lb with
        idleList := lb.idleList.filter fun q ↦ (lb.heap q).key ≠ k
        overloadList := lb.overloadList.filter fun q ↦ (lb.heap q).key ≠ k
        hostMap := lb.hostMap.erase k } := by
  obtain ⟨p, hp⟩ : ∃ p, lb.hostMap[k]? = some p :=
    Option.isSome_iff_exists.mp (by simpa using hk)
  have hidle := h.filter_ne_eq hp (l := lb.idleList) fun q hq ↦ ((h.split.mem_left q).mp hq).1
  have hover := h.filter_ne_eq hp (l := lb.overloadList)
    fun q hq ↦ ((h.split.mem_right q).mp hq).1
  rw [← hidle, ← hover, LoadBalance.deleteHost, hp]
  -- the list that `remove` is not called on does not have the host
  by_cases hf : (lb.heap p).overload = true
  · have hleft : lb.idleList.filter (· ≠ p) = lb.idleList :=
      h.split.symm.filter_right_of_not_flag (not_not.mpr hf)
    simp only [hf, if_true, hleft]
  · have hright : lb.overloadList.filter (· ≠ p) = lb.overloadList :=
      h.split.filter_right_of_not_flag hf
    simp only [hf, hright]
    rfl

/-- The third pass leaves what has none of the deleted keys. -/
theorem WellFormed.deleteHosts_spec (ks : List UInt64) : ∀ lb : LoadBalance, lb.WellFormed →
    ks.Nodup → (∀ k ∈ ks, k ∈ lb.hostMap) → ks.foldlM LoadBalance.deleteHost lb = .ok
      { lb with
        idleList := lb.idleList.filter fun q ↦ (lb.heap q).key ∉ ks
        overloadList := lb.overloadList.filter fun q ↦ (lb.heap q).key ∉ ks
        hostMap := ks.foldl (fun m k ↦ m.erase k) lb.hostMap } := by
  induction ks with
  | nil =>
      intro lb _ _ _
      simp only [List.not_mem_nil, not_false_eq_true, decide_true, List.filter_true]
      rfl
  | cons k ks ih =>
      intro lb h hnd hmem
      obtain ⟨lb₁, h₁, hwf, hmap⟩ := h.deleteHost (hmem k (List.mem_cons_self ..))
      have heq := h.deleteHost_spec (hmem k (List.mem_cons_self ..))
      obtain rfl := Except.ok.inj (heq.symm.trans h₁)
      rw [List.foldlM_cons, h₁, Outcome.ok_bind, ih _ hwf (List.nodup_cons.mp hnd).2]
      · simp only [List.filter_filter, List.mem_cons, not_or, List.foldl_cons, Bool.decide_and,
          Bool.and_comm]
      · intro k' hk'
        rw [hmap, ExtTreeMap.mem_erase, ne_eq, Std.compare_eq_iff_eq]
        refine ⟨?_, hmem k' (List.mem_cons_of_mem _ hk')⟩
        rintro rfl
        exact (List.nodup_cons.mp hnd).1 hk'

/-! ## The whole update -/

theorem mem_needDelete {remoteHosts : ExtTreeSet UInt64} {k : UInt64} :
    k ∈ lb.needDelete remoteHosts ↔ k ∈ lb.hostMap ∧ k ∉ remoteHosts := by
  rw [needDelete, List.mem_filter, ExtTreeMap.mem_keys, decide_eq_true_eq]

/-- `lb'` has the hosts `hosts`, and of `lb` all that is among them. -/
structure SetTo (lb : LoadBalance) (hosts : List Proto.HostInfo) (lb' : LoadBalance) : Prop where
  /-- The filed keys are those of the hosts. -/
  mem : ∀ k, k ∈ lb'.hostMap ↔ ∃ host ∈ hosts, hostKey host.ip host.port = k
  /-- A host that stays keeps its record. -/
  kept : ∀ k p, lb.hostMap[k]? = some p → k ∈ lb'.hostMap →
    lb'.hostMap[k]? = some p ∧ lb'.heap p = lb.heap p
  /-- The overload list has the hosts that stay, in their order. -/
  overloadList : lb'.overloadList = lb.overloadList.filter fun p ↦ lb.endpoint p ∈ hosts
  /-- The idle list has the hosts that stay, in their order, and then, each of them once, the new
  hosts in the order they first occur in. -/
  idleList : ∃ fresh, lb'.idleList =
      (lb.idleList.filter fun p ↦ lb.endpoint p ∈ hosts) ++ fresh ∧
    fresh.map lb'.endpoint = lb.newHosts hosts ∧ ∀ p ∈ fresh, lb'.Known p ∧ ¬lb.Known p
  /-- A host that does not stay is on no list. -/
  removed : ∀ k p, lb.hostMap[k]? = some p → k ∉ lb'.hostMap →
    p ∉ lb'.idleList ∧ p ∉ lb'.overloadList

theorem update_of_same {clock : Clock} {res : Proto.GetRouteResponse}
    (hmem : ∀ k, k ∈ lb.hostMap ↔ ∃ host ∈ res.host, hostKey host.ip host.port = k)
    (hstatus : lb.status = some .new) :
    lb.update cfg clock res = .ok { lb with lastUpdateTs := some (clock 0) } := by
  have hlb : (insertHosts cfg clock 0 { lb with lastUpdateTs := some (clock 0) } ∅ res.host).1 =
      { lb with lastUpdateTs := some (clock 0) } :=
    insertHosts_of_mem clock res.host 0 ∅ fun host h ↦ (hmem _).mpr ⟨host, h, rfl⟩
  obtain ⟨-, hr⟩ := insertHosts_spec cfg clock res.host 0
    { lb with lastUpdateTs := some (clock 0) } ∅
  unfold update
  generalize insertHosts cfg clock 0 { lb with lastUpdateTs := some (clock 0) } ∅ res.host = x
    at hlb hr
  obtain ⟨lb₁, remoteHosts⟩ := x
  simp only at hlb hr
  subst hlb
  have hnone : needDelete { lb with lastUpdateTs := some (clock 0) } remoteHosts = [] := by
    refine List.eq_nil_iff_forall_not_mem.mpr fun k hk ↦ ?_
    obtain ⟨hk, hno⟩ := mem_needDelete.mp hk
    exact hno ((hr k).mpr (.inr ((hmem k).mp hk)))
  simp only [hnone, List.foldlM_nil]
  rw [← hstatus]
  rfl

/-- Without the deleted keys the hosts of the response are where they were. -/
theorem getElem?_needDelete {remoteHosts : ExtTreeSet UInt64} {k : UInt64} {p : HostPtr} :
    ((lb.needDelete remoteHosts).foldl (fun m k ↦ m.erase k) lb.hostMap)[k]? = some p ↔
      k ∈ remoteHosts ∧ lb.hostMap[k]? = some p := by
  rw [getElem?_foldl_erase, Option.ite_none_left_eq_some, mem_needDelete, not_and, not_not]
  refine and_congr_left fun hk ↦ ?_
  have hmem : k ∈ lb.hostMap := ExtTreeMap.mem_iff_isSome_getElem?.mpr (by rw [hk]; rfl)
  exact forall_prop_of_true hmem

theorem mem_hostMap_needDelete {remoteHosts : ExtTreeSet UInt64} {k : UInt64} :
    k ∈ (lb.needDelete remoteHosts).foldl (fun m k ↦ m.erase k) lb.hostMap ↔
      k ∈ remoteHosts ∧ k ∈ lb.hostMap := by
  simp only [ExtTreeMap.mem_iff_isSome_getElem?, Option.isSome_iff_exists, getElem?_needDelete,
    exists_and_left]

/-- A filed host is kept when the response has it. -/
theorem WellFormed.key_notMem_needDelete (h : lb.WellFormed) {q : HostPtr} (hq : lb.Known q)
    {hosts : List Proto.HostInfo} {remoteHosts : ExtTreeSet UInt64}
    (hr : ∀ k, k ∈ remoteHosts ↔ ∃ host ∈ hosts, hostKey host.ip host.port = k) :
    (lb.heap q).key ∉ lb.needDelete remoteHosts ↔ lb.endpoint q ∈ hosts := by
  obtain ⟨k, hk⟩ := hq
  have hmem : k ∈ lb.hostMap := ExtTreeMap.mem_iff_isSome_getElem?.mpr (by rw [hk]; rfl)
  obtain rfl := h.hostKey_endpoint hk
  rw [h.key _ q hk, mem_needDelete, not_and, not_not, forall_prop_of_true hmem, hr,
    exists_hostKey_eq]

/-- The three passes of `update` leave the hosts of the response. -/
theorem Filed.setTo {lb₁ : LoadBalance} {hosts : List Proto.HostInfo}
    {remoteHosts : ExtTreeSet UInt64} (hfiled : Filed lb lb₁ hosts) (h : lb.WellFormed)
    (h₁ : lb₁.WellFormed)
    (hframe : ∀ (k : UInt64) p, lb.hostMap[k]? = some p →
      lb₁.hostMap[k]? = some p ∧ lb₁.heap p = lb.heap p)
    (hr : ∀ k, k ∈ remoteHosts ↔ ∃ host ∈ hosts, hostKey host.ip host.port = k)
    (hlb' : (lb₁.needDelete remoteHosts).foldlM deleteHost lb₁ = .ok lb') :
    SetTo lb hosts { lb' with status := some .new } := by
  have hdelete := h₁.deleteHosts_spec (lb₁.needDelete remoteHosts) lb₁
    (List.Nodup.filter _ ExtTreeMap.nodup_keys) fun k hk ↦ (mem_needDelete.mp hk).1
  obtain rfl := Except.ok.inj (hdelete.symm.trans hlb')
  have hmem : ∀ k, k ∈ (lb₁.needDelete remoteHosts).foldl (fun m k ↦ m.erase k) lb₁.hostMap ↔
      k ∈ remoteHosts := fun k ↦
    mem_hostMap_needDelete.trans
      (and_iff_left_of_imp fun hk ↦ (hfiled.mem k).mpr (.inr ((hr k).mp hk)))
  -- what stays is what the response has
  have hkept : ∀ q, lb.Known q →
      ((lb₁.heap q).key ∉ lb₁.needDelete remoteHosts ↔ lb.endpoint q ∈ hosts) := by
    rintro q ⟨k, hk⟩
    have hsame : lb₁.endpoint q = lb.endpoint q := by
      rw [endpoint, (hframe k q hk).2]
      rfl
    rw [h₁.key_notMem_needDelete ⟨k, (hframe k q hk).1⟩ hr, hsame]
  -- the new hosts are all kept
  have hfresh : ∀ q ∈ List.range' lb.next (lb.newHosts hosts).length,
      lb₁.endpoint q ∈ hosts := by
    intro q hq
    have hmem : lb₁.endpoint q ∈ lb.newHosts hosts := hfiled.endpoints ▸ List.mem_map_of_mem hq
    exact (List.mem_filter.mp (List.mem_eraseDups.mp hmem)).1
  have hover : lb₁.overloadList.filter
      (fun q ↦ (lb₁.heap q).key ∉ lb₁.needDelete remoteHosts) =
        lb.overloadList.filter fun p ↦ lb.endpoint p ∈ hosts := by
    rw [hfiled.overloadList]
    exact List.filter_congr fun q hq ↦
      decide_eq_decide.mpr (hkept q ((h.split.mem_right q).mp hq).1)
  have hidle : lb₁.idleList.filter
      (fun q ↦ (lb₁.heap q).key ∉ lb₁.needDelete remoteHosts) =
        (lb.idleList.filter fun p ↦ lb.endpoint p ∈ hosts) ++
          List.range' lb.next (lb.newHosts hosts).length := by
    rw [hfiled.idleList, List.filter_append]
    refine congrArg₂ (· ++ ·) ?_ (List.filter_eq_self.mpr fun q hq ↦ decide_eq_true ?_)
    · exact List.filter_congr fun q hq ↦
        decide_eq_decide.mpr (hkept q ((h.split.mem_left q).mp hq).1)
    · refine (h₁.key_notMem_needDelete ((h₁.split.mem_left q).mp ?_).1 hr).mpr (hfresh q hq)
      exact hfiled.idleList ▸ List.mem_append_right _ hq
  constructor
  case mem =>
    intro k
    exact (hmem k).trans (hr k)
  case kept =>
    intro k p hk hk'
    obtain ⟨hp, hh⟩ := hframe k p hk
    exact ⟨getElem?_needDelete.mpr ⟨(hmem k).mp hk', hp⟩, hh⟩
  case overloadList => exact hover
  case idleList =>
    refine ⟨_, hidle, hfiled.endpoints, fun p hp ↦ ⟨?_, ?_⟩⟩
    · obtain ⟨k, hk⟩ := ((h₁.split.mem_left p).mp
        (hfiled.idleList ▸ List.mem_append_right _ hp)).1
      refine ⟨k, getElem?_needDelete.mpr ⟨?_, hk⟩⟩
      exact (hr k).mpr ⟨_, hfresh p hp, h₁.hostKey_endpoint hk⟩
    · exact fun hp' ↦ (h.fresh p hp').not_ge (List.mem_range'_1.mp hp).1
  case removed =>
    intro k p hk hk'
    have hout : lb.endpoint p ∉ hosts := fun hin ↦
      hk' ((hmem k).mpr ((hr k).mpr ⟨_, hin, h.hostKey_endpoint hk⟩))
    constructor
    · intro hp
      rcases List.mem_append.mp (hidle ▸ hp) with hp | hp
      · exact hout (of_decide_eq_true (List.mem_filter.mp hp).2)
      · exact (h.fresh p ⟨k, hk⟩).not_ge (List.mem_range'_1.mp hp).1
    · intro hp
      have hp' : p ∈ lb.overloadList.filter fun p ↦ lb.endpoint p ∈ hosts := by
        rw [← hover]
        exact hp
      exact hout (of_decide_eq_true (List.mem_filter.mp hp').2)

/-- An update makes the hosts those of the response. -/
theorem WellFormed.update_setTo (h : lb.WellFormed) (clock : Clock)
    (res : Proto.GetRouteResponse) : ∃ lb', lb.update cfg clock res = .ok lb' ∧
      SetTo lb res.host lb' ∧ lb'.status = some .new := by
  have hwf : (LoadBalance.insertHosts cfg clock 0
      { lb with lastUpdateTs := some (clock 0) } ∅ res.host).1.WellFormed :=
    insertHosts clock res.host 0 _ ∅ (h.of_eq rfl rfl rfl rfl rfl)
  have hframe := fun (k : UInt64) (p : HostPtr) (hk : lb.hostMap[k]? = some p) ↦
    insertHosts_frame cfg clock res.host 0 { lb with lastUpdateTs := some (clock 0) } ∅
      (h.of_eq rfl rfl rfl rfl rfl) hk
  obtain ⟨hfiled, hr⟩ := insertHosts_spec cfg clock res.host 0
    { lb with lastUpdateTs := some (clock 0) } ∅
  obtain ⟨lb', hu, -⟩ : ∃ lb', lb.update cfg clock res = .ok lb' ∧ lb'.WellFormed :=
    h.update clock res
  refine ⟨lb', hu, ?_⟩
  unfold LoadBalance.update at hu
  generalize LoadBalance.insertHosts cfg clock 0 { lb with lastUpdateTs := some (clock 0) } ∅
    res.host = x at hwf hframe hfiled hr hu
  obtain ⟨lb₁, remoteHosts⟩ := x
  simp only [Outcome.bind_eq_ok] at hu
  obtain ⟨lb₂, h₂, hret⟩ := hu
  obtain rfl := Except.ok.inj hret
  have hfiled' : Filed lb lb₁ res.host := ⟨hfiled.mem, hfiled.heap, hfiled.next, hfiled.idleList,
    hfiled.endpoints, hfiled.overloadList⟩
  refine ⟨hfiled'.setTo h hwf (fun k p hk ↦ ⟨(hframe k p hk).1, (hframe k p hk).2.1⟩)
    (fun k ↦ ?_) h₂, rfl⟩
  rw [hr, or_iff_right ExtTreeSet.not_mem_empty]

/-- **An update makes the host set that of the response.**  What stays keeps its record and
its place, new hosts go to the end of the idle list, and the same response once more only
sets the time of the update. -/
theorem update_sets_hosts (h : Reachable cfg lb) (clock : Clock) (res : Proto.GetRouteResponse) :
    ∃ lb', lb.update cfg clock res = .ok lb' ∧ SetTo lb res.host lb' ∧
      ∀ clock', lb'.update cfg clock' res = .ok { lb' with lastUpdateTs := some (clock' 0) } := by
  obtain ⟨lb', hu, hset, hstatus⟩ : ∃ lb', lb.update cfg clock res = .ok lb' ∧
    SetTo lb res.host lb' ∧ lb'.status = some .new := h.wellFormed.update_setTo clock res
  exact ⟨lb', hu, hset, fun clock' ↦ update_of_same hset.mem hstatus⟩

/-- A module with three hosts of which the first is overloaded, and a response that drops
it, keeps one host, and lists a new one twice. -/
theorem update_sets_hosts_mixed :
    ∃ lb lb', (.update (fun _ ↦ 0) ⟨1, 1, [⟨1, 80⟩, ⟨2, 80⟩, ⟨3, 80⟩]⟩ ::
        failures 10 1).foldlM (step .default) (new 1 1) = .ok lb ∧
      lb.update .default (fun _ ↦ 20) ⟨1, 1, [⟨4, 80⟩, ⟨3, 80⟩, ⟨4, 80⟩]⟩ = .ok lb' ∧
      SetTo lb [⟨4, 80⟩, ⟨3, 80⟩, ⟨4, 80⟩] lb' := by
  obtain ⟨lb, hrun, -⟩ := WellFormed.run .default
    (.update (fun _ ↦ 0) ⟨1, 1, [⟨1, 80⟩, ⟨2, 80⟩, ⟨3, 80⟩]⟩ :: failures 10 1) _ (.new 1 1)
  obtain ⟨lb', hu, hset, -⟩ := update_sets_hosts ⟨1, 1, _, hrun⟩ (fun _ ↦ 20)
    ⟨1, 1, [⟨4, 80⟩, ⟨3, 80⟩, ⟨4, 80⟩]⟩
  exact ⟨lb, lb', hrun, hu, hset⟩

end Ylars.Agent.LoadBalance
