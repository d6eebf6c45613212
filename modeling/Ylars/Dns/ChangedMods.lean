import Ylars.Dns.RouteDb

/-!
# The modules that have changed

`load_change_mod` runs over the spare table, which is then the old one, and looks every
host up in the served one through `operator[]`, which would file a module that is missing.
It never does, because a missing module is recognised before (`loadChangeModLoop_eq`).

The comparison sees only what the new table has lost.  With the rows of `RouteChange`, which
announce what modules have gained, it finds every module whose hosts differ.
-/

namespace Ylars.Dns

open Std (ExtTreeMap ExtTreeSet)
open Ylars.Lib

namespace Router

/-! ## The loop -/

/-- The inner loop: whether a host of the old set is not in the new one. -/
def lostHost (key : UInt64) : List UInt64 → RouterMap → Bool × RouterMap
  | [], data => (false, data)
  | ipPort :: hosts, data =>
      let (s, data) := MultiMap.subscript key data
      let (_, data) := MultiMap.subscript key data
      if ipPort ∈ s then lostHost key hosts data else (true, data)

/-- The outer loop, over the entries of the old table. -/
def compareTables : List (UInt64 × ExtTreeSet UInt64) → RouterMap → List UInt64 →
    List UInt64 × RouterMap
  | [], data, mods => (mods, data)
  | (key, hosts) :: temp, data, mods =>
      match data[key]? with
      | none => compareTables temp data (mods ++ [key])
      | some _ =>
          let (lost, data) := lostHost key hosts.toList data
          compareTables temp data (if lost then mods ++ [key] else mods)

/-- `load_change_mod` as the source runs it, with what it leaves of the tables. -/
def loadChangeModLoop (res : QueryResult (UInt32 × UInt32)) (mods : List UInt64) (r : Router) :
    List UInt64 × Router :=
  match res with
  | .error => (mods, r)
  | .noResult => (mods, r)
  | .rows _ rs =>
      let mods := rs.foldl (fun mods p ↦ mods ++ [bookKey p.1 p.2]) mods
      let (mods, data) := compareTables r.temp.toList r.data mods
      (mods, { r with data := data })

/-- `select modid, cmdid from RouteChange where version <= _version`. -/
def selectChanges (changes : List RouteChangeRow) (r : Router) : List (UInt32 × UInt32) :=
  (changes.filter fun c ↦ (c.version.toNat : Int) ≤ r.version).map fun c ↦ (c.modid, c.cmdid)

variable {r : Router} {data : RouterMap} {key : UInt64}

theorem lostHost_eq {s : ExtTreeSet UInt64} (hs : data[key]? = some s) (hosts : List UInt64) :
    lostHost key hosts data = (hosts.any (· ∉ s), data) := by
  induction hosts with
  | nil => rfl
  | cons ipPort hosts ih =>
      simp only [lostHost, MultiMap.subscript_of_getElem? hs, ih, List.any_cons]
      by_cases hm : ipPort ∈ s <;> simp [hm]

/-- The outer loop changes no table. -/
theorem compareTables_eq (temp : List (UInt64 × ExtTreeSet UInt64)) :
    ∀ mods : List UInt64, compareTables temp data mods =
      (mods ++ (temp.filter fun p ↦ hasLost data p.1 p.2).map Prod.fst, data) := by
  induction temp with
  | nil => exact fun mods ↦ by simp [compareTables]
  | cons p temp ih =>
      intro mods
      obtain ⟨key, hosts⟩ := p
      cases hs : data[key]? with
      | none =>
          have he : hasLost data key hosts = true := by rw [hasLost, hs]
          simp [compareTables, hs, ih, he]
      | some s =>
          have he : hasLost data key hosts = hosts.toList.any (· ∉ s) := by rw [hasLost, hs]
          simp only [compareTables, hs, lostHost_eq hs, ← he, ih]
          cases hl : hasLost data key hosts <;> simp [hl]

/-- **The loop computes what `loadChangeMod` says and leaves both tables.** -/
theorem loadChangeModLoop_eq (res : QueryResult (UInt32 × UInt32)) (mods : List UInt64)
    (r : Router) : r.loadChangeModLoop res mods = (r.loadChangeMod res mods, r) := by
  cases res with
  | error => rfl
  | noResult => rfl
  | rows cols rs =>
      have hpush : ∀ mods : List UInt64, rs.foldl (fun mods p ↦ mods ++ [bookKey p.1 p.2]) mods =
          mods ++ rs.map fun p ↦ bookKey p.1 p.2 := by
        induction rs with
        | nil => simp
        | cons p rs ih => simp [ih]
      rw [loadChangeModLoop, hpush, compareTables_eq]
      rfl

theorem mem_selectChanges {changes : List RouteChangeRow} {k : UInt64} :
    k ∈ (r.selectChanges changes).map (fun p ↦ bookKey p.1 p.2) ↔
      ∃ c ∈ changes, (c.version.toNat : Int) ≤ r.version ∧ bookKey c.modid c.cmdid = k := by
  simp [selectChanges, and_assoc]

theorem answers_changes_eq (w : World) (elapsed : Int) :
    (w.answers .ok elapsed).changes = .rows 2 (w.publisher.router.selectChanges w.changes) := rfl

/-! ## What the comparison finds -/

theorem proper_builtMap (res : QueryResult RouteDataRow) : (builtMap res).Proper :=
  (built_builtMap res).1

theorem mem_deletedMods_of_proper (h : r.temp.Proper) {k : UInt64} : k ∈ r.deletedMods ↔
    k ∈ r.temp ∧ ¬∀ v ∈ MultiMap.lookup r.temp k, v ∈ MultiMap.lookup r.data k := by
  rw [mem_deletedMods]
  push Not
  refine and_congr_right fun hk ↦ or_iff_right_of_imp fun hno ↦ ?_
  -- a module that is gone had a host
  obtain ⟨v, hv⟩ := h.exists_mem hk
  exact ⟨v, hv, fun hv' ↦ hno (MultiMap.mem_of_mem_lookup hv')⟩

/-- **What has changed is found.**  For every old table that `build_map` leaves, every new
table and every content of `RouteChange`, the loop appends exactly the keys of the rows up
to the version and the keys whose old hosts are not all among the new ones, and leaves both
tables.  So, when these rows have every module that has gained a host, it appends every
module whose hosts differ. -/
theorem loadChangeMod_finds (old : QueryResult RouteDataRow) (data : RouterMap) (version : Int)
    (changes : List RouteChangeRow) (cols : ℕ) (mods : List UInt64) :
    ∃ appended,
      loadChangeModLoop (.rows cols (selectChanges changes ⟨data, builtMap old, version⟩)) mods
        ⟨data, builtMap old, version⟩ = (mods ++ appended, ⟨data, builtMap old, version⟩) ∧
      (∀ k, k ∈ appended ↔
        (∃ c ∈ changes, (c.version.toNat : Int) ≤ version ∧ bookKey c.modid c.cmdid = k) ∨
        (k ∈ builtMap old ∧
          ¬∀ v ∈ MultiMap.lookup (builtMap old) k, v ∈ MultiMap.lookup data k)) ∧
      ((∀ k, (∃ v ∈ MultiMap.lookup data k, v ∉ MultiMap.lookup (builtMap old) k) →
          ∃ c ∈ changes, (c.version.toNat : Int) ≤ version ∧ bookKey c.modid c.cmdid = k) →
        ∀ k, MultiMap.lookup (builtMap old) k ≠ MultiMap.lookup data k → k ∈ appended) := by
  have hmem : ∀ k, k ∈ (selectChanges changes ⟨data, builtMap old, version⟩).map
      (fun p ↦ bookKey p.1 p.2) ++ deletedMods ⟨data, builtMap old, version⟩ ↔
        (∃ c ∈ changes, (c.version.toNat : Int) ≤ version ∧ bookKey c.modid c.cmdid = k) ∨
        (k ∈ builtMap old ∧
          ¬∀ v ∈ MultiMap.lookup (builtMap old) k, v ∈ MultiMap.lookup data k) := by
    intro k
    rw [List.mem_append, mem_selectChanges, mem_deletedMods_of_proper (proper_builtMap old)]
  refine ⟨_, ?_, hmem, fun hgain k hne ↦ ?_⟩
  · rw [loadChangeModLoop_eq, loadChangeMod, List.append_assoc]
  · rw [hmem]
    by_contra hno
    rw [not_or] at hno
    obtain ⟨hno, hlost⟩ := hno
    -- the sets include each other
    refine hne (ExtTreeSet.ext_mem fun v ↦ ⟨fun hv ↦ ?_, fun hv ↦ ?_⟩)
    · by_contra hv'
      have hk : k ∈ builtMap old := MultiMap.mem_of_mem_lookup hv
      exact hlost ⟨hk, fun hall ↦ hv' (hall v hv)⟩
    · by_contra hv'
      exact hno (hgain k ⟨v, hv, hv'⟩)

end Router

end Ylars.Dns
