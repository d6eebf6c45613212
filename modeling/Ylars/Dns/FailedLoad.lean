import Ylars.Dns.ChangePublish

/-!
# A load that fails

`build_map` empties the spare table before its query and says nothing when the query
fails, and the loop swaps the tables whatever happened.  A turn with a failed load keeps
what is served, and publishes nothing on its account, exactly when nothing was served
(`tick_failed_keeps_iff`).
-/

namespace Ylars.Dns

open Ylars.Lib

/-- The `RouteData` query failed, had no result set, or had too few columns. -/
def FailedLoad : QueryResult RouteDataRow → Prop
  | .error => True
  | .noResult => True
  | .rows cols _ => cols < 5

/-- The turn loads the table: by a new version, or by the forced refresh. -/
def Loads (a : Answers) (r : Router) : Prop :=
  0 < (r.checkVersion a.version).1 ∨
    ((r.checkVersion a.version).1 = 0 ∧ updateSec < a.elapsed)

/-- The keys of the `RouteChange` rows that a query gives. -/
def changeKeys : QueryResult (UInt32 × UInt32) → List UInt64
  | .error => []
  | .noResult => []
  | .rows _ rs => rs.map fun p ↦ bookKey p.1 p.2

/-- The served routes are those from before, and all that is published has a row in
`RouteChange`. -/
def Intact (a : Answers) (r r' : Router) (published : Option (List UInt64)) : Prop :=
  (∀ modid cmdid, r'.getHosts modid cmdid = r.getHosts modid cmdid) ∧
    ∀ mods ∈ published, ∀ k ∈ mods, k ∈ changeKeys a.changes

variable {a : Answers} {r r' : Router} {published : Option (List UInt64)}

theorem builtMap_of_failedLoad {res : QueryResult RouteDataRow} (h : FailedLoad res) :
    Router.builtMap res = ∅ := by
  cases res with
  | error => rfl
  | noResult => rfl
  | rows cols rs => exact if_neg (Nat.not_le.mpr h)

/-- A turn that loads serves what it has loaded, keeps the old table beside it, and
publishes, if it does, what `load_change_mod` finds. -/
theorem tick_loads (hl : Loads a r) (h : tick a r = some (r', published)) :
    r'.data = Router.builtMap a.data ∧ r'.temp = r.data ∧
      ∀ mods ∈ published, mods = r'.loadChangeMod a.changes [] := by
  have htables : ((r.checkVersion a.version).2.loadRouteData a.data).swap.temp = r.data :=
    (r.checkVersion_tables a.version).1
  unfold tick at h
  simp only at h
  rcases hl with hpos | ⟨hzero, hlate⟩
  · rw [if_pos hpos] at h
    obtain ⟨rfl, rfl⟩ := Prod.mk.inj (Option.some.inj h)
    refine ⟨rfl, htables, ?_⟩
    rintro mods ⟨⟩
    rfl
  · rw [if_neg (by omega), if_pos hzero, if_pos hlate] at h
    obtain ⟨rfl, rfl⟩ := Prod.mk.inj (Option.some.inj h)
    exact ⟨rfl, htables, fun _ hm ↦ by cases hm⟩

/-- Without a spare table to compare with, all that is found has a row. -/
theorem mem_changeKeys_of_mem_loadChangeMod {res : QueryResult (UInt32 × UInt32)} {k : UInt64}
    (ht : r.temp = ∅) (h : k ∈ r.loadChangeMod res []) : k ∈ changeKeys res := by
  cases res with
  | error => exact h
  | noResult => exact h
  | rows cols rs =>
      rw [Router.loadChangeMod, Router.deletedMods_of_temp_empty ht, List.append_nil,
        List.nil_append] at h
      exact h

theorem getHosts_of_failedLoad (hl : Loads a r) (hf : FailedLoad a.data)
    (h : tick a r = some (r', published)) (modid cmdid : UInt32) :
    r'.getHosts modid cmdid = ∅ := by
  rw [Router.getHosts, (tick_loads hl h).1, builtMap_of_failedLoad hf, MultiMap.lookup_empty]

/-- Where nothing is served, the table is empty. -/
theorem data_eq_empty {p : Publisher} (hr : publishing.Reachable p)
    (h : ∀ modid cmdid, p.router.getHosts modid cmdid = ∅) : p.router.data = ∅ := by
  obtain ⟨hproper, hkeys⟩ := (built_of_reachable hr).1
  by_contra hne
  obtain ⟨k, v, hv⟩ := hproper.exists_mem_lookup hne
  obtain ⟨modid, cmdid, rfl⟩ := hkeys k v hv
  have hempty := h modid cmdid
  rw [Router.getHosts] at hempty
  rw [hempty] at hv
  exact MultiMap.notMem_empty hv

/-- A turn whose load fails keeps the served routes, and publishes nothing on its account,
exactly when the served table was empty. -/
theorem tick_failed_keeps_iff (hr : publishing.Reachable ⟨r, .checkVersion⟩) (hl : Loads a r)
    (hf : FailedLoad a.data) (h : tick a r = some (r', published)) :
    Intact a r r' published ↔ r.data = ∅ := by
  constructor
  · rintro ⟨hkeep, -⟩
    apply data_eq_empty hr
    intro modid cmdid
    rw [← hkeep]
    exact getHosts_of_failedLoad hl hf h modid cmdid
  · intro hempty
    obtain ⟨-, htemp, hpub⟩ := tick_loads hl h
    constructor
    · intro modid cmdid
      rw [getHosts_of_failedLoad hl hf h, Router.getHosts, hempty, MultiMap.lookup_empty]
    · intro mods hm k hk
      rw [hpub mods hm] at hk
      exact mem_changeKeys_of_mem_loadChangeMod (htemp.trans hempty) hk

/-- The routes with one host. -/
def oneRoute : Router := Router.new (.rows 5 [⟨1, 1, 3232235953, 7777⟩])

/-- A new version, and a `RouteData` query that fails. -/
def failingAnswers : Answers where
  version := .rows 1 [1]
  elapsed := 1
  data := .error
  changes := .rows 2 []

/-- At a turn with a failed load the host of the only module is gone, and the module is
published although it has no row in `RouteChange`. -/
theorem failingAnswers_not_intact :
    publishing.Reachable ⟨oneRoute, .checkVersion⟩ ∧ Loads failingAnswers oneRoute ∧
      FailedLoad failingAnswers.data ∧
      ∃ r', tick failingAnswers oneRoute = some (r', some [bookKey 1 1]) ∧
        ¬Intact failingAnswers oneRoute r' (some [bookKey 1 1]) := by
  refine ⟨.init ⟨_, rfl⟩, .inl (by decide), trivial, _, rfl, fun h ↦ ?_⟩
  have := h.2 _ rfl _ (List.mem_singleton_self _)
  cases this

/-- A server without routes keeps them, a server with one host does not. -/
theorem tick_failed_keeps_iff_new :
    (Intact failingAnswers (Router.new .error)
        ((({ Router.new .error with version := 1 } : Router).loadRouteData .error).swap)
        (some []) ↔ (Router.new .error).data = ∅) ∧
      ∃ r', tick failingAnswers oneRoute = some (r', some [bookKey 1 1]) ∧
        (Intact failingAnswers oneRoute r' (some [bookKey 1 1]) ↔ oneRoute.data = ∅) ∧
        oneRoute.data ≠ ∅ := by
  refine ⟨tick_failed_keeps_iff (.init ⟨_, rfl⟩) (.inl (by decide)) trivial rfl, _, rfl,
    tick_failed_keeps_iff (.init ⟨_, rfl⟩) (.inl (by decide)) trivial rfl, fun hempty ↦ ?_⟩
  have hsize : oneRoute.data.size = 1 := rfl
  rw [hempty] at hsize
  cases hsize

end Ylars.Dns
