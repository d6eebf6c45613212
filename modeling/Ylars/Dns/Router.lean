import Ylars.Lib.MultiMap
import Ylars.Lib.Word

/-!
# The route tables: `Router`

The DNS server keeps two tables from modules to hosts: the served one and a spare one.
`build_map` empties the spare table and fills it from the database, `swap` exchanges
the two, and `load_change_mod` collects the modules that have changed: those with a row in
`RouteChange`, and those that have lost a host, found by comparing the spare table, which
is then the old one, with the served one.

The id columns of the database are `int unsigned` and are read with `atoi`, which gives
their bits as a signed `int`.  A table key is made from signed operands, a key from
`RouteChange` and from a subscription from unsigned ones; `routeKey` and `bookKey` differ
for a command id of `2 ^ 31` and above.
-/

namespace Ylars.Dns

open Std (ExtTreeMap ExtTreeSet)
open Ylars.Lib

/-- A row of `RouteData`. -/
structure RouteDataRow where
  modid : UInt32
  cmdid : UInt32
  serverip : UInt32
  serverport : UInt32
deriving DecidableEq, Repr

/-- What a query gives: it fails, it has no result set, or it has one with some number of
columns and some rows. -/
inductive QueryResult (ρ : Type) where
  | error
  | noResult
  | rows (cols : Nat) (rs : List ρ)

/-- `atoi` of an `int unsigned` column. -/
def atoi (x : UInt32) : Int32 := x.toInt32

/-- The key of a module in a table, made from signed ids. -/
def routeKey (modid cmdid : UInt32) : UInt64 := packSigned (atoi modid) (atoi cmdid)

/-- The key of a module that the clients subscribe with, made from unsigned ids. -/
def bookKey (modid cmdid : UInt32) : UInt64 := pack modid cmdid

namespace RouteDataRow

/-- The key that `build_map` files a row under. -/
def key (row : RouteDataRow) : UInt64 := routeKey row.modid row.cmdid

/-- The host of a row: an unsigned address and a signed port. -/
def value (row : RouteDataRow) : UInt64 :=
  (row.serverip.toUInt64 <<< 32) + (atoi row.serverport).toInt64.toUInt64

end RouteDataRow

/-- A route table, `router_map_data_t`. -/
abbrev RouterMap := MultiMap UInt64 UInt64

/-- The two tables and the version last seen, `Router`. -/
structure Router where
  /-- `_data_pointer`: the table that is served. -/
  data : RouterMap
  /-- `_temp_pointer`: the spare table. -/
  temp : RouterMap
  version : Int

namespace Router

/-- The loop of `build_map`: file the rows of a result in an empty table. -/
def tableOf (rows : List RouteDataRow) : RouterMap :=
  rows.foldl (fun m row ↦ MultiMap.insertAt row.key row.value m) ∅

/-- The table that `build_map` leaves, which it has emptied before the query. -/
def builtMap : QueryResult RouteDataRow → RouterMap
  | .error => ∅
  | .noResult => ∅
  | .rows cols rs => if 5 ≤ cols then tableOf rs else ∅

/-- `build_map`. -/
def buildMap (isInit : Bool) (res : QueryResult RouteDataRow) (r : Router) : Router :=
  if isInit then { r with data := builtMap res } else { r with temp := builtMap res }

/-- The constructor. -/
def new (res : QueryResult RouteDataRow) : Router :=
  { data := ∅, temp := ∅, version := 0 : Router }.buildMap true res

/-- `load_route_data`. -/
def loadRouteData (res : QueryResult RouteDataRow) (r : Router) : Router := r.buildMap false res

/-- `get_hosts`, with the unsigned ids its callers pass. -/
def getHosts (modid cmdid : UInt32) (r : Router) : ExtTreeSet UInt64 :=
  MultiMap.lookup r.data (routeKey modid cmdid)

/-- `check_version`: -1 on failure, 1 for a new version, 0 otherwise. -/
def checkVersion (res : QueryResult UInt32) (r : Router) : Int × Router :=
  match res with
  | .error => (-1, r)
  | .noResult => (-1, r)
  | .rows _ [] => (0, r)
  | .rows _ (v :: _) =>
      let newVersion := (atoi v).toInt
      if r.version < newVersion then (1, { r with version := newVersion }) else (0, r)

/-- `swap`. -/
def swap (r : Router) : Router := { r with data := r.temp, temp := r.data }

/-- A module of the spare table has lost a host, or is gone. -/
def hasLost (data : RouterMap) (key : UInt64) (hosts : ExtTreeSet UInt64) : Bool :=
  match data[key]? with
  | none => true
  | some s => hosts.toList.any (· ∉ s)

/-- The last loop of `load_change_mod`: the modules of the spare table that have lost a
host. -/
def deletedMods (r : Router) : List UInt64 :=
  (r.temp.toList.filter fun p ↦ hasLost r.data p.1 p.2).map Prod.fst

/-- `load_change_mod`: the modules with a row in the result, then those that have lost a
host; nothing when the query fails. -/
def loadChangeMod (res : QueryResult (UInt32 × UInt32)) (mods : List UInt64) (r : Router) :
    List UInt64 :=
  match res with
  | .error => mods
  | .noResult => mods
  | .rows _ rs => mods ++ rs.map (fun p ↦ bookKey p.1 p.2) ++ r.deletedMods

/-! ## The tables -/

theorem routeKey_inj {a b c d : UInt32} (h : routeKey a b = routeKey c d) : a = c ∧ b = d :=
  packSigned_inj h

theorem routeKey_eq_bookKey {modid cmdid : UInt32} (h : cmdid.toNat < 2 ^ 31) :
    routeKey modid cmdid = bookKey modid cmdid := packSigned_eq_pack h

theorem mem_lookup_tableOf {rows : List RouteDataRow} {k v : UInt64} :
    v ∈ MultiMap.lookup (tableOf rows) k ↔ ∃ row ∈ rows, row.key = k ∧ row.value = v := by
  exact MultiMap.mem_lookup_insertAll RouteDataRow.key RouteDataRow.value rows

theorem proper_tableOf (rows : List RouteDataRow) : (tableOf rows).Proper := by
  exact MultiMap.Proper.empty.foldl_insertAt RouteDataRow.key RouteDataRow.value rows

/-- A module is found when it is gone or has lost a host. -/
theorem mem_deletedMods {r : Router} {k : UInt64} : k ∈ r.deletedMods ↔
    k ∈ r.temp ∧ (k ∉ r.data ∨ ∃ v ∈ MultiMap.lookup r.temp k, v ∉ MultiMap.lookup r.data k) := by
  have hlost : ∀ s, r.temp[k]? = some s → (hasLost r.data k s = true ↔
      k ∉ r.data ∨ ∃ v ∈ MultiMap.lookup r.temp k, v ∉ MultiMap.lookup r.data k) := by
    intro s hs
    unfold hasLost MultiMap.lookup
    rw [hs, Option.getD_some]
    cases ht : r.data[k]? with
    | none =>
        refine iff_of_true rfl (.inl ?_)
        rw [ExtTreeMap.mem_iff_isSome_getElem?, ht]
        exact Bool.false_ne_true
    | some t =>
        have hmem : k ∈ r.data := ExtTreeMap.mem_iff_isSome_getElem?.mpr (by rw [ht]; rfl)
        rw [or_iff_right (not_not.mpr hmem), Option.getD_some, List.any_eq_true]
        simp only [ExtTreeSet.mem_toList, decide_eq_true_eq]
  constructor
  · intro h
    obtain ⟨⟨k', s⟩, hp, rfl⟩ := List.mem_map.mp h
    obtain ⟨hs, hl⟩ := List.mem_filter.mp hp
    rw [ExtTreeMap.mem_toList_iff_getElem?_eq_some] at hs
    exact ⟨ExtTreeMap.mem_iff_isSome_getElem?.mpr (by rw [hs]; rfl), (hlost s hs).mp hl⟩
  · rintro ⟨hk, hl⟩
    obtain ⟨s, hs⟩ := Option.isSome_iff_exists.mp (ExtTreeMap.mem_iff_isSome_getElem?.mp hk)
    exact List.mem_map.mpr ⟨(k, s), List.mem_filter.mpr
      ⟨ExtTreeMap.mem_toList_iff_getElem?_eq_some.mpr hs, (hlost s hs).mpr hl⟩, rfl⟩

theorem mem_deletedMods_of_lost {r : Router} {k v : UInt64}
    (h : v ∈ MultiMap.lookup r.temp k) (hlost : v ∉ MultiMap.lookup r.data k) :
    k ∈ r.deletedMods :=
  mem_deletedMods.mpr ⟨MultiMap.mem_of_mem_lookup h, .inr ⟨v, h, hlost⟩⟩

theorem deletedMods_of_temp_empty {r : Router} (h : r.temp = ∅) : r.deletedMods = [] := by
  simp [deletedMods, h]

end Router

end Ylars.Dns
