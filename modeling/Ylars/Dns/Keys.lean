import Ylars.Dns.DnsServer

/-!
# The keys of a module

The DNS server makes one 64-bit key from a module id and a command id in five places.
`KeyPlace.key` is the expression that each of them has, on the ids as the database columns
and the requests hold them; the first part of the file says what each place does with its
key.

`build_map`, `get_hosts` and the comparison of the tables, which finds the keys that
`build_map` has stored, use signed ids; a row of `RouteChange` and a request use unsigned
ones.  The two agree for a command id below `2 ^ 31` only.
-/

namespace Ylars.Dns

open Ylars.Lib

/-- The places that make a key. -/
inductive KeyPlace where
  | buildMap
  | getHosts
  /-- `load_change_mod`, for a row of `RouteChange`. -/
  | changeRow
  /-- `load_change_mod`, for a module that has lost a host. -/
  | comparison
  | getReq
deriving DecidableEq, Repr

/-- The key that a place makes. -/
def KeyPlace.key : KeyPlace → UInt32 → UInt32 → UInt64
  | .buildMap => routeKey
  | .getHosts => routeKey
  | .changeRow => bookKey
  | .comparison => routeKey
  | .getReq => bookKey

/-! ## What the places do with their keys -/

/-- `build_map` stores hosts under the keys of its rows. -/
theorem exists_mem_tableOf_iff {rows : List RouteDataRow} {k : UInt64} :
    (∃ v, v ∈ MultiMap.lookup (Router.tableOf rows) k) ↔
      ∃ row ∈ rows, KeyPlace.buildMap.key row.modid row.cmdid = k := by
  constructor
  · rintro ⟨v, hv⟩
    obtain ⟨row, hrow, hk, -⟩ := Router.mem_lookup_tableOf.mp hv
    exact ⟨row, hrow, hk⟩
  · rintro ⟨row, hrow, hk⟩
    exact ⟨row.value, Router.mem_lookup_tableOf.mpr ⟨row, hrow, hk, rfl⟩⟩

theorem getHosts_eq (modid cmdid : UInt32) (r : Router) :
    r.getHosts modid cmdid = MultiMap.lookup r.data (KeyPlace.getHosts.key modid cmdid) := rfl

theorem loadChangeMod_rows (cols : ℕ) (rs : List (UInt32 × UInt32)) (mods : List UInt64)
    (r : Router) :
    r.loadChangeMod (.rows cols rs) mods =
      mods ++ rs.map (fun p ↦ KeyPlace.changeRow.key p.1 p.2) ++ r.deletedMods := rfl

/-- The comparison pushes keys of the rows that the spare table was built from. -/
theorem exists_of_mem_deletedMods {rows : List RouteDataRow} {r : Router} {k : UInt64}
    (ht : r.temp = Router.tableOf rows) (h : k ∈ r.deletedMods) :
    ∃ row ∈ rows, KeyPlace.comparison.key row.modid row.cmdid = k := by
  obtain ⟨⟨k', hosts⟩, hp, rfl⟩ := List.mem_map.mp h
  have hk := Std.ExtTreeMap.mem_toList_iff_getElem?_eq_some.mp (List.mem_filter.mp hp).1
  rw [ht] at hk
  -- a key of the table has a host
  obtain ⟨v, hv⟩ : ∃ v, v ∈ hosts := by
    by_contra hno
    exact Router.proper_tableOf rows k' hosts hk
      (Std.ExtTreeSet.eq_empty_iff_forall_not_mem.mpr fun v hv ↦ hno ⟨v, hv⟩)
  exact exists_mem_tableOf_iff.mp ⟨v, by rwa [MultiMap.lookup, hk, Option.getD_some]⟩

theorem proceed_subscribe {s t : DnsServer} {i : ℕ} {fd : Int} {modid cmdid : UInt32}
    (hpc : (s.workers i).pc = .subscribe fd modid cmdid) (h : s.proceed i = some t) :
    t.sub = s.sub.subscribe (KeyPlace.getReq.key modid cmdid) fd := by
  unfold DnsServer.proceed at h
  simp only [hpc] at h
  obtain rfl := Option.some.inj h
  rfl

theorem next_cons (fd : Int) (mod : UInt64) (rest : List (Int × UInt64)) :
    Pc.next ((fd, mod) :: rest) = .getHosts fd (unpack mod).1 (unpack mod).2 rest := rfl

/-! ## Where they agree -/

/-- All places have one key for a module, which no place has for another module, and from
which `publish_change_task` gets the module back. -/
structure KeysAgree (modid cmdid : UInt32) : Prop where
  same : ∀ p q : KeyPlace, p.key modid cmdid = q.key modid cmdid
  distinct : ∀ (p q : KeyPlace) (modid' cmdid' : UInt32),
    p.key modid cmdid = q.key modid' cmdid' → modid = modid' ∧ cmdid = cmdid'
  decoded : ∀ p : KeyPlace, unpack (p.key modid cmdid) = (modid, cmdid)

variable {modid cmdid : UInt32}

/-- Every place has one of the two keys. -/
theorem KeyPlace.key_cases (p : KeyPlace) (modid cmdid : UInt32) :
    p.key modid cmdid = routeKey modid cmdid ∨ p.key modid cmdid = bookKey modid cmdid := by
  cases p with
  | buildMap => exact .inl rfl
  | getHosts => exact .inl rfl
  | changeRow => exact .inr rfl
  | comparison => exact .inl rfl
  | getReq => exact .inr rfl

/-- Below `2 ^ 31` every place has the unsigned key. -/
theorem KeyPlace.key_eq_bookKey (p : KeyPlace) (h : cmdid.toNat < 2 ^ 31) :
    p.key modid cmdid = bookKey modid cmdid := by
  rcases p.key_cases modid cmdid with hk | hk
  · rw [hk, Router.routeKey_eq_bookKey h]
  · exact hk

/-- Below `2 ^ 31` no place has the key for another module. -/
theorem KeyPlace.eq_of_key_eq {p q : KeyPlace} {modid' cmdid' : UInt32} (h : cmdid.toNat < 2 ^ 31)
    (he : p.key modid cmdid = q.key modid' cmdid') : modid = modid' ∧ cmdid = cmdid' := by
  rw [p.key_eq_bookKey h] at he
  rcases q.key_cases modid' cmdid' with hk | hk
  · rw [hk] at he
    -- the low words are the same, so the other command id has no sign bit either
    have hlow : cmdid' = cmdid := low_eq_of_packSigned_eq_pack he.symm
    rw [Router.routeKey_eq_bookKey (hlow ▸ h)] at he
    exact pack_inj he
  · rw [hk] at he
    exact pack_inj he

/-- The places agree on the modules with a command id below `2 ^ 31`, and on no other. -/
theorem keysAgree_iff (modid cmdid : UInt32) : KeysAgree modid cmdid ↔ cmdid.toNat < 2 ^ 31 := by
  constructor
  · intro h
    exact packSigned_eq_pack_iff.mp (h.same .buildMap .getReq)
  · intro h
    refine ⟨fun p q ↦ ?_, fun p q modid' cmdid' he ↦ KeyPlace.eq_of_key_eq h he, fun p ↦ ?_⟩
    · rw [p.key_eq_bookKey h, q.key_eq_bookKey h]
    · rw [p.key_eq_bookKey h]
      exact unpack_pack modid cmdid

/-- The module (1, 2147483648) is stored under the key that the clients of the module
(0, 2147483648) subscribe with, and not under the one that its own clients do. -/
theorem not_keysAgree_high :
    KeyPlace.buildMap.key 1 2147483648 = KeyPlace.getReq.key 0 2147483648 ∧
      KeyPlace.buildMap.key 1 2147483648 ≠ KeyPlace.getReq.key 1 2147483648 ∧
      unpack (KeyPlace.comparison.key 1 2147483648) = (0, 2147483648) ∧
      ¬KeysAgree 1 2147483648 := by
  have hne : KeyPlace.buildMap.key 1 2147483648 ≠ KeyPlace.getReq.key 1 2147483648 := by decide
  exact ⟨by decide, hne, by decide, fun h ↦ hne (h.same _ _)⟩

end Ylars.Dns
