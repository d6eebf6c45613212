import Ylars.Proto
import Ylars.Dns.Router

/-!
# Subscriptions: `SubscribeList`

`_book_list` has, for each module, the descriptors of the connections that have asked for
it; `_push_list` has, for each descriptor, the modules that have changed and are still to be
sent.  `publish` copies from the first to the second, and a worker takes from the second
what concerns the descriptors of its loop.
-/

namespace Ylars.Dns

open Std (ExtTreeSet)
open Ylars.Lib Ylars.Proto

/-- `SubscribeList`. -/
structure SubscribeList where
  bookList : MultiMap UInt64 Int
  pushList : MultiMap Int UInt64

namespace SubscribeList

/-- `subscribe`. -/
def subscribe (mod : UInt64) (fd : Int) (sub : SubscribeList) : SubscribeList :=
  { sub with bookList := MultiMap.insertAt mod fd sub.bookList }

/-- `unsubscribe`. -/
def unsubscribe (mod : UInt64) (fd : Int) (sub : SubscribeList) : SubscribeList :=
  { sub with bookList := MultiMap.eraseAt mod fd sub.bookList }

/-- The subscriptions to some modules, as pairs of a descriptor and a module. -/
def booked (changeMods : List UInt64) (sub : SubscribeList) : List (Int × UInt64) :=
  changeMods.flatMap fun mod ↦ (MultiMap.lookup sub.bookList mod).toList.map fun fd ↦ (fd, mod)

/-- The part of `publish` under the locks: file the subscribed modules for each
descriptor. -/
def publish (changeMods : List UInt64) (sub : SubscribeList) : SubscribeList :=
  { sub with
    pushList := (sub.booked changeMods).foldl (fun m p ↦ MultiMap.insertAt p.1 p.2 m) sub.pushList }

/-- What `make_publish_map` puts into `need_publish`, in the order of the map. -/
def needPublish (fds : ExtTreeSet Int) (sub : SubscribeList) : List (Int × UInt64) :=
  fds.toList.flatMap fun fd ↦ (MultiMap.lookup sub.pushList fd).toList.map fun mod ↦ (fd, mod)

/-- `make_publish_map`: take what concerns the descriptors. -/
def makePublishMap (fds : ExtTreeSet Int) (sub : SubscribeList) :
    List (Int × UInt64) × SubscribeList :=
  (sub.needPublish fds,
    { sub with pushList := fds.toList.foldl (fun m fd ↦ m.erase fd) sub.pushList })

variable {sub : SubscribeList} {mod m : UInt64} {fd f : Int} {mods : List UInt64}
  {fds : ExtTreeSet Int}

theorem mem_bookList_subscribe :
    f ∈ MultiMap.lookup (sub.subscribe mod fd).bookList m ↔
      f ∈ MultiMap.lookup sub.bookList m ∨ (m = mod ∧ f = fd) := MultiMap.mem_lookup_insertAt

theorem mem_bookList_unsubscribe :
    f ∈ MultiMap.lookup (sub.unsubscribe mod fd).bookList m ↔
      f ∈ MultiMap.lookup sub.bookList m ∧ ¬(m = mod ∧ f = fd) := MultiMap.mem_lookup_eraseAt

/-- `publish` files every subscription to a changed module. -/
theorem mem_pushList_publish :
    m ∈ MultiMap.lookup (sub.publish mods).pushList fd ↔
      m ∈ MultiMap.lookup sub.pushList fd ∨ (m ∈ mods ∧ fd ∈ MultiMap.lookup sub.bookList m) := by
  rw [publish, MultiMap.mem_lookup_foldl_insertAt]
  refine or_congr_right ?_
  constructor
  · rintro ⟨p, hp, rfl, rfl⟩
    obtain ⟨mod, hmod, hp⟩ := List.mem_flatMap.mp hp
    obtain ⟨fd, hfd, rfl⟩ := List.mem_map.mp hp
    exact ⟨hmod, ExtTreeSet.mem_toList.mp hfd⟩
  · rintro ⟨hm, hfd⟩
    exact ⟨(fd, m), List.mem_flatMap.mpr ⟨m, hm, List.mem_map.mpr
      ⟨fd, ExtTreeSet.mem_toList.mpr hfd, rfl⟩⟩, rfl, rfl⟩

/-- A worker is given what was filed for its descriptors. -/
theorem mem_needPublish :
    (fd, m) ∈ sub.needPublish fds ↔ fd ∈ fds ∧ m ∈ MultiMap.lookup sub.pushList fd := by
  constructor
  · intro h
    obtain ⟨f, hf, h⟩ := List.mem_flatMap.mp h
    obtain ⟨mod, hmod, he⟩ := List.mem_map.mp h
    obtain ⟨rfl, rfl⟩ := Prod.mk.inj he
    exact ⟨ExtTreeSet.mem_toList.mp hf, ExtTreeSet.mem_toList.mp hmod⟩
  · rintro ⟨hfd, hm⟩
    exact List.mem_flatMap.mpr ⟨fd, ExtTreeSet.mem_toList.mpr hfd, List.mem_map.mpr
      ⟨m, ExtTreeSet.mem_toList.mpr hm, rfl⟩⟩

theorem mem_pushList_makePublishMap :
    m ∈ MultiMap.lookup (sub.makePublishMap fds).2.pushList fd ↔
      fd ∉ fds ∧ m ∈ MultiMap.lookup sub.pushList fd := by
  rw [makePublishMap, MultiMap.mem_lookup_foldl_erase, ExtTreeSet.mem_toList]

end SubscribeList

/-- The message that `get_req` and `publish_change_task` make of the hosts of a module. -/
def routeResponse (modid cmdid : UInt32) (hosts : ExtTreeSet UInt64) : GetRouteResponse where
  modid := modid
  cmdid := cmdid
  host := hosts.toList.map fun host : UInt64 ↦ ⟨(host >>> 32).toUInt32, host.toUInt32⟩

end Ylars.Dns
