import Ylars.Dns.RouteUpdates

/-!
# The tables since the last publication

A subscriber may have read the hosts of a module from any table that has been served since
the module was last published.  With clients that keep to the rules these tables all have
the hosts that were published, unless the module is due to be published again: a forced
refresh, or an edit that is taken back, may put other hosts into a table for a while, but
then a row of `RouteChange` or the comparison of the tables gets the module published.
-/

namespace Ylars.Dns

open Std (ExtTreeMap ExtTreeSet)
open Ylars.Lib

namespace World

/-- The modules that may differ from what was last published, at each statement. -/
def Due (w : World) (modid cmdid : UInt32) : Prop :=
  match w.publisher.phase with
  | .checkVersion | .loadRouteData _ | .swap _ | .ended => w.Owed modid cmdid
  | .loadChangeMod => w.Owed modid cmdid ∨ bookKey modid cmdid ∈ w.publisher.router.deletedMods
  | .publish mods => w.Later modid cmdid ∨ bookKey modid cmdid ∈ mods
  | .dropSynchronousMod => w.Later modid cmdid

/-- Of a module that is not due, all tables that have been served since it was last published
have the hosts that it had then. -/
def Followed (w : World) (tables : List RouterMap) (published : List (ℕ × List UInt64)) : Prop :=
  ∀ modid cmdid, ¬w.Due modid cmdid → ∀ (g : ℕ) (tab : RouterMap), tables[g]? = some tab →
    (∀ p ∈ published, bookKey modid cmdid ∈ p.2 → p.1 ≤ g) →
      Hosts.of tab modid cmdid = w.last modid cmdid

variable {w w' : World} {elapsed : Int} {tables : List RouterMap}
  {published : List (ℕ × List UInt64)}

theorem Followed.mono (h : w.Followed tables published)
    (hdue : ∀ modid cmdid, w.Due modid cmdid → w'.Due modid cmdid) (hlast : w'.last = w.last) :
    w'.Followed tables published := by
  intro a b hnot g tab htab hlate
  rw [hlast]
  exact h a b (fun hd ↦ hnot (hdue a b hd)) g tab htab hlate

theorem Followed.client {op : ClientOp} (h : w.Followed tables published) (hi : w.Inv)
    (ho : Orderly w (.client op)) : (w.client op).Followed tables published := by
  have e := extends_client hi.1.2 ho
  generalize w.client op = w' at e
  refine h.mono (fun a b hd ↦ ?_) e.last
  unfold Due at hd ⊢
  rw [e.publisher]
  cases hphase : w.publisher.phase with
  | checkVersion | loadRouteData | swap | ended =>
      rw [hphase] at hd
      exact e.owed a b hd
  | loadChangeMod =>
      rw [hphase] at hd
      exact hd.imp_left (e.owed a b)
  | publish mods =>
      rw [hphase] at hd
      exact hd.imp_left (e.later a b)
  | dropSynchronousMod =>
      rw [hphase] at hd
      exact e.later a b hd

/-- The version is read, or the table: the tables that are served stay. -/
theorem Followed.read (h : w.Followed tables published) (hi : w.Inv)
    (hphase : w.publisher.phase = .checkVersion ∨ ∃ b, w.publisher.phase = .loadRouteData b) :
    (w.thread .ok elapsed).Followed tables published := by
  rcases hphase with hphase | ⟨b, hphase⟩
  · obtain ⟨v, phase, heq, -, hcases⟩ := thread_check elapsed hphase hi.1.1 hi.1.2
    rw [heq]
    refine h.mono (fun a b hd ↦ ?_) rfl
    unfold Due at hd ⊢
    rw [hphase] at hd
    rcases hcases with rfl | rfl | ⟨rfl, -⟩ <;> exact hd
  · rw [thread_load hphase]
    refine h.mono (fun a b hd ↦ ?_) rfl
    unfold Due at hd ⊢
    rw [hphase] at hd
    exact hd

/-- The table is swapped: the new one has the hosts last published too. -/
theorem Followed.swap {b : Bool} (h : w.Followed tables published) (hi : w.Inv)
    (hphase : w.publisher.phase = .swap b) :
    (w.thread .ok elapsed).Followed (tables ++ [w.publisher.router.temp]) published := by
  have hp := hi.2
  rw [hphase] at hp
  obtain ⟨⟨hserved, -, -⟩, hspare, -, hfound⟩ := hp
  rw [thread_swap hphase]
  -- what is due before is due after; and so is what the comparison will find
  have hdue : ∀ modid cmdid, w.Owed modid cmdid ∨
      b = true ∧ bookKey modid cmdid ∈ w.publisher.router.swap.deletedMods →
      World.Due { w with
        publisher := ⟨w.publisher.router.swap, if b then .loadChangeMod else .checkVersion⟩ }
        modid cmdid := by
    rintro modid cmdid hd
    unfold Due
    cases b with
    | false => exact hd.resolve_right fun h ↦ by cases h.1
    | true => exact hd.imp_right And.right
  intro modid cmdid hnot g tab htab hlate
  have hnotOwed : ¬w.Owed modid cmdid := fun ho ↦ hnot (hdue modid cmdid (.inl ho))
  by_cases hlt : g < tables.length
  · rw [List.getElem?_append_left hlt] at htab
    refine h modid cmdid ?_ g tab htab hlate
    unfold Due
    rwa [hphase]
  · rw [List.getElem?_append_right (Nat.le_of_not_lt hlt)] at htab
    obtain rfl := List.mem_singleton.mp (List.mem_of_getElem? htab)
    apply ExtTreeSet.ext_mem
    intro v
    constructor
    · exact fun hv ↦ by_contra fun hn ↦ hnotOwed (hspare modid cmdid v hv hn)
    · intro hv
      by_contra hn
      rcases hfound modid cmdid v hv hn with ho | ⟨rfl, hkey⟩
      · exact hnotOwed ho
      · -- the module has lost a host that was served
        have hs : v ∈ w.served modid cmdid :=
          by_contra fun hs ↦ hnotOwed (hserved modid cmdid v hv hs)
        refine hnot (hdue modid cmdid (.inr ⟨rfl, ?_⟩))
        rw [← hkey]
        exact Router.mem_deletedMods_of_lost (r := w.publisher.router.swap) hs hn

/-- The changed modules are collected. -/
theorem Followed.select (h : w.Followed tables published)
    (hphase : w.publisher.phase = .loadChangeMod) :
    (w.thread .ok elapsed).Followed tables published := by
  rw [thread_select hphase]
  generalize hmods : w.publisher.router.loadChangeMod (w.answers .ok elapsed).changes [] = mods
  refine h.mono (fun a b hd ↦ ?_) rfl
  obtain ⟨-, hlater⟩ := due_of_map w { w with
      publisher := ⟨w.publisher.router, .publish mods⟩
      changes := w.changes.map fun c ↦ if w.covered c then { c with read := true } else c }
    (fun c ↦ by split <;> exact ⟨rfl, rfl, rfl⟩) rfl rfl rfl
  unfold Due at hd ⊢
  rw [hphase] at hd
  rcases hd with ho | hdeleted
  · have hread : w.Later a b ∨
        bookKey a b ∈ w.publisher.router.loadChangeMod (w.answers .ok elapsed).changes [] :=
      ho.later_or_mem
    rcases hread with hl | hm
    · exact .inl (hlater a b hl)
    · exact .inr (hmods ▸ hm)
  · exact .inr (hmods ▸ List.mem_append_right _ hdeleted)

theorem Followed.publish {mods : List UInt64} (h : w.Followed tables published)
    (hphase : w.publisher.phase = .publish mods)
    (hdata : tables.getLast? = some w.publisher.router.data) :
    (w.thread .ok elapsed).Followed tables ((tables.length - 1, mods) :: published) := by
  obtain ⟨-, hlater⟩ := due_of_map w (w.thread .ok elapsed)
    (f := fun c ↦ if bookKey c.modid c.cmdid ∈ mods then { c with announced := true } else c)
    (fun c ↦ by split <;> exact ⟨rfl, rfl, rfl⟩)
    (by rw [thread_publish hphase]) (by rw [thread_publish hphase])
    (by rw [thread_publish hphase])
  have hdue : ∀ a b, w.Later a b → (w.thread .ok elapsed).Due a b := by
    intro a b hl
    unfold Due
    rw [thread_publish hphase] at hlater ⊢
    exact hlater a b hl
  intro a b hnot g tab htab hlate
  have hlast : (w.thread .ok elapsed).last a b = w.published mods a b := by
    rw [thread_publish hphase]
  have hnotLater : ¬w.Later a b := fun hl ↦ hnot (hdue a b hl)
  rw [hlast]
  rcases published_cases mods w a b with ⟨hm, he⟩ | ⟨hm, he⟩
  · -- the module has been published just now
    have hle := hlate _ List.mem_cons_self hm
    obtain ⟨hlt, -⟩ := List.getElem?_eq_some_iff.mp htab
    rw [List.getLast?_eq_getElem?, show tables.length - 1 = g by omega, htab] at hdata
    rw [he, Option.some.inj hdata]
    rfl
  · rw [he]
    refine h a b ?_ g tab htab fun p hp hmem ↦ hlate p (List.mem_cons_of_mem _ hp) hmem
    unfold Due
    rw [hphase]
    exact fun hd ↦ hd.elim hnotLater hm

theorem Followed.drop (h : w.Followed tables published)
    (hphase : w.publisher.phase = .dropSynchronousMod) :
    (w.thread .ok elapsed).Followed tables published := by
  rw [thread_drop hphase]
  refine h.mono (fun a b hd ↦ ?_) rfl
  unfold Due at hd ⊢
  rw [hphase] at hd
  rcases hd with hu | ⟨c, hc, hfor, hcov⟩
  · exact .inl hu
  · exact .inr ⟨c, List.mem_filter.mpr ⟨hc, by rw [hcov]; rfl⟩, hfor⟩

end World

end Ylars.Dns
