import Ylars.Dns.ChangePublish

/-!
# The forced reload

Besides loading a new version, the update thread reloads the table at ticks that find the
version unchanged.  `start_time` is read when the thread starts and never set again, so the
thread reloads at every such tick from the eleventh second on, and not once in ten seconds.

`changetPublish` is the whole loop, with the readings of the clock; `ticked` is `tick` with a
name for what the turn does.
-/

namespace Ylars.Dns

open Ylars.Lib

/-- What a turn of the loop does. -/
inductive Tick where
  /-- A new version: it loads, and hands the changed modules to `publish`. -/
  | published (mods : List UInt64)
  /-- The version is unchanged, and it reloads. -/
  | reloaded
  /-- The version is unchanged, and it does nothing. -/
  | idle
  /-- The query failed, and the loop is left. -/
  | left
deriving DecidableEq, Repr

/-- One turn of the loop: what it does, and the router after it. -/
def ticked (a : Answers) (r : Router) : Tick × Router :=
  let (ret, r) := r.checkVersion a.version
  if 0 < ret then
    let r := (r.loadRouteData a.data).swap
    (.published (r.loadChangeMod a.changes []), r)
  else if ret = 0 then
    if updateSec < a.elapsed then (.reloaded, (r.loadRouteData a.data).swap) else (.idle, r)
  else (.left, r)

/-- What the turn hands to `publish`. -/
def Tick.mods? : Tick → Option (List UInt64)
  | published mods => some mods
  | _ => none

/-- What the clock and the database give at a tick. -/
structure Reading where
  /-- `curr_time`. -/
  currTime : Int
  version : QueryResult UInt32
  data : QueryResult RouteDataRow
  changes : QueryResult (UInt32 × UInt32)

/-- The answers to a turn of the loop, with the time since `start_time`. -/
def Reading.answers (startTime : Int) (x : Reading) : Answers where
  version := x.version
  elapsed := x.currTime - startTime
  data := x.data
  changes := x.changes

/-- `changet_publish`: the turns of the loop, with their times, until it is left. -/
def changetPublish (startTime : Int) : Router → List Reading → List (Int × Tick)
  | _, [] => []
  | r, x :: xs =>
      (x.currTime, (ticked (x.answers startTime) r).1) ::
        if (ticked (x.answers startTime) r).1 = .left then []
        else changetPublish startTime (ticked (x.answers startTime) r).2 xs

/-- A turn that stays in the loop is a `tick`. -/
theorem tick_eq_ticked (a : Answers) (r : Router) :
    tick a r =
      if (ticked a r).1 = .left then none else some ((ticked a r).2, (ticked a r).1.mods?) := by
  unfold tick ticked
  simp only
  split
  · rfl
  · split
    · split
      · rfl
      · rfl
    · rfl

/-! ## What decides a turn -/

variable {startTime : Int} {r r' : Router} {a : Answers}

theorem ticked_eq_iff (a : Answers) (r : Router) :
    ((ticked a r).1 = .reloaded ↔ (r.checkVersion a.version).1 = 0 ∧ updateSec < a.elapsed) ∧
    ((ticked a r).1 = .idle ↔ (r.checkVersion a.version).1 = 0 ∧ ¬updateSec < a.elapsed) ∧
    ((ticked a r).1 = .left ↔ (r.checkVersion a.version).1 < 0) := by
  unfold ticked
  simp only
  split
  · rename_i hpos
    simp only [reduceCtorEq, false_iff]
    omega
  · split
    · rename_i hzero
      split
      · rename_i hlate
        simp [hzero, hlate]
      · rename_i hlate
        simp [hzero, hlate]
    · simp only [reduceCtorEq, false_iff, true_iff]
      omega

/-- `check_version` looks at the version only. -/
theorem checkVersion_congr (h : r.version = r'.version) (res : QueryResult UInt32) :
    (r.checkVersion res).1 = (r'.checkVersion res).1 ∧
      (r.checkVersion res).2.version = (r'.checkVersion res).2.version := by
  unfold Router.checkVersion
  rcases res with _ | _ | ⟨-, _ | ⟨v, -⟩⟩
  · exact ⟨rfl, h⟩
  · exact ⟨rfl, h⟩
  · exact ⟨rfl, h⟩
  · simp only [h]
    split
    · exact ⟨rfl, rfl⟩
    · exact ⟨rfl, h⟩

/-- The rest of a turn leaves the version alone. -/
theorem version_ticked (a : Answers) (r : Router) :
    (ticked a r).2.version = (r.checkVersion a.version).2.version := by
  unfold ticked
  simp only
  split
  · rfl
  · split
    · split
      · rfl
      · rfl
    · rfl

/-! ## Runs -/

/-- The times of the forced reloads. -/
def reloadTimes (log : List (Int × Tick)) : List Int :=
  (log.filter fun e ↦ e.2 = .reloaded).map Prod.fst

/-- Any two forced reloads are more than `update_sec` seconds apart. -/
def Spaced (log : List (Int × Tick)) : Prop :=
  (reloadTimes log).Pairwise fun s t ↦ updateSec < ((t - s).natAbs : Int)

/-- A tick that finds the version unchanged, more than `update_sec` seconds after the last
forced reload before it, or after the start when there is none, reloads. -/
def Prompt (startTime : Int) (log : List (Int × Tick)) : Prop :=
  ∀ before t tick after, log = before ++ (t, tick) :: after →
    tick = .reloaded ∨ tick = .idle →
      updateSec < t - (reloadTimes before).getLast?.getD startTime → tick = .reloaded

/-- The results of `check_version` and the times of the ticks, up to the first failure. -/
def checks : Router → List Reading → List (Int × Int)
  | _, [] => []
  | r, x :: xs =>
      (x.currTime, (r.checkVersion x.version).1) ::
        if (r.checkVersion x.version).1 < 0 then []
        else checks (r.checkVersion x.version).2 xs

/-- The times of the ticks that find the version unchanged more than `update_sec` seconds
after the start. -/
def lateTicks (startTime : Int) (r : Router) (xs : List Reading) : List Int :=
  ((checks r xs).filter fun e ↦ e.2 = 0 ∧ updateSec < e.1 - startTime).map Prod.fst

/-- Every late tick that finds the version unchanged reloads, and no other one does. -/
theorem reloadTimes_changetPublish (xs : List Reading) (h : r.version = r'.version) :
    reloadTimes (changetPublish startTime r xs) = lateTicks startTime r' xs := by
  unfold reloadTimes lateTicks
  induction xs generalizing r r' with
  | nil => rfl
  | cons x xs ih =>
      obtain ⟨hret, hversion⟩ := checkVersion_congr h x.version
      obtain ⟨hreload, -, hleft⟩ := ticked_eq_iff (x.answers startTime) r
      have hreload : (ticked (x.answers startTime) r).1 = .reloaded ↔
          (r'.checkVersion x.version).1 = 0 ∧ updateSec < x.currTime - startTime := by
        rw [hreload, ← hret]
        rfl
      have hleft : (ticked (x.answers startTime) r).1 = .left ↔
          (r'.checkVersion x.version).1 < 0 := by
        rw [hleft, ← hret]
        rfl
      have hrest : ((if (ticked (x.answers startTime) r).1 = .left then []
            else changetPublish startTime (ticked (x.answers startTime) r).2 xs).filter
              fun e ↦ e.2 = .reloaded).map Prod.fst =
          ((if (r'.checkVersion x.version).1 < 0 then []
            else checks (r'.checkVersion x.version).2 xs).filter
              fun e ↦ e.2 = 0 ∧ updateSec < e.1 - startTime).map Prod.fst := by
        simp only [hleft]
        split
        · rfl
        · exact ih ((version_ticked _ r).trans hversion)
      rw [changetPublish, checks, List.filter_cons, List.filter_cons]
      simp only [decide_eq_true_eq, hreload]
      split
      · rw [List.map_cons, List.map_cons, hrest]
      · exact hrest

/-- In a run every reload is late, and every tick that does nothing is early. -/
theorem late_iff (xs : List Reading) {t : Int} {tick : Tick}
    (h : (t, tick) ∈ changetPublish startTime r xs) :
    (tick = .reloaded → updateSec < t - startTime) ∧
      (tick = .idle → ¬updateSec < t - startTime) := by
  induction xs generalizing r with
  | nil => cases h
  | cons x xs ih =>
      rw [changetPublish, List.mem_cons, Prod.mk.injEq] at h
      rcases h with ⟨rfl, rfl⟩ | h
      · obtain ⟨hreload, hidle, -⟩ := ticked_eq_iff (x.answers startTime) r
        exact ⟨fun e ↦ (hreload.mp e).2, fun e ↦ (hidle.mp e).2⟩
      · split at h
        · cases h
        · exact ih h

/-- The thread never reloads too late. -/
theorem prompt_changetPublish (startTime : Int) (r : Router) (xs : List Reading) :
    Prompt startTime (changetPublish startTime r xs) := by
  rintro before t tick after hlog (htick | htick) hlate
  · exact htick
  · have hearly : ¬updateSec < t - startTime :=
      (late_iff xs (r := r) (by rw [hlog]; simp)).2 htick
    cases hlast : (reloadTimes before).getLast? with
    | none =>
        rw [hlast] at hlate
        exact absurd hlate hearly
    | some s =>
        -- the reload before was late itself
        obtain ⟨e, he, rfl⟩ := List.mem_map.mp (List.mem_of_getLast? hlast)
        obtain ⟨hmem, hreload⟩ := List.mem_filter.mp he
        have hs : updateSec < e.1 - startTime :=
          (late_iff xs (r := r) (by rw [hlog]; exact List.mem_append_left _ hmem)).1
            (of_decide_eq_true hreload)
        rw [hlast, Option.getD_some] at hlate
        unfold updateSec at *
        omega

/-- **When forced refreshes are spaced.**  In every run, whatever the clock and the
database give, forced reloads are more than `update_sec` seconds apart, and as prompt as
that allows, exactly when the ticks that find the version unchanged are more than
`update_sec` seconds apart from `update_sec` seconds after the start on. -/
theorem forced_spaced_iff (startTime : Int) (r : Router) (xs : List Reading) :
    (Spaced (changetPublish startTime r xs) ∧
        Prompt startTime (changetPublish startTime r xs)) ↔
      (lateTicks startTime r xs).Pairwise fun s t ↦ updateSec < ((t - s).natAbs : Int) := by
  rw [and_iff_left (prompt_changetPublish startTime r xs), Spaced,
    reloadTimes_changetPublish xs rfl]

/-- A tick that finds the version unchanged, at the given time. -/
def quietTick (t : Int) : Reading := ⟨t, .rows 1 [], .noResult, .noResult⟩

/-- Two ticks in the eleventh and the twelfth second both reload. -/
theorem quietTicks_not_spaced :
    ¬Spaced (changetPublish 0 (Router.new .noResult) [quietTick 11, quietTick 12]) := by
  have htimes : reloadTimes (changetPublish 0 (Router.new .noResult)
      [quietTick 11, quietTick 12]) = [11, 12] := by
    rw [reloadTimes_changetPublish _ rfl]
    rfl
  rw [Spaced, htimes]
  decide

end Ylars.Dns
