import Ylars.Lib.Transition
import Ylars.Dns.Router

/-!
# The update thread: `changet_publish`

Once a second the thread asks for the version of the routes.  When it has grown, the thread
loads the table again, swaps, collects the changed modules, hands them to `publish` and
deletes the rows it has dealt with; when it has not, and more than `updateSec` seconds have
passed since the thread was started, it loads and swaps only.

`Publisher.step` is the thread statement by statement, as the clients of the database see
it; `tick` is one turn of the loop taken in one piece (`run_of_tick`).
-/

namespace Ylars.Dns

open Ylars.Lib

/-- The statement that the thread is about to execute. -/
inductive Phase where
  | checkVersion
  | loadRouteData (publishes : Bool)
  | swap (publishes : Bool)
  | loadChangeMod
  | publish (mods : List UInt64)
  | dropSynchronousMod
  /-- The loop has been left. -/
  | ended
deriving DecidableEq

/-- The router, and where the thread stands. -/
structure Publisher where
  router : Router
  phase : Phase

/-- What the queries of the thread give, and how long it has been running. -/
structure Answers where
  version : QueryResult UInt32
  /-- `curr_time - start_time`. -/
  elapsed : Int
  data : QueryResult RouteDataRow
  changes : QueryResult (UInt32 × UInt32)

/-- `update_sec`. -/
def updateSec : Int := 10

/-- One statement of the loop. -/
def Publisher.step (a : Answers) (p : Publisher) : Publisher :=
  match p.phase with
  | .checkVersion =>
      let (ret, router) := p.router.checkVersion a.version
      if 0 < ret then ⟨router, .loadRouteData true⟩
      else if ret = 0 then
        if updateSec < a.elapsed then ⟨router, .loadRouteData false⟩ else ⟨router, .checkVersion⟩
      else ⟨router, .ended⟩
  | .loadRouteData publishes => ⟨p.router.loadRouteData a.data, .swap publishes⟩
  | .swap publishes => ⟨p.router.swap, if publishes then .loadChangeMod else .checkVersion⟩
  | .loadChangeMod => ⟨p.router, .publish (p.router.loadChangeMod a.changes [])⟩
  | .publish _ => ⟨p.router, .dropSynchronousMod⟩
  | .dropSynchronousMod => ⟨p.router, .checkVersion⟩
  | .ended => p

/-- One turn of the loop: the router after it and what it hands to `publish`, if it gets
there; nothing when the loop is left. -/
def tick (a : Answers) (r : Router) : Option (Router × Option (List UInt64)) :=
  let (ret, r) := r.checkVersion a.version
  if 0 < ret then
    let r := (r.loadRouteData a.data).swap
    some (r, some (r.loadChangeMod a.changes []))
  else if ret = 0 then
    if updateSec < a.elapsed then some ((r.loadRouteData a.data).swap, none) else some (r, none)
  else none

/-- The thread, whatever its queries give. -/
def publishing : LTS Publisher Answers where
  init p := ∃ res, p = ⟨Router.new res, .checkVersion⟩
  step p a p' := p' = p.step a

/-! ## One turn, statement by statement -/

variable {a : Answers} {r r' : Router} {mods : List UInt64} {p : Publisher}

theorem Publisher.step_checkVersion (a : Answers) (r : Router) :
    Publisher.step a ⟨r, .checkVersion⟩ =
      if 0 < (r.checkVersion a.version).1 then
        ⟨(r.checkVersion a.version).2, .loadRouteData true⟩
      else if (r.checkVersion a.version).1 = 0 then
        if updateSec < a.elapsed then ⟨(r.checkVersion a.version).2, .loadRouteData false⟩
        else ⟨(r.checkVersion a.version).2, .checkVersion⟩
      else ⟨(r.checkVersion a.version).2, .ended⟩ := rfl

/-- A turn of the loop is a run of its statements, and what it hands to `publish` is what
the thread holds in between. -/
theorem run_of_tick {published : Option (List UInt64)} (h : tick a r = some (r', published)) :
    ∃ as bs q, publishing.Run ⟨r, .checkVersion⟩ as q ∧
      publishing.Run q bs ⟨r', .checkVersion⟩ ∧
      ∀ mods ∈ published, q = ⟨r', .publish mods⟩ := by
  unfold tick at h
  have hcheck := Publisher.step_checkVersion a r
  simp only at h
  split at h
  · rename_i hpos
    obtain ⟨rfl, rfl⟩ := Prod.mk.inj (Option.some.inj h)
    rw [if_pos hpos] at hcheck
    refine ⟨[a, a, a, a], [a, a], _, .cons hcheck.symm (.cons rfl (.cons rfl (.cons rfl (.nil _)))),
      .cons rfl (.cons rfl (.nil _)), ?_⟩
    rintro mods ⟨⟩
    rfl
  · rename_i hpos
    rw [if_neg hpos] at hcheck
    split at h
    · rename_i hzero
      rw [if_pos hzero] at hcheck
      split at h
      · rename_i hlate
        rw [if_pos hlate] at hcheck
        obtain ⟨rfl, rfl⟩ := Prod.mk.inj (Option.some.inj h)
        exact ⟨[a], [a, a], _, .cons hcheck.symm (.nil _), .cons rfl (.cons rfl (.nil _)),
          fun _ hm ↦ by cases hm⟩
      · rename_i hlate
        rw [if_neg hlate] at hcheck
        obtain ⟨rfl, rfl⟩ := Prod.mk.inj (Option.some.inj h)
        exact ⟨[a], [], _, .cons hcheck.symm (.nil _), .nil _, fun _ hm ↦ by cases hm⟩
    · cases h

/-! ## What the tables are -/

/-- A table that `build_map` may have left: every key is that of a module, and has a host. -/
def Built (m : RouterMap) : Prop :=
  m.Proper ∧ ∀ k v, v ∈ MultiMap.lookup m k → ∃ modid cmdid, k = routeKey modid cmdid

theorem built_empty : Built ∅ :=
  ⟨.empty, fun _ _ hv ↦ absurd hv MultiMap.notMem_lookup_empty⟩

/-- `build_map` leaves a table that is built from rows. -/
theorem built_builtMap (res : QueryResult RouteDataRow) : Built (Router.builtMap res) := by
  cases res with
  | error => exact built_empty
  | noResult => exact built_empty
  | rows cols rs =>
      rw [Router.builtMap]
      split
      · refine ⟨Router.proper_tableOf rs, fun k v hv ↦ ?_⟩
        obtain ⟨row, -, rfl, -⟩ := Router.mem_lookup_tableOf.mp hv
        exact ⟨_, _, rfl⟩
      · exact built_empty

/-- `check_version` leaves the tables alone. -/
theorem Router.checkVersion_tables (res : QueryResult UInt32) (r : Router) :
    (r.checkVersion res).2.data = r.data ∧ (r.checkVersion res).2.temp = r.temp := by
  unfold Router.checkVersion
  rcases res with _ | _ | ⟨-, _ | ⟨v, -⟩⟩
  · exact ⟨rfl, rfl⟩
  · exact ⟨rfl, rfl⟩
  · exact ⟨rfl, rfl⟩
  · simp only
    split
    · exact ⟨rfl, rfl⟩
    · exact ⟨rfl, rfl⟩

/-- In a reachable state both tables were left by `build_map`. -/
theorem built_of_reachable (h : publishing.Reachable p) :
    Built p.router.data ∧ Built p.router.temp := by
  refine h.induction (I := fun p ↦ Built p.router.data ∧ Built p.router.temp) ?_ ?_
  · rintro _ ⟨res, rfl⟩
    exact ⟨built_builtMap res, built_empty⟩
  · rintro ⟨r, phase⟩ a _ - ⟨hd, ht⟩ rfl
    cases phase with
    | checkVersion =>
        have hkeep : (Publisher.step a ⟨r, .checkVersion⟩).router =
            (r.checkVersion a.version).2 := by
          simp only [Publisher.step]
          split
          · rfl
          · split
            · split
              · rfl
              · rfl
            · rfl
        obtain ⟨h₁, h₂⟩ := r.checkVersion_tables a.version
        rw [hkeep, h₁, h₂]
        exact ⟨hd, ht⟩
    | loadRouteData => exact ⟨hd, built_builtMap a.data⟩
    | swap => exact ⟨ht, hd⟩
    | loadChangeMod => exact ⟨hd, ht⟩
    | publish => exact ⟨hd, ht⟩
    | dropSynchronousMod => exact ⟨hd, ht⟩
    | ended => exact ⟨hd, ht⟩

end Ylars.Dns
