import Ylars.Dns.ChangePublish

/-!
# The server and its database

The database has the routes (`RouteData`), the rows that announce a change
(`RouteChange`) and the version (`RouteVersion`).  Other clients edit it between any two
statements of the update thread.  `World` is the database with the thread, and with what
the statements about them need to remember: for each row of `RouteChange` whether the
thread has read it and whether its module has been handed to `publish` since it was
inserted, which rows the thread has deleted, the hosts that a module had when it was last
handed to `publish`, and the modules with a new host whose row is still to come.
-/

namespace Ylars.Dns

open Std (ExtTreeSet)
open Ylars.Lib

/-- Whether a statement of the thread is executed, and, for a query, whether it has a
result set. -/
inductive Fate where
  | ok
  | error
  | noResult
deriving DecidableEq, Repr

/-- What a query with some columns and rows gives. -/
def Fate.answer {ρ : Type} (cols : Nat) (rs : List ρ) : Fate → QueryResult ρ
  | .ok => .rows cols rs
  | .error => .error
  | .noResult => .noResult

/-- A row of `RouteChange`, and what has become of it. -/
structure RouteChangeRow where
  modid : UInt32
  cmdid : UInt32
  version : UInt64
  /-- A query of `load_change_mod` has returned the row. -/
  read : Bool
  /-- The module has been handed to `publish` since the row was inserted. -/
  announced : Bool
deriving DecidableEq, Repr

/-- A row is about a module. -/
def RouteChangeRow.isFor (modid cmdid : UInt32) (c : RouteChangeRow) : Bool :=
  c.modid = modid ∧ c.cmdid = cmdid

/-- The hosts of every module. -/
abbrev Hosts := UInt32 → UInt32 → ExtTreeSet UInt64

/-- The hosts in a table. -/
def Hosts.of (m : RouterMap) : Hosts := fun modid cmdid ↦ MultiMap.lookup m (routeKey modid cmdid)

/-- The database, the update thread, and the record of what has happened. -/
structure World where
  routes : List RouteDataRow
  changes : List RouteChangeRow
  version : UInt32
  publisher : Publisher
  dropped : List RouteChangeRow
  /-- The hosts served when the module was last handed to `publish`, or at the start. -/
  last : Hosts
  /-- The module has a new host, and the row that announces it is still to come. -/
  unlogged : UInt32 → UInt32 → Bool

/-- What the other clients do. -/
inductive ClientOp where
  /-- A statement on `RouteData`, which then has the given rows. -/
  | edit (routes : List RouteDataRow)
  | logChange (modid cmdid : UInt32) (version : UInt64)
  | setVersion (version : UInt32)

/-- A statement of another client, or the next one of the thread. -/
inductive Action where
  | client (op : ClientOp)
  | thread (fate : Fate) (elapsed : Int)

namespace World

/-- The hosts in `RouteData`. -/
def hosts (w : World) : Hosts := Hosts.of (Router.tableOf w.routes)

/-- The hosts that `get_hosts` gives. -/
def served (w : World) : Hosts := fun modid cmdid ↦ w.publisher.router.getHosts modid cmdid

/-- The edit adds a host to the module. -/
def gains (routes : List RouteDataRow) (w : World) (modid cmdid : UInt32) : Bool :=
  (Hosts.of (Router.tableOf routes) modid cmdid).toList.any (· ∉ w.hosts modid cmdid)

/-- A row for the module waits for a version to come. -/
def hasPending (w : World) (modid cmdid : UInt32) : Bool :=
  w.changes.any fun c ↦ c.isFor modid cmdid ∧ w.version.toNat < c.version.toNat

/-- A statement of another client. -/
def client (w : World) : ClientOp → World
  | .edit routes =>
      { w with
        routes := routes
        unlogged := fun modid cmdid ↦
          w.unlogged modid cmdid || (w.gains routes modid cmdid && !w.hasPending modid cmdid) }
  | .logChange modid cmdid version =>
      { w with
        changes := w.changes ++ [⟨modid, cmdid, version, false, false⟩]
        unlogged := fun modid' cmdid' ↦
          w.unlogged modid' cmdid' && !(modid' = modid ∧ cmdid' = cmdid) }
  | .setVersion version => { w with version := version }

/-- The rows that `version <= _version` selects. -/
def covered (w : World) (c : RouteChangeRow) : Bool :=
  (c.version.toNat : Int) ≤ w.publisher.router.version

/-- What the queries of the thread give on the database as it is. -/
def answers (fate : Fate) (elapsed : Int) (w : World) : Answers where
  version := fate.answer 1 [w.version]
  elapsed := elapsed
  data := fate.answer 5 w.routes
  changes := fate.answer 2 ((w.changes.filter w.covered).map fun c ↦ (c.modid, c.cmdid))

/-- The hosts that the modules had when last published, after a vector has been. -/
def published (mods : List UInt64) (w : World) : Hosts := fun modid cmdid ↦
  if bookKey modid cmdid ∈ mods then w.served modid cmdid else w.last modid cmdid

/-- The next statement of the thread. -/
def thread (fate : Fate) (elapsed : Int) (w : World) : World :=
  let w' := { w with publisher := w.publisher.step (w.answers fate elapsed) }
  match w.publisher.phase with
  | .loadChangeMod =>
      if fate = .ok then
        { w' with
          changes := w.changes.map fun c ↦ if w.covered c then { c with read := true } else c }
      else w'
  | .publish mods =>
      { w' with
        changes := w.changes.map fun c ↦
          if bookKey c.modid c.cmdid ∈ mods then { c with announced := true } else c
        last := w.published mods }
  | .dropSynchronousMod =>
      if fate = .ok then
        { w' with
          changes := w.changes.filter fun c ↦ !w.covered c
          dropped := w.dropped ++ w.changes.filter w.covered }
      else w'
  | _ => w'

/-- One step of the whole. -/
def step (w : World) : Action → World
  | .client op => w.client op
  | .thread fate elapsed => w.thread fate elapsed

/-- The start: the constructor of `Router` has loaded the table, or has failed to. -/
def start (fate : Fate) (routes : List RouteDataRow) (changes : List RouteChangeRow)
    (version : UInt32) : World where
  routes := routes
  changes := changes.map fun c ↦ { c with read := false, announced := false }
  version := version
  publisher := ⟨Router.new (fate.answer 5 routes), .checkVersion⟩
  dropped := []
  last := fun modid cmdid ↦ (Router.new (fate.answer 5 routes)).getHosts modid cmdid
  unlogged := fun _ _ ↦ false

end World

/-- The server with any clients, and with statements that fail or not. -/
def serving : LTS World Action where
  init w := ∃ fate routes changes version, w = World.start fate routes changes version
  step w a w' := w' = w.step a

theorem World.bookKey_mem_loadChangeMod {w : World} {c : RouteChangeRow} {elapsed : Int}
    (hc : c ∈ w.changes) (hcov : w.covered c = true) :
    bookKey c.modid c.cmdid ∈
      w.publisher.router.loadChangeMod (w.answers .ok elapsed).changes [] := by
  refine List.mem_append_left _ (List.mem_append_right _ (List.mem_map.mpr ?_))
  exact ⟨(c.modid, c.cmdid), List.mem_map.mpr ⟨c, List.mem_filter.mpr ⟨hc, hcov⟩, rfl⟩, rfl⟩

/-- In the world the thread takes its own steps. -/
theorem publishing_of_serving {w : World} (h : serving.Reachable w) :
    publishing.Reachable w.publisher := by
  refine h.induction (I := fun w ↦ publishing.Reachable w.publisher) ?_ ?_
  · rintro _ ⟨fate, routes, changes, version, rfl⟩
    exact .init ⟨_, rfl⟩
  · rintro w (op | ⟨fate, elapsed⟩) _ - ih rfl
    · cases op with
      | edit => exact ih
      | logChange => exact ih
      | setVersion => exact ih
    · have hstep : (w.thread fate elapsed).publisher =
          w.publisher.step (w.answers fate elapsed) := by
        unfold World.thread
        split
        · split
          · rfl
          · rfl
        · rfl
        · split
          · rfl
          · rfl
        · rfl
      change publishing.Reachable (w.thread fate elapsed).publisher
      rw [hstep]
      exact ih.step rfl

end Ylars.Dns
