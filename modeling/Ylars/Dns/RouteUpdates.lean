import Ylars.Dns.RouteDb

/-!
# Which changes of the routes are published

The clients that change the routes first edit `RouteData`, then raise the version; for a
new host they insert a row into `RouteChange` as well.  A host that is gone is left to the
comparison of the old table with the new one.  But the forced refresh replaces the table
without a comparison, so that a host that it drops is in neither table later on, and the
comparison yields table keys, which are not the keys of the subscriptions for a command id
of `2 ^ 31` and above.

`KeepsLosses` is the condition on the loads under which nothing is lost in this way;
`Inv` says, phase by phase, which modules may differ from what was last published.
-/

namespace Ylars.Dns

open Std (ExtTreeSet)
open Ylars.Lib

/-! ## The clients that keep to the rules -/

/-- No statement of the thread fails; a row of `RouteChange` is inserted with a version to
come; the version is only increased. -/
def Orderly (w : World) : Action → Prop
  | .client (.edit _) => True
  | .client (.logChange _ _ version) => w.version.toNat < version.toNat
  | .client (.setVersion version) => w.version < version
  | .thread fate _ => fate = .ok

/-- The server with clients that keep to the rules. -/
def orderly : LTS World Action where
  init w := ∃ routes changes version, w = World.start .ok routes changes version
  step := (serving.restrict Orderly).step

/-- Every edit has been followed by its row and by its version. -/
def World.Complete (w : World) : Prop :=
  (∀ modid cmdid, w.unlogged modid cmdid = false) ∧
    ∀ c ∈ w.changes, c.version.toNat ≤ w.version.toNat

/-- Only the thread takes steps. -/
def Quiet (_ : World) : Action → Prop
  | .client _ => False
  | .thread _ _ => True

/-- A state after a version-change turn that started when all edits were complete, with no
edit since. -/
def AfterLastTurn (M : LTS World Action) (u : World) : Prop :=
  ∃ s elapsed t as, M.Reachable s ∧ s.Complete ∧ s.publisher.phase = .checkVersion ∧
    M.step s (.thread .ok elapsed) t ∧ t.publisher.phase = .loadRouteData true ∧
    (M.restrict Quiet).Run t as u ∧ u.publisher.phase = .checkVersion

/-! ## What is due -/

/-- The hosts of `s` are hosts of `t`, except those of modules that are due. -/
def Within (due : UInt32 → UInt32 → Prop) (s t : Hosts) : Prop :=
  ∀ modid cmdid v, v ∈ s modid cmdid → v ∉ t modid cmdid → due modid cmdid

namespace Within

variable {due due' : UInt32 → UInt32 → Prop} {r s t : Hosts}

theorem refl (s : Hosts) : Within due s s := fun _ _ _ h hn ↦ absurd h hn

theorem mono (hd : ∀ modid cmdid, due modid cmdid → due' modid cmdid) (h : Within due s t) :
    Within due' s t := fun a b v hs ht ↦ hd a b (h a b v hs ht)

theorem trans (h : Within due r s) (h' : Within due s t) : Within due r t := by
  intro a b v hr ht
  by_cases hs : v ∈ s a b
  · exact h' a b v hs ht
  · exact h a b v hr hs

/-- Where nothing is due, two tables within each other agree. -/
theorem antisymm (h : Within due s t) (h' : Within due t s) {modid cmdid : UInt32}
    (hd : ¬due modid cmdid) : s modid cmdid = t modid cmdid := by
  apply ExtTreeSet.ext_mem
  intro v
  constructor
  · exact fun hs ↦ by_contra fun ht ↦ hd (h _ _ v hs ht)
  · exact fun ht ↦ by_contra fun hs ↦ hd (h' _ _ v ht hs)

end Within

namespace World

/-- The hosts in the spare table. -/
def spare (w : World) : Hosts := Hosts.of w.publisher.router.temp

/-- The module has a row in `RouteChange`, or one is to come. -/
def Owed (w : World) (modid cmdid : UInt32) : Prop :=
  w.unlogged modid cmdid = true ∨ ∃ c ∈ w.changes, c.isFor modid cmdid = true

/-- The module has a row in `RouteChange` that the version the thread has seen does not cover, or
one is to come. -/
def Later (w : World) (modid cmdid : UInt32) : Prop :=
  w.unlogged modid cmdid = true ∨
    ∃ c ∈ w.changes, c.isFor modid cmdid = true ∧ w.covered c = false

/-- A comparison of the tables would publish the module for a host that it has lost. -/
def Found (publishes : Bool) (modid cmdid : UInt32) : Prop :=
  publishes = true ∧ routeKey modid cmdid = bookKey modid cmdid

/-- What is served and what is in `RouteData` is what was last published, except for modules
that are due. -/
def Tracks (due : UInt32 → UInt32 → Prop) (w : World) : Prop :=
  Within due w.last w.served ∧ Within due w.served w.last ∧ Within due w.hosts w.last

/-- What holds in each phase. -/
def PhaseInv (w : World) : Phase → Prop
  | .checkVersion | .loadRouteData _ | .ended => w.Tracks w.Owed
  | .swap publishes => w.Tracks w.Owed ∧ Within w.Owed w.spare w.last ∧
      Within w.Later w.hosts w.spare ∧
      Within (fun a b ↦ w.Owed a b ∨ Found publishes a b) w.last w.spare
  | .loadChangeMod => Within w.Owed w.last w.spare ∧ Within w.Owed w.served w.last ∧
      Within w.Owed w.hosts w.last ∧ Within w.Later w.hosts w.served ∧
      Within (fun a b ↦ w.Owed a b ∨ Found true a b) w.last w.served
  | .publish mods => w.Tracks (fun a b ↦ w.Later a b ∨ bookKey a b ∈ mods) ∧
      Within w.Later w.hosts w.served
  | .dropSynchronousMod => w.Tracks w.Later

/-- The invariant: the thread has seen a version that the database has reached, and the
phase's part. -/
def Inv (w : World) : Prop :=
  (0 ≤ w.publisher.router.version ∧ w.publisher.router.version ≤ w.version.toNat) ∧
    w.PhaseInv w.publisher.phase

end World

/-- Whenever the table is loaded, a module that has lost a host since it was last published
is found by the comparison, or has a row in `RouteChange`, or one is to come. -/
def KeepsLosses (w : World) : Action → Prop
  | .client _ => True
  | .thread _ _ => ∀ publishes, w.publisher.phase = .loadRouteData publishes →
      Within (fun a b ↦ w.Owed a b ∨ World.Found publishes a b) w.last w.hosts

namespace World

variable {w w' : World} {elapsed : Int} {modid cmdid : UInt32}

theorem Later.owed (h : w.Later modid cmdid) : w.Owed modid cmdid := by
  rcases h with h | ⟨c, hc, hfor, -⟩
  · exact .inl h
  · exact .inr ⟨c, hc, hfor⟩

/-! ## What the other clients do -/

/-- What a statement of another client leaves: all that was due, and new hosts that are. -/
structure Extends (w w' : World) : Prop where
  publisher : w'.publisher = w.publisher
  last : w'.last = w.last
  version : w.version.toNat ≤ w'.version.toNat
  owed : ∀ modid cmdid, w.Owed modid cmdid → w'.Owed modid cmdid
  later : ∀ modid cmdid, w.Later modid cmdid → w'.Later modid cmdid
  hosts : Within w'.Later w'.hosts w.hosts

theorem covered_eq_false {c : RouteChangeRow}
    (hv : w.publisher.router.version ≤ w.version.toNat)
    (hc : w.version.toNat < c.version.toNat) : w.covered c = false := by
  apply decide_eq_false
  omega

theorem extends_client (hv : w.publisher.router.version ≤ w.version.toNat) {op : ClientOp}
    (ho : Orderly w (.client op)) : Extends w (w.client op) := by
  cases op with
  | edit routes =>
      refine ⟨rfl, rfl, le_rfl, ?_, ?_, ?_⟩
      · rintro a b (h | h)
        · exact .inl (Bool.or_eq_true_iff.mpr (.inl h))
        · exact .inr h
      · rintro a b (h | h)
        · exact .inl (Bool.or_eq_true_iff.mpr (.inl h))
        · exact .inr h
      · intro a b v hnew hold
        have hgains : w.gains routes a b = true :=
          List.any_eq_true.mpr ⟨v, ExtTreeSet.mem_toList.mpr hnew, decide_eq_true hold⟩
        cases hpend : w.hasPending a b with
        | false =>
            refine .inl (Bool.or_eq_true_iff.mpr (.inr ?_))
            rw [hgains, hpend]
            rfl
        | true =>
            obtain ⟨c, hc, hp⟩ := List.any_eq_true.mp hpend
            obtain ⟨hfor, hlt⟩ := of_decide_eq_true hp
            exact .inr ⟨c, hc, hfor, covered_eq_false hv hlt⟩
  | logChange modid cmdid version =>
      have hnew : ∃ c ∈ (w.client (.logChange modid cmdid version)).changes,
          c.isFor modid cmdid = true ∧ w.covered c = false :=
        ⟨⟨modid, cmdid, version, false, false⟩,
          List.mem_append_right _ (List.mem_singleton_self _), by simp [RouteChangeRow.isFor],
          covered_eq_false hv ho⟩
      have hlater : ∀ a b, w.Later a b → (w.client (.logChange modid cmdid version)).Later a b := by
        rintro a b (h | ⟨c, hc, h⟩)
        · by_cases e : a = modid ∧ b = cmdid
          · obtain ⟨rfl, rfl⟩ := e
            exact .inr hnew
          · exact .inl (by simpa [client, h] using not_and_or.mp e)
        · exact .inr ⟨c, List.mem_append_left _ hc, h⟩
      refine ⟨rfl, rfl, le_rfl, ?_, hlater, .refl _⟩
      rintro a b (h | ⟨c, hc, h⟩)
      · exact (hlater a b (.inl h)).owed
      · exact .inr ⟨c, List.mem_append_left _ hc, h⟩
  | setVersion version =>
      exact ⟨rfl, rfl, Nat.le_of_lt (UInt32.lt_iff_toNat_lt.mp ho), fun _ _ h ↦ h,
        fun _ _ h ↦ h, .refl _⟩

theorem Extends.tracks (e : Extends w w') {due due' : UInt32 → UInt32 → Prop}
    (hd : ∀ a b, due a b → due' a b) (hl : ∀ a b, w'.Later a b → due' a b) (h : w.Tracks due) :
    w'.Tracks due' := by
  have hserved : w'.served = w.served := by
    unfold served
    rw [e.publisher]
  obtain ⟨h₁, h₂, h₃⟩ := h
  unfold Tracks
  rw [hserved, e.last]
  exact ⟨h₁.mono hd, h₂.mono hd, (e.hosts.mono hl).trans (h₃.mono hd)⟩

/-- The other clients keep the invariant. -/
theorem Inv.client {op : ClientOp} (h : w.Inv) (ho : Orderly w (.client op)) :
    (w.client op).Inv := by
  obtain ⟨⟨h₀, hv⟩, hp⟩ := h
  have e := extends_client hv ho
  generalize w.client op = w' at e
  have hserved : w'.served = w.served := by
    unfold served
    rw [e.publisher]
  have hspare : w'.spare = w.spare := by
    unfold spare
    rw [e.publisher]
  have hlo : ∀ a b, w'.Later a b → w'.Owed a b := fun _ _ ↦ Later.owed
  unfold Inv
  rw [e.publisher]
  refine ⟨⟨h₀, by have := e.version; omega⟩, ?_⟩
  cases hphase : w.publisher.phase with
  | checkVersion | loadRouteData _ | ended =>
      rw [hphase] at hp
      exact e.tracks e.owed hlo hp
  | swap publishes =>
      rw [hphase] at hp
      obtain ⟨h₁, h₂, h₃, h₄⟩ := hp
      unfold PhaseInv
      rw [hspare, e.last]
      exact ⟨e.tracks e.owed hlo h₁, h₂.mono e.owed, e.hosts.trans (h₃.mono e.later),
        h₄.mono fun a b ↦ Or.imp_left (e.owed a b)⟩
  | loadChangeMod =>
      rw [hphase] at hp
      obtain ⟨h₁, h₂, h₃, h₄, h₅⟩ := hp
      unfold PhaseInv
      rw [hspare, hserved, e.last]
      exact ⟨h₁.mono e.owed, h₂.mono e.owed, (e.hosts.mono hlo).trans (h₃.mono e.owed),
        e.hosts.trans (h₄.mono e.later), h₅.mono fun a b ↦ Or.imp_left (e.owed a b)⟩
  | publish mods =>
      rw [hphase] at hp
      obtain ⟨h₁, h₂⟩ := hp
      unfold PhaseInv
      rw [hserved]
      exact ⟨e.tracks (fun a b ↦ Or.imp_left (e.later a b)) (fun _ _ ↦ .inl) h₁,
        e.hosts.trans (h₂.mono e.later)⟩
  | dropSynchronousMod =>
      rw [hphase] at hp
      exact e.tracks e.later (fun _ _ h ↦ h) hp

/-! ## What the thread does -/

/-- A version read as a signed number is positive only when it is the number itself. -/
theorem toInt_atoi (x : UInt32) :
    (atoi x).toInt ≤ x.toNat ∧ (0 < (atoi x).toInt → (atoi x).toInt = x.toNat) := by
  have h : (atoi x).toInt = x.toBitVec.toInt := rfl
  have hn : x.toNat = x.toBitVec.toNat := rfl
  have hlt := x.toBitVec.isLt
  rw [h, hn, BitVec.toInt_eq_toNat_cond]
  split
  · exact ⟨Int.le_refl _, fun _ ↦ rfl⟩
  · constructor
    · omega
    · intro hpos
      omega

/-- What `check_version` leads to: the version seen may have grown, the tables are those
from before; when the version is found to be new, it is the one in the database. -/
theorem thread_check (elapsed : Int) (h : w.publisher.phase = .checkVersion)
    (h₀ : 0 ≤ w.publisher.router.version)
    (hv : w.publisher.router.version ≤ w.version.toNat) :
    ∃ v phase, w.thread .ok elapsed =
        { w with publisher := ⟨{ w.publisher.router with version := v }, phase⟩ } ∧
      (0 ≤ v ∧ v ≤ w.version.toNat) ∧
      (phase = .checkVersion ∨ phase = .loadRouteData false ∨
        (phase = .loadRouteData true ∧ v = w.version.toNat)) := by
  obtain ⟨hle, heq⟩ := toInt_atoi w.version
  have hthread : w.thread .ok elapsed =
      { w with
        publisher :=
          Publisher.step (w.answers .ok elapsed) ⟨w.publisher.router, .checkVersion⟩ } := by
    have hp : w.publisher = ⟨w.publisher.router, .checkVersion⟩ := by rw [← h]
    rw [← hp]
    simp only [thread, h]
  have hcheck : w.publisher.router.checkVersion (w.answers .ok elapsed).version =
      if w.publisher.router.version < (atoi w.version).toInt then
        (1, { w.publisher.router with version := (atoi w.version).toInt })
      else (0, w.publisher.router) := rfl
  rw [hthread, Publisher.step_checkVersion, hcheck]
  by_cases hnew : w.publisher.router.version < (atoi w.version).toInt
  · rw [if_pos hnew, if_pos Int.zero_lt_one]
    exact ⟨_, _, rfl, ⟨by omega, hle⟩, .inr (.inr ⟨rfl, heq (by omega)⟩)⟩
  · rw [if_neg hnew, if_neg (Int.lt_irrefl _), if_pos rfl]
    split
    · exact ⟨_, _, rfl, ⟨h₀, hv⟩, .inr (.inl rfl)⟩
    · exact ⟨_, _, rfl, ⟨h₀, hv⟩, .inl rfl⟩

theorem thread_load {publishes : Bool} (h : w.publisher.phase = .loadRouteData publishes) :
    w.thread .ok elapsed = { w with
      publisher :=
        ⟨{ w.publisher.router with temp := Router.tableOf w.routes }, .swap publishes⟩ } := by
  simp only [thread, h, Publisher.step]
  rfl

theorem thread_swap {publishes : Bool} (h : w.publisher.phase = .swap publishes) :
    w.thread .ok elapsed = { w with
      publisher := ⟨w.publisher.router.swap,
        if publishes then .loadChangeMod else .checkVersion⟩ } := by
  simp only [thread, h, Publisher.step]

theorem thread_ended (h : w.publisher.phase = .ended) : w.thread .ok elapsed = w := by
  simp only [thread, h, Publisher.step]

theorem thread_select (h : w.publisher.phase = .loadChangeMod) :
    w.thread .ok elapsed =
      { w with
        publisher := ⟨w.publisher.router,
          .publish (w.publisher.router.loadChangeMod (w.answers .ok elapsed).changes [])⟩
        changes := w.changes.map fun c ↦
          if w.covered c then { c with read := true } else c } := by
  simp only [thread, h, Publisher.step, if_true]

theorem thread_publish {mods : List UInt64} (h : w.publisher.phase = .publish mods) :
    w.thread .ok elapsed =
      { w with
        publisher := ⟨w.publisher.router, .dropSynchronousMod⟩
        changes := w.changes.map fun c ↦
          if bookKey c.modid c.cmdid ∈ mods then { c with announced := true } else c
        last := w.published mods } := by
  simp only [thread, h, Publisher.step]

theorem thread_drop (h : w.publisher.phase = .dropSynchronousMod) :
    w.thread .ok elapsed =
      { w with
        publisher := ⟨w.publisher.router, .checkVersion⟩
        changes := w.changes.filter fun c ↦ !w.covered c
        dropped := w.dropped ++ w.changes.filter w.covered } := by
  simp only [thread, h, Publisher.step, if_true]

theorem published_cases (mods : List UInt64) (w : World) (modid cmdid : UInt32) :
    (bookKey modid cmdid ∈ mods ∧ w.published mods modid cmdid = w.served modid cmdid) ∨
      (bookKey modid cmdid ∉ mods ∧ w.published mods modid cmdid = w.last modid cmdid) := by
  by_cases h : bookKey modid cmdid ∈ mods
  · exact .inl ⟨h, if_pos h⟩
  · exact .inr ⟨h, if_neg h⟩

/-- Marking rows changes neither what is owed nor what is due later. -/
theorem due_of_map (w w' : World) {f : RouteChangeRow → RouteChangeRow}
    (hid : ∀ c, (f c).modid = c.modid ∧ (f c).cmdid = c.cmdid ∧ (f c).version = c.version)
    (hchanges : w'.changes = w.changes.map f) (hunlogged : w'.unlogged = w.unlogged)
    (hversion : w'.publisher.router.version = w.publisher.router.version) :
    (∀ a b, w.Owed a b → w'.Owed a b) ∧ ∀ a b, w.Later a b → w'.Later a b := by
  have hfor : ∀ a b c, (f c).isFor a b = c.isFor a b := fun a b c ↦ by
    simp only [RouteChangeRow.isFor, (hid c).1, (hid c).2.1]
  have hcov : ∀ c, w'.covered (f c) = w.covered c := fun c ↦ by
    simp only [covered, (hid c).2.2, hversion]
  constructor
  · rintro a b (h | ⟨c, hc, h⟩)
    · exact .inl (by rw [hunlogged]; exact h)
    · exact .inr ⟨f c, by rw [hchanges]; exact List.mem_map_of_mem hc, by rw [hfor]; exact h⟩
  · rintro a b (h | ⟨c, hc, h, hn⟩)
    · exact .inl (by rw [hunlogged]; exact h)
    · exact .inr ⟨f c, by rw [hchanges]; exact List.mem_map_of_mem hc, by rw [hfor]; exact h,
        by rw [hcov]; exact hn⟩

/-- A module that is owed has a row that `load_change_mod` reads, or is due later. -/
theorem Owed.later_or_mem (h : w.Owed modid cmdid) :
    w.Later modid cmdid ∨ bookKey modid cmdid ∈
      w.publisher.router.loadChangeMod (w.answers .ok elapsed).changes [] := by
  rcases h with h | ⟨c, hc, hfor⟩
  · exact .inl (.inl h)
  · cases hcov : w.covered c with
    | false => exact .inl (.inr ⟨c, hc, hfor, hcov⟩)
    | true =>
        obtain ⟨rfl, rfl⟩ := of_decide_eq_true hfor
        exact .inr (bookKey_mem_loadChangeMod hc hcov)

/-- The query of `load_change_mod` and the comparison of the tables: what was owed is now
in the vector, or due later. -/
theorem PhaseInv.select (hp : w.PhaseInv .loadChangeMod)
    (hphase : w.publisher.phase = .loadChangeMod) :
    (w.thread .ok elapsed).PhaseInv (w.thread .ok elapsed).publisher.phase := by
  obtain ⟨h₁, h₂, h₃, h₄, h₅⟩ := hp
  rw [thread_select hphase]
  generalize hmods : w.publisher.router.loadChangeMod (w.answers .ok elapsed).changes [] = mods
  have hdue : ∀ a b, w.Owed a b → w.Later a b ∨ bookKey a b ∈ mods :=
    fun a b h ↦ hmods ▸ h.later_or_mem
  -- a host of the old table that the new one has not puts its module among the deleted
  have hlost : Within (fun a b ↦ w.Later a b ∨ bookKey a b ∈ mods) w.last w.served := by
    intro a b v hl hs
    rcases h₅ a b v hl hs with ho | ⟨-, hkey⟩
    · exact hdue a b ho
    · by_cases ht : v ∈ w.spare a b
      · refine .inr ?_
        rw [← hmods, ← hkey]
        exact List.mem_append_right _ (Router.mem_deletedMods_of_lost ht hs)
      · exact hdue a b (h₁ a b v hl ht)
  obtain ⟨-, hlater⟩ := due_of_map w { w with
      publisher := ⟨w.publisher.router, .publish mods⟩
      changes := w.changes.map fun c ↦ if w.covered c then { c with read := true } else c }
    (fun c ↦ by split <;> exact ⟨rfl, rfl, rfl⟩) rfl rfl rfl
  exact ⟨⟨hlost.mono fun a b ↦ Or.imp_left (hlater a b),
    h₂.mono fun a b h ↦ (hdue a b h).imp_left (hlater a b),
    h₃.mono fun a b h ↦ (hdue a b h).imp_left (hlater a b)⟩, h₄.mono hlater⟩

/-- The publish: of the modules in the vector the served hosts are now the last published. -/
theorem PhaseInv.publish {mods : List UInt64} (hp : w.PhaseInv (.publish mods))
    (hphase : w.publisher.phase = .publish mods) :
    (w.thread .ok elapsed).PhaseInv (w.thread .ok elapsed).publisher.phase := by
  obtain ⟨⟨h₁, h₂, h₃⟩, h₄⟩ := hp
  obtain ⟨-, hlater⟩ := due_of_map w (w.thread .ok elapsed)
    (f := fun c ↦ if bookKey c.modid c.cmdid ∈ mods then { c with announced := true } else c)
    (fun c ↦ by split <;> exact ⟨rfl, rfl, rfl⟩)
    (by rw [thread_publish hphase]) (by rw [thread_publish hphase])
    (by rw [thread_publish hphase])
  rw [thread_publish hphase] at hlater ⊢
  refine ⟨fun a b v hl hs ↦ ?_, fun a b v hs hl ↦ ?_, fun a b v hh hl ↦ ?_⟩
  · rcases published_cases mods w a b with ⟨-, he⟩ | ⟨hm, he⟩
    · exact absurd (he ▸ hl) hs
    · exact hlater a b ((h₁ a b v (he ▸ hl) hs).resolve_right hm)
  · rcases published_cases mods w a b with ⟨-, he⟩ | ⟨hm, he⟩
    · exact absurd hs (he ▸ hl)
    · exact hlater a b ((h₂ a b v hs (he ▸ hl)).resolve_right hm)
  · rcases published_cases mods w a b with ⟨-, he⟩ | ⟨hm, he⟩
    · exact hlater a b (h₄ a b v hh (he ▸ hl))
    · exact hlater a b ((h₃ a b v hh (he ▸ hl)).resolve_right hm)

/-- The delete: the rows that it leaves are those that are due later. -/
theorem PhaseInv.drop (hp : w.PhaseInv .dropSynchronousMod)
    (hphase : w.publisher.phase = .dropSynchronousMod) :
    (w.thread .ok elapsed).PhaseInv (w.thread .ok elapsed).publisher.phase := by
  rw [thread_drop hphase]
  have hkeep : ∀ a b, w.Later a b → World.Owed { w with
      publisher := ⟨w.publisher.router, .checkVersion⟩
      changes := w.changes.filter fun c ↦ !w.covered c
      dropped := w.dropped ++ w.changes.filter w.covered } a b := by
    rintro a b (h | ⟨c, hc, hfor, hcov⟩)
    · exact .inl h
    · exact .inr ⟨c, List.mem_filter.mpr ⟨hc, by rw [hcov]; rfl⟩, hfor⟩
  exact ⟨hp.1.mono hkeep, hp.2.1.mono hkeep, hp.2.2.mono hkeep⟩

/-- The thread keeps the invariant. -/
theorem Inv.thread (h : w.Inv) (hk : KeepsLosses w (.thread .ok elapsed)) :
    (w.thread .ok elapsed).Inv := by
  obtain ⟨⟨h₀, hv⟩, hp⟩ := h
  cases hphase : w.publisher.phase with
  | checkVersion =>
      rw [hphase] at hp
      obtain ⟨v, phase, heq, hv', hcases⟩ := thread_check elapsed hphase h₀ hv
      rw [heq]
      refine ⟨hv', ?_⟩
      rcases hcases with rfl | rfl | ⟨rfl, -⟩
      · exact hp
      · exact hp
      · exact hp
  | loadRouteData publishes =>
      rw [hphase] at hp
      rw [thread_load hphase]
      exact ⟨⟨h₀, hv⟩, hp, hp.2.2, .refl _, hk publishes hphase⟩
  | swap publishes =>
      rw [hphase] at hp
      obtain ⟨⟨h₁, h₂, h₃⟩, h₄, h₅, h₆⟩ := hp
      rw [thread_swap hphase]
      refine ⟨⟨h₀, hv⟩, ?_⟩
      cases publishes with
      | false =>
          refine ⟨h₆.mono ?_, h₄, h₃⟩
          rintro a b (h | ⟨h, -⟩)
          · exact h
          · cases h
      | true => exact ⟨h₁, h₄, h₃, h₅, h₆⟩
  | loadChangeMod =>
      refine ⟨?_, (hphase ▸ hp).select hphase⟩
      rw [thread_select hphase]
      exact ⟨h₀, hv⟩
  | publish mods =>
      refine ⟨?_, (hphase ▸ hp).publish hphase⟩
      rw [thread_publish hphase]
      exact ⟨h₀, hv⟩
  | dropSynchronousMod =>
      refine ⟨?_, (hphase ▸ hp).drop hphase⟩
      rw [thread_drop hphase]
      exact ⟨h₀, hv⟩
  | ended =>
      rw [thread_ended hphase]
      exact ⟨⟨h₀, hv⟩, hphase ▸ hp⟩

/-- Deleting nothing is left: once there are no rows, the thread adds none. -/
theorem thread_changes_nil {fate : Fate} (h : w.changes = []) :
    (w.thread fate elapsed).changes = [] := by
  unfold thread
  split
  · split
    · simp [h]
    · exact h
  · simp [h]
  · split
    · simp [h]
    · exact h
  · exact h

theorem thread_unlogged {fate : Fate} : (w.thread fate elapsed).unlogged = w.unlogged := by
  unfold thread
  split
  · split
    · rfl
    · rfl
  · rfl
  · split
    · rfl
    · rfl
  · rfl

/-! ## The last turn -/

/-- The thread is in a version-change turn, before its delete. -/
def MidTurn : Phase → Prop
  | .loadRouteData publishes | .swap publishes => publishes = true
  | .loadChangeMod | .publish _ | .dropSynchronousMod => True
  | .checkVersion | .ended => False

/-- No row is to come, and those that are there are deleted in this turn. -/
def Finishing (w : World) : Prop :=
  (∀ a b, w.unlogged a b = false) ∧
    (w.changes = [] ∨ (MidTurn w.publisher.phase ∧ ∀ c ∈ w.changes, w.covered c = true))

theorem Finishing.thread (h : w.Finishing) : (w.thread .ok elapsed).Finishing := by
  obtain ⟨hu, h⟩ := h
  refine ⟨by rw [thread_unlogged]; exact hu, ?_⟩
  rcases h with h | ⟨hmid, hcov⟩
  · exact .inl (thread_changes_nil h)
  · cases hphase : w.publisher.phase with
    | checkVersion | ended =>
        rw [hphase] at hmid
        cases hmid
    | loadRouteData publishes =>
        rw [hphase] at hmid
        rw [thread_load hphase]
        exact .inr ⟨hmid, hcov⟩
    | swap publishes =>
        rw [hphase] at hmid
        rw [thread_swap hphase, show publishes = true from hmid]
        exact .inr ⟨trivial, hcov⟩
    | loadChangeMod =>
        rw [thread_select hphase]
        refine .inr ⟨trivial, fun c' hc' ↦ ?_⟩
        obtain ⟨c, hc, rfl⟩ := List.mem_map.mp hc'
        rw [if_pos (hcov c hc)]
        exact hcov c hc
    | publish mods =>
        rw [thread_publish hphase]
        refine .inr ⟨trivial, fun c' hc' ↦ ?_⟩
        obtain ⟨c, hc, rfl⟩ := List.mem_map.mp hc'
        split
        · exact hcov c hc
        · exact hcov c hc
    | dropSynchronousMod =>
        rw [thread_drop hphase]
        refine .inl (List.filter_eq_nil_iff.mpr fun c hc ↦ ?_)
        rw [hcov c hc]
        exact Bool.false_ne_true

/-- The invariant holds of every reachable state. -/
theorem inv_of_reachable (h : (orderly.restrict KeepsLosses).Reachable w) : w.Inv := by
  refine h.induction (I := Inv) ?_ ?_
  · rintro _ ⟨routes, changes, version, rfl⟩
    exact ⟨⟨Int.le_refl _, Int.natCast_nonneg _⟩, .refl _, .refl _, .refl _⟩
  · rintro w (op | ⟨fate, elapsed⟩) _ - ih ⟨hk, ho, rfl⟩
    · exact ih.client ho
    · obtain rfl : fate = .ok := ho
      exact ih.thread hk

end World

/-- In every run whose loads keep what is lost: after a version-change turn that started
when all edits were complete, and with no edit since, every module has the hosts that it
had when it was last published. -/
theorem served_eq_last {u : World} (h : AfterLastTurn (orderly.restrict KeepsLosses) u)
    (modid cmdid : UInt32) : u.served modid cmdid = u.last modid cmdid := by
  obtain ⟨s, elapsed, t, as, hs, ⟨hunlogged, hversions⟩, hcheck, hstart, hnew, hrun, hdone⟩ := h
  obtain ⟨⟨h₀, hv⟩, -⟩ := World.inv_of_reachable hs
  have hu : (orderly.restrict KeepsLosses).Reachable u := (hs.step hstart).run hrun.of_restrict
  have ht : t.Finishing := by
    obtain ⟨-, -, rfl⟩ := hstart
    obtain ⟨v, phase, heq, -, hcases⟩ := World.thread_check elapsed hcheck h₀ hv
    change (s.thread .ok elapsed).publisher.phase = _ at hnew
    change (s.thread .ok elapsed).Finishing
    rw [heq] at hnew ⊢
    rcases hcases with rfl | rfl | ⟨rfl, rfl⟩
    · cases hnew
    · cases hnew
    · refine ⟨hunlogged, .inr ⟨rfl, fun c hc ↦ decide_eq_true ?_⟩⟩
      exact Int.ofNat_le.mpr (hversions c hc)
  have hfin : u.Finishing := by
    refine hrun.invariant (I := World.Finishing) ?_ ht
    rintro w (op | ⟨fate, elapsed⟩) _ hw ⟨hq, -, ho, rfl⟩
    · cases hq
    · obtain rfl : fate = .ok := ho
      exact hw.thread
  have hinv := (World.inv_of_reachable hu).2
  rw [hdone] at hinv
  refine hinv.2.1.antisymm hinv.1 ?_
  rintro (hul | ⟨c, hc, -⟩)
  · rw [hfin.1] at hul
    cases hul
  · rcases hfin.2 with hnil | ⟨hmid, -⟩
    · rw [hnil] at hc
      cases hc
    · rw [hdone] at hmid
      cases hmid

theorem World.gains_nil (w : World) (modid cmdid : UInt32) : w.gains [] modid cmdid = false := by
  have : Hosts.of (Router.tableOf []) modid cmdid = ∅ := MultiMap.lookup_empty
  simp [World.gains, this]

/-- A server that serves one host. -/
def oneHost : World := World.start .ok [⟨1, 1, 3232235953, 7777⟩] [] 0

/-- The host, as a table has it. -/
def theHost : UInt64 := RouteDataRow.value ⟨1, 1, 3232235953, 7777⟩

/-- `RouteData` is emptied, and the version raised. -/
def removal : World := (oneHost.step (.client (.edit []))).step (.client (.setVersion 1))

/-- `RouteData` is emptied, and the version raised after a forced refresh. -/
def refreshedRemoval : World :=
  ([.client (.edit []), .thread .ok 11, .thread .ok 11, .thread .ok 11,
    .client (.setVersion 1)] : List Action).foldl World.step oneHost

/-- The statements of a version-change turn after the first. -/
def restOfTurn : List Action :=
  [.thread .ok 12, .thread .ok 12, .thread .ok 12, .thread .ok 12, .thread .ok 12]

/-- A version-change turn. -/
def World.turn (w : World) : World := restOfTurn.foldl World.step (w.step (.thread .ok 12))

/-- After a forced refresh the version-change turn does not publish the module that has lost
its host. -/
theorem refreshedRemoval_not_published :
    AfterLastTurn orderly refreshedRemoval.turn ∧
      refreshedRemoval.turn.served 1 1 ≠ refreshedRemoval.turn.last 1 1 := by
  have hf : ∀ w a, Orderly w a → orderly.step w a (w.step a) := fun _ _ h ↦ ⟨h, rfl⟩
  constructor
  · refine ⟨refreshedRemoval, 12, _, restOfTurn, ?_, ⟨?_, ?_⟩, by decide, hf _ _ rfl, by decide,
      ?_, by decide⟩
    · exact LTS.Reachable.run (.init ⟨_, _, _, rfl⟩) (.foldl hf
        ⟨trivial, rfl, rfl, rfl, UInt32.lt_iff_toNat_lt.mpr (by decide), trivial⟩)
    · intro a b
      change (false || (oneHost.gains [] a b && !oneHost.hasPending a b)) = false
      rw [World.gains_nil]
      rfl
    · have hnil : refreshedRemoval.changes = [] := rfl
      rw [hnil]
      exact fun c hc ↦ by cases hc
    · exact LTS.Run.foldl (M := orderly.restrict Quiet) (C := fun w a ↦ Quiet w a ∧ Orderly w a)
        (fun _ _ h ↦ ⟨h.1, hf _ _ h.2⟩)
        ⟨⟨trivial, rfl⟩, ⟨trivial, rfl⟩, ⟨trivial, rfl⟩, ⟨trivial, rfl⟩, ⟨trivial, rfl⟩, trivial⟩
  · intro h
    have hlast : theHost ∈ refreshedRemoval.turn.last 1 1 := by decide
    rw [← h] at hlast
    exact absurd hlast (by decide)

/-- The host of the server is found by the comparison. -/
theorem within_oneHost (due : UInt32 → UInt32 → Prop) (t : Hosts) :
    Within (fun a b ↦ due a b ∨ World.Found true a b) oneHost.last t := by
  intro a b v hv _
  obtain ⟨row, hrow, hkey, -⟩ := Router.mem_lookup_tableOf.mp hv
  obtain rfl := List.mem_singleton.mp hrow
  obtain ⟨rfl, rfl⟩ := Router.routeKey_inj hkey
  exact .inr ⟨rfl, Router.routeKey_eq_bookKey (by decide)⟩

/-- Without the refresh the module is published with no hosts. -/
theorem served_eq_last_removal :
    removal.turn.served 1 1 = removal.turn.last 1 1 ∧ theHost ∉ removal.turn.last 1 1 := by
  have hf : ∀ w a, KeepsLosses w a ∧ Orderly w a →
      (orderly.restrict KeepsLosses).step w a (w.step a) := fun _ _ h ↦ ⟨h.1, h.2, rfl⟩
  refine ⟨served_eq_last ⟨removal, 12, _, restOfTurn, ?_, ⟨?_, ?_⟩, by decide, hf _ _ ⟨?_, rfl⟩,
    by decide, ?_, by decide⟩ 1 1, by decide⟩
  · exact .step (.step (.init ⟨_, _, _, rfl⟩) (hf oneHost (.client (.edit [])) ⟨trivial, trivial⟩))
      (hf _ (.client (.setVersion 1)) ⟨trivial, UInt32.lt_iff_toNat_lt.mpr (by decide)⟩)
  · intro a b
    change (false || (oneHost.gains [] a b && !oneHost.hasPending a b)) = false
    rw [World.gains_nil]
    rfl
  · have hnil : removal.changes = [] := rfl
    rw [hnil]
    exact fun c hc ↦ by cases hc
  · exact fun p hp ↦ by cases hp
  · refine LTS.Run.foldl (M := (orderly.restrict KeepsLosses).restrict Quiet)
      (C := fun w a ↦ Quiet w a ∧ KeepsLosses w a ∧ Orderly w a)
      (fun _ _ h ↦ ⟨h.1, hf _ _ h.2⟩)
      ⟨⟨trivial, fun p hp ↦ ?_, rfl⟩, ⟨trivial, fun p hp ↦ ?_, rfl⟩,
        ⟨trivial, fun p hp ↦ ?_, rfl⟩, ⟨trivial, fun p hp ↦ ?_, rfl⟩,
        ⟨trivial, fun p hp ↦ ?_, rfl⟩, trivial⟩
    · obtain rfl : true = p := Phase.loadRouteData.inj hp
      exact within_oneHost _ _
    · cases hp
    · cases hp
    · cases hp
    · cases hp

end Ylars.Dns
