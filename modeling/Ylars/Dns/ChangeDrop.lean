import Ylars.Dns.RouteDb

/-!
# Which `RouteChange` rows are deleted

`load_change_mod` reads the rows up to a version and `drop_synchronous_mod` deletes the
rows up to the same version, as two statements.  A row that was read is published before
the thread comes to a delete (`read_announced`), but the delete does not ask whether a row
was read: rows that the query did not return, because it failed or because they were
inserted after it, are deleted all the same.
-/

namespace Ylars.Dns

open Ylars.Lib

/-- Every row that the thread has deleted was published after it was inserted. -/
def World.DropsAnnounced (w : World) : Prop := ∀ c ∈ w.dropped, c.announced = true

/-- Before a delete that is executed, a query of `load_change_mod` has returned every row
that the delete selects. -/
def ReadBeforeDrop (w : World) : Action → Prop
  | .client _ => True
  | .thread fate _ => w.publisher.phase = .dropSynchronousMod → fate = .ok →
      ∀ c ∈ w.changes, w.covered c = true → c.read = true

/-- A row that was read has been published since, or is in the vector that is about to be. -/
def World.Announces (w : World) (c : RouteChangeRow) : Prop :=
  c.read = true → c.announced = true ∨
    ∃ mods, w.publisher.phase = .publish mods ∧ bookKey c.modid c.cmdid ∈ mods

variable {w : World}

/-- Outside `publish`, a row that was read has been published. -/
theorem World.Announces.announced {c : RouteChangeRow} (h : w.Announces c)
    (hphase : ∀ mods, w.publisher.phase ≠ .publish mods) (hread : c.read = true) :
    c.announced = true := by
  rcases h hread with ha | ⟨mods, hm, -⟩
  · exact ha
  · exact absurd hm (hphase mods)

theorem announces_of_phase {w' : World} (hchanges : w'.changes = w.changes)
    (hphase : ∀ mods, w.publisher.phase ≠ .publish mods)
    (h : ∀ c ∈ w.changes, w.Announces c) : ∀ c ∈ w'.changes, w'.Announces c := by
  rw [hchanges]
  exact fun c hc hread ↦ .inl ((h c hc).announced hphase hread)

/-- A query that succeeds puts the rows it has read in the vector. -/
theorem announces_select {elapsed : Int} (hphase : w.publisher.phase = .loadChangeMod)
    (h : ∀ c ∈ w.changes, w.Announces c) :
    ∀ c ∈ (w.thread .ok elapsed).changes, (w.thread .ok elapsed).Announces c := by
  have heq : w.thread .ok elapsed =
      { w with
        publisher := w.publisher.step (w.answers .ok elapsed)
        changes := w.changes.map fun c ↦
          if w.covered c then { c with read := true } else c } := by
    simp only [World.thread, hphase, if_true]
  have hpub : (w.publisher.step (w.answers .ok elapsed)).phase =
      .publish (w.publisher.router.loadChangeMod (w.answers .ok elapsed).changes []) := by
    simp only [Publisher.step, hphase]
  rw [heq]
  intro c' hc' hread
  obtain ⟨c, hc, rfl⟩ := List.mem_map.mp hc'
  by_cases hcov : w.covered c = true
  · -- a row that has just been read is in the vector
    rw [if_pos hcov]
    exact .inr ⟨_, hpub, World.bookKey_mem_loadChangeMod (c := c) hc hcov⟩
  · rw [if_neg hcov] at hread ⊢
    exact .inl ((h c hc).announced (by simp [hphase]) hread)

/-- What is in the vector is published. -/
theorem announces_publish {fate : Fate} {elapsed : Int} {mods : List UInt64}
    (hphase : w.publisher.phase = .publish mods) (h : ∀ c ∈ w.changes, w.Announces c) :
    ∀ c ∈ (w.thread fate elapsed).changes, (w.thread fate elapsed).Announces c := by
  have heq : (w.thread fate elapsed).changes = w.changes.map fun c ↦
      if bookKey c.modid c.cmdid ∈ mods then { c with announced := true } else c := by
    simp only [World.thread, hphase]
  rw [heq]
  intro c' hc' hread
  obtain ⟨c, hc, rfl⟩ := List.mem_map.mp hc'
  by_cases hmem : bookKey c.modid c.cmdid ∈ mods
  · rw [if_pos hmem]
    exact .inl rfl
  · rw [if_neg hmem] at hread ⊢
    rcases h c hc hread with ha | ⟨mods', hm, hmem'⟩
    · exact .inl ha
    · rw [hphase] at hm
      cases hm
      exact absurd hmem' hmem

/-- The delete keeps no row that was not there. -/
theorem announces_drop {fate : Fate} {elapsed : Int}
    (hphase : w.publisher.phase = .dropSynchronousMod) (h : ∀ c ∈ w.changes, w.Announces c) :
    ∀ c ∈ (w.thread fate elapsed).changes, (w.thread fate elapsed).Announces c := by
  have hsub : ∀ c ∈ (w.thread fate elapsed).changes, c ∈ w.changes := by
    simp only [World.thread, hphase]
    split
    · exact fun c hc ↦ (List.mem_filter.mp hc).1
    · exact fun c hc ↦ hc
  exact fun c hc hread ↦ .inl ((h c (hsub c hc)).announced (by simp [hphase]) hread)

/-- The thread keeps what is announced: it goes from reading to publishing at once. -/
theorem announces_thread {fate : Fate} {elapsed : Int} (h : ∀ c ∈ w.changes, w.Announces c) :
    ∀ c ∈ (w.thread fate elapsed).changes, (w.thread fate elapsed).Announces c := by
  cases hphase : w.publisher.phase with
  | checkVersion | loadRouteData _ | swap _ | ended =>
      refine announces_of_phase ?_ (by simp [hphase]) h
      simp only [World.thread, hphase]
  | loadChangeMod =>
      cases fate with
      | error | noResult =>
          refine announces_of_phase ?_ (by simp [hphase]) h
          simp [World.thread, hphase]
      | ok => exact announces_select hphase h
  | publish mods => exact announces_publish hphase h
  | dropSynchronousMod => exact announces_drop hphase h

/-- In every reachable state a row that was read has been published since, or is about to
be. -/
theorem read_announced (h : serving.Reachable w) : ∀ c ∈ w.changes, w.Announces c := by
  refine h.induction (I := fun w ↦ ∀ c ∈ w.changes, w.Announces c) ?_ ?_
  · rintro _ ⟨fate, routes, changes, version, rfl⟩ c hc hread
    obtain ⟨c, -, rfl⟩ := List.mem_map.mp hc
    cases hread
  · rintro w (op | ⟨fate, elapsed⟩) _ - ih rfl
    · cases op with
      | edit => exact ih
      | logChange modid cmdid version =>
          intro c hc hread
          rcases List.mem_append.mp hc with hc | hc
          · exact ih c hc hread
          · obtain rfl := List.mem_singleton.mp hc
            cases hread
      | setVersion => exact ih
    · exact announces_thread ih

/-- In every run in which the deletes select only rows that were read, every row that is
deleted was published after it was inserted. -/
theorem dropsAnnounced_of_readBeforeDrop (h : (serving.restrict ReadBeforeDrop).Reachable w) :
    w.DropsAnnounced := by
  refine h.induction (I := World.DropsAnnounced) ?_ ?_
  · rintro _ ⟨fate, routes, changes, version, rfl⟩ c hc
    cases hc
  · rintro w (op | ⟨fate, elapsed⟩) _ hr ih ⟨hread, rfl⟩
    · cases op with
      | edit => exact ih
      | logChange => exact ih
      | setVersion => exact ih
    · change ∀ c ∈ (w.thread fate elapsed).dropped, c.announced = true
      unfold World.thread
      split
      · split
        · exact ih
        · exact ih
      · exact ih
      · rename_i hphase
        split
        · rename_i hok
          intro c hc
          rcases List.mem_append.mp hc with hc | hc
          · exact ih c hc
          · obtain ⟨hc, hcov⟩ := List.mem_filter.mp hc
            rcases read_announced hr.of_restrict c hc (hread hphase hok c hc hcov) with
              ha | ⟨mods, hm, -⟩
            · exact ha
            · rw [hphase] at hm
              cases hm
        · exact ih
      · exact ih

/-- A server without routes that finds version 1 and a row for module (1, 1). -/
def oneChange : World := World.start .ok [] [⟨1, 1, 1, false, false⟩] 1

/-- The steps of a turn whose `RouteChange` query has the given fate. -/
def turn (fate : Fate) : List Action :=
  [.thread .ok 1, .thread .ok 1, .thread .ok 1, .thread fate 1, .thread .ok 1, .thread .ok 1]

/-- When the query fails and the delete does not, the row is lost: it is deleted and has
not been published. -/
theorem failedQuery_drops_unannounced :
    serving.Reachable ((turn .error).foldl World.step oneChange) ∧
      ¬((turn .error).foldl World.step oneChange).DropsAnnounced := by
  constructor
  · exact LTS.Reachable.run (.init ⟨_, _, _, _, rfl⟩)
      (LTS.Run.foldl (M := serving) (C := fun _ _ ↦ True) (fun _ _ _ ↦ rfl)
        ⟨trivial, trivial, trivial, trivial, trivial, trivial, trivial⟩)
  · intro h
    have := h ⟨1, 1, 1, false, false⟩ (by decide)
    cases this

/-- In a turn without failures the row is read, published and deleted. -/
theorem dropsAnnounced_oneChange :
    ((turn .ok).foldl World.step oneChange).DropsAnnounced ∧
      ((turn .ok).foldl World.step oneChange).dropped = [⟨1, 1, 1, true, true⟩] := by
  have hmeets : LTS.Meets ReadBeforeDrop World.step oneChange (turn .ok) :=
    ⟨fun h ↦ absurd h (by decide), fun h ↦ absurd h (by decide), fun h ↦ absurd h (by decide),
      fun h ↦ absurd h (by decide), fun h ↦ absurd h (by decide), fun _ _ ↦ by decide, trivial⟩
  refine ⟨dropsAnnounced_of_readBeforeDrop ?_, by decide⟩
  exact LTS.Reachable.run (.init ⟨_, _, _, _, rfl⟩)
    (LTS.Run.foldl (M := serving.restrict ReadBeforeDrop) (fun _ _ h ↦ ⟨h, rfl⟩) hmeets)

end Ylars.Dns
