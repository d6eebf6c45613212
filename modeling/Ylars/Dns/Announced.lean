import Ylars.Dns.MissedUpdate
import Ylars.Dns.RouteDb

/-!
# Subscribers that are up to date

That no update is missed says which table a response was read from.  What it says about the
hosts rests on the update thread: a module whose hosts a swap changes has to be handed to
`publish` after it.  `load_change_mod` finds these modules when the database announces the
new hosts, and a swap of the forced refresh finds none, so it may not change anything.

`Announced` is this condition on the steps of the thread.  When it is met, the last response
on a connection has the hosts that are served (`last_answer_current`).
-/

namespace Ylars.Dns

open Std (ExtTreeMap ExtTreeSet)
open Ylars.Lib Ylars.Proto

/-- Every module whose hosts differ in two tables is among `mods`. -/
def Announces (mods : List UInt64) (old new : RouterMap) : Prop :=
  ∀ modid cmdid, Hosts.of old modid cmdid ≠ Hosts.of new modid cmdid → bookKey modid cmdid ∈ mods

namespace DnsServer

/-- What is handed to `publish` has the modules that the swap before it has changed, and the
swap of a forced refresh changes none. -/
def Announced (s : DnsServer) : Event → Prop
  | .updater _ =>
      match s.publisher.phase, s.sending with
      | .publish mods, none => Announces mods s.publisher.router.temp s.publisher.router.data
      | .swap false, _ => Announces [] s.publisher.router.data s.publisher.router.temp
      | _, _ => True
  | _ => True

/-- The thread has installed a table and has not published yet what has changed. -/
def Unpublished (s : DnsServer) : Prop :=
  s.publisher.phase = .loadChangeMod ∨ (∃ mods, s.publisher.phase = .publish mods) ∧
    s.sending = none

/-- Tables that follow each other differ in what was published in between. -/
def Linked (s : DnsServer) (g : ℕ) (old new : RouterMap) : Prop :=
  Announces [] old new ∨ ∃ mods, (g + 1, mods) ∈ s.published ∧ Announces mods old new

/-- What the steps of the update thread keep. -/
structure TablesInv (s : DnsServer) : Prop where
  linked : ∀ g old new, s.tables[g]? = some old → s.tables[g + 1]? = some new →
    (s.gen = g + 1 → ¬s.Unpublished) → s.Linked g old new
  spare : s.Unpublished → s.past.getLast? = some s.publisher.router.temp
  sends : s.sending ≠ none → ∃ mods, s.publisher.phase = .publish mods

variable {s t : DnsServer} {fd : Int} {c : Conn} {i : ℕ} {mods : List UInt64}

/-- A state with the same thread and the same record of it. -/
structure SameThread (s t : DnsServer) : Prop where
  publisher : t.publisher = s.publisher
  sending : t.sending = s.sending
  past : t.past = s.past
  published : t.published = s.published

theorem TablesInv.of_same (h : s.TablesInv) (e : SameThread s t) : t.TablesInv := by
  obtain ⟨_, _, _, _, p, sending, past, published⟩ := s
  obtain ⟨_, _, _, _, p', sending', past', published'⟩ := t
  obtain ⟨rfl, rfl, rfl, rfl⟩ := e
  exact ⟨h.linked, h.spare, h.sends⟩

/-- A worker leaves the update thread alone. -/
theorem sameThread_proceed (hs : s.proceed i = some t) : SameThread s t := by
  unfold DnsServer.proceed at hs
  cases hpc : (s.workers i).pc with
  | idle =>
      simp only [hpc] at hs
      cases hs
  | subscribe fd modid cmdid =>
      simp only [hpc] at hs
      obtain rfl := Option.some.inj hs
      exact ⟨rfl, rfl, rfl, rfl⟩
  | getHosts fd modid cmdid rest =>
      simp only [hpc] at hs
      obtain rfl := Option.some.inj hs
      exact ⟨rfl, rfl, rfl, rfl⟩
  | sendMsg fd a rest =>
      simp only [hpc] at hs
      split at hs <;> (obtain rfl := Option.some.inj hs; exact ⟨rfl, rfl, rfl, rfl⟩)
  | makePublishMap fds =>
      simp only [hpc] at hs
      obtain rfl := Option.some.inj hs
      exact ⟨rfl, rfl, rfl, rfl⟩
  | unsubscribe fd mods =>
      cases mods with
      | nil =>
          simp only [hpc] at hs
          obtain rfl := Option.some.inj hs
          exact ⟨rfl, rfl, rfl, rfl⟩
      | cons mod mods =>
          simp only [hpc] at hs
          obtain rfl := Option.some.inj hs
          exact ⟨rfl, rfl, rfl, rfl⟩

/-- Only the update thread moves itself. -/
theorem sameThread_step {e : Event} (hs : s.step e = some t) (he : ∀ a, e ≠ .updater a) :
    SameThread s t := by
  cases e with
  | updater a => exact absurd rfl (he a)
  | deal i =>
      simp only [DnsServer.step, Option.ite_none_right_eq_some] at hs
      obtain rfl := Option.some.inj hs.2
      exact ⟨rfl, rfl, rfl, rfl⟩
  | task i =>
      simp only [DnsServer.step, startTask, Option.ite_none_right_eq_some] at hs
      obtain rfl := Option.some.inj hs.2.2
      exact ⟨rfl, rfl, rfl, rfl⟩
  | request i fd modid cmdid =>
      simp only [DnsServer.step, Option.ite_none_right_eq_some] at hs
      obtain ⟨-, hs⟩ := hs
      unfold getReq at hs
      split at hs
      · simp only [Option.ite_none_left_eq_some] at hs
        obtain ⟨-, hs⟩ := hs
        split at hs <;> (obtain rfl := Option.some.inj hs; exact ⟨rfl, rfl, rfl, rfl⟩)
      · cases hs
  | connect i fd =>
      simp only [DnsServer.step, Option.ite_none_right_eq_some] at hs
      obtain ⟨-, hs⟩ := hs
      unfold connect at hs
      split at hs
      · cases hs
      · obtain rfl := Option.some.inj hs
        exact ⟨rfl, rfl, rfl, rfl⟩
  | close i fd =>
      simp only [DnsServer.step, Option.ite_none_right_eq_some] at hs
      obtain ⟨-, hs⟩ := hs
      unfold close at hs
      split at hs
      · simp only [Option.ite_none_right_eq_some] at hs
        obtain rfl := Option.some.inj hs.2
        exact ⟨rfl, rfl, rfl, rfl⟩
      · cases hs
  | proceed i => exact sameThread_proceed hs

/-- The update thread adds tables at the end. -/
theorem tables_prefix_updater (a : Answers) (s : DnsServer) :
    s.tables <+: (s.updater a).tables := by
  have hkeep : ∀ {p : Publisher}, p.router.data = s.publisher.router.data →
      s.tables <+: tables { s with publisher := p } := fun hdata ↦ by
    simp only [tables, hdata, List.prefix_rfl]
  have hstep : (∀ b, s.publisher.phase ≠ .swap b) →
      (s.publisher.step a).router.data = s.publisher.router.data := Publisher.step_data
  cases hp : s.publisher.phase with
  | swap b =>
      simp only [updater, hp]
      exact List.prefix_append _ _
  | publish mods =>
      have hpub := hstep (by simp [hp])
      cases hk : s.sending with
      | none =>
          simp only [updater, hp, hk]
          exact List.prefix_rfl
      | some k =>
          simp only [updater, hp, hk]
          split
          · exact List.prefix_rfl
          · exact hkeep hpub
  | checkVersion | loadRouteData | loadChangeMod | dropSynchronousMod | ended =>
      simp only [updater, hp]
      exact hkeep (hstep (by simp [hp]))

/-- Tables are only added, at the end. -/
theorem tables_prefix_of_step {e : Event} (hs : s.step e = some t) : s.tables <+: t.tables := by
  by_cases hupdater : ∃ a, e = .updater a
  · obtain ⟨a, rfl⟩ := hupdater
    obtain rfl := Option.some.inj hs
    exact tables_prefix_updater a s
  · obtain ⟨hpub, -, hpast, -⟩ := sameThread_step hs fun a ha ↦ hupdater ⟨a, ha⟩
    simp only [tables, hpub, hpast, List.prefix_rfl]

/-! ## The update thread -/

theorem TablesInv.keep (h : s.TablesInv) (htables : t.tables = s.tables)
    (hpast : t.past = s.past) (hpub : t.published = s.published)
    (hun : s.Unpublished → t.Unpublished)
    (hspare : t.Unpublished → s.Unpublished ∧ t.publisher.router.temp = s.publisher.router.temp)
    (hsends : t.sending ≠ none → ∃ mods, t.publisher.phase = .publish mods) : t.TablesInv where
  linked g old new ho hn hg := by
    rw [htables] at ho hn
    have hlinked := h.linked g old new ho hn fun e hs ↦ hg (by rw [gen, hpast]; exact e) (hun hs)
    rw [Linked, hpub]
    exact hlinked
  spare hs := by
    obtain ⟨hs, htemp⟩ := hspare hs
    rw [hpast, htemp]
    exact h.spare hs
  sends := hsends

/-- While the thread is elsewhere, everything has been published. -/
theorem not_unpublished {ph : Phase} (hph : s.publisher.phase = ph) (h₁ : ph ≠ .loadChangeMod)
    (h₂ : ∀ mods, ph ≠ .publish mods) : ¬s.Unpublished := by
  rintro (h | ⟨⟨mods, h⟩, -⟩)
  · exact h₁ (hph.symm.trans h)
  · exact h₂ mods (hph.symm.trans h)

/-- While the update thread sends tasks, nothing is left to publish. -/
theorem not_unpublished_of_sending {k : ℕ} (hph : s.publisher.phase = .publish mods)
    (hs : s.sending = some k) : ¬s.Unpublished := by
  rintro (h | ⟨-, h⟩)
  · rw [hph] at h
    cases h
  · rw [hs] at h
    cases h

theorem TablesInv.statement {p : Publisher} (h : s.TablesInv) (hs : ¬s.Unpublished)
    (hnone : s.sending = none) (hdata : p.router.data = s.publisher.router.data)
    (hp₁ : p.phase ≠ .loadChangeMod) (hp₂ : ∀ mods, p.phase ≠ .publish mods) :
    TablesInv { s with publisher := p } := by
  have ht : ¬Unpublished { s with publisher := p } := not_unpublished rfl hp₁ hp₂
  refine h.keep ?_ rfl rfl (fun h ↦ absurd h hs) (fun h ↦ absurd h ht)
    fun h ↦ absurd hnone h
  simp only [tables, hdata]

/-- Tasks are only being sent while the thread publishes. -/
theorem TablesInv.sending_eq_none (h : s.TablesInv) {ph : Phase} (hph : s.publisher.phase = ph)
    (hne : ∀ mods, ph ≠ .publish mods) : s.sending = none := by
  by_contra hs
  obtain ⟨mods, hmods⟩ := h.sends hs
  exact hne mods (hph.symm.trans hmods)

/-- The changed modules are filed for their subscribers. -/
theorem TablesInv.scan (h : s.TablesInv) (hph : s.publisher.phase = .publish mods)
    (hs : s.sending = none)
    (hc : Announces mods s.publisher.router.temp s.publisher.router.data) :
    TablesInv { s with
      sub := s.sub.publish mods
      sending := some 0
      published := (s.gen, mods) :: s.published } where
  linked g old new ho hn _ := by
    by_cases hg : s.gen = g + 1
    · -- the last swap: the table before it is the spare one
      refine .inr ⟨mods, ?_, ?_⟩
      · rw [← hg]
        exact List.mem_cons_self
      · have hspare := h.spare (.inr ⟨⟨mods, hph⟩, hs⟩)
        have hlt : g < s.past.length := by
          have : s.past.length = g + 1 := hg
          omega
        have hold : old = s.publisher.router.temp := by
          rw [List.getLast?_eq_getElem?, show s.past.length - 1 = g by
            have : s.past.length = g + 1 := hg
            omega] at hspare
          change (s.past ++ [_])[g]? = some old at ho
          rw [List.getElem?_append_left hlt, hspare] at ho
          exact (Option.some.inj ho).symm
        have hnew : new = s.publisher.router.data := by
          change (s.past ++ [_])[g + 1]? = some new at hn
          rw [List.getElem?_append_right (by rw [← hg]; exact Nat.le_refl _), ← hg] at hn
          simpa [gen] using hn.symm
        rw [hold, hnew]
        exact hc
    · rcases h.linked g old new ho hn fun e ↦ absurd e hg with hl | ⟨mods', hmem, hl⟩
      · exact .inl hl
      · exact .inr ⟨mods', List.mem_cons_of_mem _ hmem, hl⟩
  spare hs' := by
    exact absurd hs' (not_unpublished_of_sending (k := 0) hph rfl)
  sends _ := ⟨mods, hph⟩

theorem TablesInv.swap {b : Bool} (h : s.TablesInv) (hph : s.publisher.phase = .swap b)
    (hc : b = false → Announces [] s.publisher.router.data s.publisher.router.temp) :
    TablesInv { s with
      publisher := ⟨s.publisher.router.swap, if b then .loadChangeMod else .checkVersion⟩
      past := s.past ++ [s.publisher.router.data] } where
  linked g old new ho hn hg := by
    change (s.past ++ [s.publisher.router.data] ++ [s.publisher.router.temp])[g]? = _ at ho
    change (s.past ++ [s.publisher.router.data] ++ [s.publisher.router.temp])[g + 1]? = _ at hn
    have hun : ¬s.Unpublished := not_unpublished hph (by simp) (by simp)
    obtain ⟨hlt, -⟩ := List.getElem?_eq_some_iff.mp hn
    simp only [List.length_append, List.length_singleton] at hlt
    by_cases he : g + 1 = s.past.length + 1
    · -- the table that is installed now
      have hold : old = s.publisher.router.data := by
        rw [List.getElem?_append_left (by simp; omega), List.getElem?_append_right (by omega)] at ho
        simpa [show g = s.past.length by omega] using ho.symm
      have hnew : new = s.publisher.router.temp := by
        rw [List.getElem?_append_right (by simp; omega)] at hn
        simpa [show g = s.past.length by omega] using hn.symm
      subst hold hnew
      cases b with
      | false => exact .inl (hc rfl)
      | true =>
          refine absurd (.inl rfl) (hg ?_)
          simp only [gen, List.length_append, List.length_singleton]
          omega
    · rw [List.getElem?_append_left (by simp; omega)] at ho hn
      exact h.linked g old new ho hn fun _ ↦ hun
  spare _ := by rw [List.getLast?_concat]; rfl
  sends hs := absurd (h.sending_eq_none hph (by simp)) hs

/-- The update thread keeps the invariant, when it announces what it changes. -/
theorem TablesInv.updater {a : Answers} (h : s.TablesInv) (hc : s.Announced (.updater a)) :
    (s.updater a).TablesInv := by
  cases hph : s.publisher.phase with
  | publish mods =>
      cases hs : s.sending with
      | none =>
          simp only [Announced, hph, hs] at hc
          simp only [DnsServer.updater, hph, hs]
          exact h.scan hph hs hc
      | some k =>
          have hun := not_unpublished_of_sending hph hs
          simp only [DnsServer.updater, hph, hs]
          split
          · exact h.keep rfl rfl rfl (fun h ↦ absurd h hun)
              (fun h' ↦ absurd h' (not_unpublished_of_sending (k := k + 1) hph rfl))
              fun _ ↦ ⟨mods, hph⟩
          · have hstep : s.publisher.step a = ⟨s.publisher.router, .dropSynchronousMod⟩ := by
              simp only [Publisher.step, hph]
            rw [hstep]
            exact h.keep rfl rfl rfl (fun h ↦ absurd h hun)
              (fun h' ↦ absurd h' (not_unpublished rfl (by simp) (by simp))) fun h' ↦ absurd rfl h'
  | swap b =>
      have hstep : s.publisher.step a =
          ⟨s.publisher.router.swap, if b then .loadChangeMod else .checkVersion⟩ := by
        simp only [Publisher.step, hph]
      simp only [DnsServer.updater, hph, hstep]
      refine h.swap hph fun hb ↦ ?_
      subst hb
      simpa only [Announced, hph] using hc
  | loadChangeMod =>
      have hnone := h.sending_eq_none hph (by simp)
      have hstep : s.publisher.step a =
          ⟨s.publisher.router, .publish (s.publisher.router.loadChangeMod a.changes [])⟩ := by
        simp only [Publisher.step, hph]
      simp only [DnsServer.updater, hph, hstep]
      exact h.keep rfl rfl rfl (fun _ ↦ .inr ⟨⟨_, rfl⟩, hnone⟩) (fun _ ↦ ⟨.inl hph, rfl⟩)
        fun h' ↦ absurd hnone h'
  | checkVersion =>
      have hnone := h.sending_eq_none hph (by simp)
      have hdata := Publisher.step_data (a := a) (p := s.publisher) (by simp [hph])
      have hp : (s.publisher.step a).phase ≠ .loadChangeMod ∧
          ∀ mods, (s.publisher.step a).phase ≠ .publish mods := by
        have hpub : s.publisher = ⟨s.publisher.router, .checkVersion⟩ := by rw [← hph]
        rw [hpub, Publisher.step_checkVersion]
        split
        · simp
        · split
          · split <;> simp
          · simp
      simp only [DnsServer.updater, hph]
      exact h.statement (not_unpublished hph (by simp) (by simp)) hnone hdata hp.1 hp.2
  | loadRouteData publishes | dropSynchronousMod | ended =>
      have hnone := h.sending_eq_none hph (by simp)
      have hdata := Publisher.step_data (a := a) (p := s.publisher) (by simp [hph])
      simp only [DnsServer.updater, hph]
      refine h.statement (not_unpublished hph (by simp) (by simp)) hnone hdata ?_ ?_ <;>
        simp [Publisher.step, hph]

/-- The invariant holds in every run that announces what it changes. -/
theorem tablesInv_of_reachable (h : (dnsServer.restrict Announced).Reachable s) :
    s.TablesInv := by
  refine h.induction (I := TablesInv) ?_ ?_
  · rintro _ ⟨threadNum, res, rfl⟩
    refine ⟨fun g old new ho hn ↦ ?_, fun hs ↦ ?_, fun hs ↦ absurd rfl hs⟩
    · simp [tables, start] at hn
    · rcases hs with hs | ⟨⟨mods, hs⟩, -⟩ <;> cases hs
  · rintro s e t - hi ⟨hc, hst⟩
    by_cases he : ∃ a, e = .updater a
    · obtain ⟨a, rfl⟩ := he
      obtain rfl := Option.some.inj hst
      exact hi.updater hc
    · exact hi.of_same (sameThread_step hst fun a ha ↦ he ⟨a, ha⟩)

/-! ## What the subscribers have -/

variable {modid cmdid : UInt32}

/-- A table has the hosts of a module that are served, if none of the later swaps was
followed by its publication. -/
theorem TablesInv.hosts_eq (h : s.TablesInv) (hs : ¬s.Unpublished) {g : ℕ} {tab : RouterMap}
    (htab : s.tables[g]? = some tab)
    (hlate : ∀ p ∈ s.published, bookKey modid cmdid ∈ p.2 → p.1 ≤ g) :
    Hosts.of tab modid cmdid = s.publisher.router.getHosts modid cmdid := by
  obtain ⟨n, hn⟩ : ∃ n, s.gen = g + n := by
    obtain ⟨hlt, -⟩ := List.getElem?_eq_some_iff.mp htab
    rw [tables, List.length_append, List.length_singleton] at hlt
    exact Nat.exists_eq_add_of_le (Nat.le_of_lt_succ hlt)
  induction n generalizing g tab with
  | zero =>
      have hserved : s.tables[g]? = some s.publisher.router.data := by
        rw [tables, List.getElem?_append_right (by rw [← Nat.add_zero g, ← hn]; rfl)]
        rw [show g - s.past.length = 0 by rw [← Nat.add_zero g, ← hn]; exact Nat.sub_self _]
        rfl
      rw [Option.some.inj (htab.symm.trans hserved)]
      rfl
  | succ n ih =>
      obtain ⟨next, hnext⟩ : ∃ next, s.tables[g + 1]? = some next := by
        refine ⟨_, List.getElem?_eq_getElem ?_⟩
        have : s.past.length = g + (n + 1) := hn
        rw [tables, List.length_append, List.length_singleton]
        omega
      have hrest := ih hnext (fun p hp hm ↦ Nat.le_succ_of_le (hlate p hp hm)) (by omega)
      rw [← hrest]
      by_contra hne
      rcases h.linked g tab next htab hnext fun _ ↦ hs with hl | ⟨mods, hmem, hl⟩
      · exact absurd (hl modid cmdid hne) List.not_mem_nil
      · have := hlate _ hmem (hl modid cmdid hne)
        omega

/-- In a settled state in which all changes have been published, the last response on a
connection for a module that it has asked for has the hosts that are served. -/
theorem last_answer_current (h : (dnsServer.restrict Announced).Reachable s) (hs : s.Settled)
    (hpub : ¬s.Unpublished) (hc : s.conns[fd]? = some c)
    (hlive : ¬(s.workers c.worker).pc.Closes fd) (hreq : bookKey modid cmdid ∈ c.modSet)
    {a : Answer} (ha : c.last (bookKey modid cmdid) = some a) :
    a.res = routeResponse modid cmdid (s.publisher.router.getHosts modid cmdid) := by
  have hci := (inv_of_reachable h.of_restrict).conn fd c hc
  obtain ⟨hmem, hmod⟩ := List.mem_filter.mp (List.mem_of_getLast? ha)
  obtain ⟨tab, htab, hres⟩ := hci.genuine a hmem
  obtain ⟨rfl, rfl⟩ : a.res.modid = modid ∧ a.res.cmdid = cmdid := pack_inj (of_decide_eq_true hmod)
  rw [hres, ← (tablesInv_of_reachable h).hosts_eq hpub htab fun p hp hm ↦ ?_]
  · rfl
  · obtain ⟨a', ha', hg⟩ := (hci.covered hlive p hp _ hm hreq).fresh hs hci.inRange
    rwa [Option.some.inj (ha.symm.trans ha')]

end DnsServer

end Ylars.Dns
