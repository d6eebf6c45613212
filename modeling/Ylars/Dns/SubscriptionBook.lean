import Mathlib.Logic.Function.Basic
import Ylars.Dns.Subscribe
import Ylars.Fault
import Ylars.Lib.Transition

/-!
# The subscription book

A connection has the set of the modules it has asked for, its `param`, and `_book_list`
has, for each module, the descriptors of the connections that have asked for it.  Three
hooks of `dns_service.cpp` keep the two: `create_subscribe` when a connection starts,
`get_req` at each request, and `clean_subscribe` when it ends.

A connection is an object with its own identity; its descriptor is that of another
connection once it has ended.
-/

namespace Ylars.Dns

open Std (ExtTreeSet)
open Ylars.Lib Ylars.Proto

/-- What the hooks use of a connection: its descriptor, and `param`, which is a
`conn_mod_set_t` or null. -/
structure ConnBase where
  fd : Int
  param : Option (ExtTreeSet UInt64)

/-- `create_subscribe`. -/
def createSubscribe (conn : ConnBase) : ConnBase := { conn with param := some ∅ }

/-- The part of `get_req` that subscribes. -/
def getReqSubscribe (modid cmdid : UInt32) (conn : ConnBase) (sub : SubscribeList) :
    ConnBase × SubscribeList :=
  let mod := bookKey modid cmdid
  match conn.param with
  | none => (conn, sub)
  | some modSet =>
      if mod ∈ modSet then (conn, sub)
      else ({ conn with param := some (modSet.insert mod) }, sub.subscribe mod conn.fd)

/-- `clean_subscribe`. -/
def cleanSubscribe (conn : ConnBase) (sub : SubscribeList) : Outcome (ConnBase × SubscribeList) :=
  match conn.param with
  | none => .error .nullDeref
  | some modSet =>
      .ok ({ conn with param := none },
        modSet.toList.foldl (fun sub mod ↦ sub.unsubscribe mod conn.fd) sub)

/-- The connections of the server, by their identity, and the subscriptions. -/
structure Subscriptions where
  conns : ℕ → Option ConnBase
  sub : SubscribeList

namespace Subscriptions

/-- What happens to the subscriptions. -/
inductive Op where
  /-- A connection starts, with a descriptor from the kernel. -/
  | start (c : ℕ) (fd : Int)
  /-- A `GetRouteRequest` arrives. -/
  | request (c : ℕ) (modid cmdid : UInt32)
  /-- A connection ends. -/
  | finish (c : ℕ)
  /-- The update thread publishes. -/
  | publish (changeMods : List UInt64)
  /-- A worker takes what is to be sent. -/
  | makePublishMap (fds : ExtTreeSet Int)

/-- Before the first connection. -/
def new : Subscriptions where
  conns := fun _ ↦ none
  sub := { bookList := ∅, pushList := ∅ }

/-- No connection has the descriptor. -/
def Free (fd : Int) (s : Subscriptions) : Prop := ∀ c conn, s.conns c = some conn → conn.fd ≠ fd

/-- One operation.  The kernel hands out no descriptor that is in use. -/
inductive Step : Subscriptions → Op → Subscriptions → Prop
  | start {s : Subscriptions} (c : ℕ) (fd : Int) : s.conns c = none → s.Free fd →
      Step s (.start c fd)
        { s with conns := Function.update s.conns c (some (createSubscribe ⟨fd, none⟩)) }
  | request {s : Subscriptions} {c : ℕ} {conn : ConnBase} (modid cmdid : UInt32) :
      s.conns c = some conn →
      Step s (.request c modid cmdid)
        { conns := Function.update s.conns c (some (getReqSubscribe modid cmdid conn s.sub).1)
          sub := (getReqSubscribe modid cmdid conn s.sub).2 }
  | finish {s : Subscriptions} {c : ℕ} {conn conn' : ConnBase} {sub : SubscribeList} :
      s.conns c = some conn → cleanSubscribe conn s.sub = .ok (conn', sub) →
      Step s (.finish c) { conns := Function.update s.conns c none, sub := sub }
  | publish {s : Subscriptions} (changeMods : List UInt64) :
      Step s (.publish changeMods) { s with sub := s.sub.publish changeMods }
  | makePublishMap {s : Subscriptions} (fds : ExtTreeSet Int) :
      Step s (.makePublishMap fds) { s with sub := (s.sub.makePublishMap fds).2 }

end Subscriptions

/-- The runs of the hooks. -/
def subscriptions : LTS Subscriptions Subscriptions.Op where
  init s := s = .new
  step := Subscriptions.Step

namespace Subscriptions

/-- The descriptor belongs to a connection that has asked for the module. -/
def Asked (s : Subscriptions) (fd : Int) (m : UInt64) : Prop :=
  ∃ c conn modSet, s.conns c = some conn ∧ conn.fd = fd ∧ conn.param = some modSet ∧ m ∈ modSet

/-- Connections and book say the same. -/
structure Mirrored (s : Subscriptions) : Prop where
  /-- No two connections have one descriptor. -/
  fd_inj : ∀ c c' conn conn', s.conns c = some conn → s.conns c' = some conn' →
    conn.fd = conn'.fd → c = c'
  /-- Every connection has a set. -/
  param : ∀ c conn, s.conns c = some conn → ∃ modSet, conn.param = some modSet
  /-- The book lists what the connections have asked for. -/
  book : ∀ m fd, fd ∈ MultiMap.lookup s.sub.bookList m ↔ s.Asked fd m
  /-- No module is listed without a descriptor. -/
  proper : s.sub.bookList.Proper

variable {s s' : Subscriptions}

/-! ## The hooks -/

/-- Ending a connection takes its descriptor out of the listed modules. -/
theorem mem_bookList_foldl_unsubscribe {fd f : Int} {m : UInt64} (mods : List UInt64) :
    ∀ sub : SubscribeList,
      f ∈ MultiMap.lookup
          (mods.foldl (fun sub mod ↦ sub.unsubscribe mod fd) sub).bookList m ↔
        f ∈ MultiMap.lookup sub.bookList m ∧ ¬(m ∈ mods ∧ f = fd) := by
  induction mods with
  | nil => simp
  | cons mod mods ih =>
      intro sub
      rw [List.foldl_cons, ih, SubscribeList.mem_bookList_unsubscribe, List.mem_cons]
      tauto

theorem proper_foldl_unsubscribe {fd : Int} (mods : List UInt64) :
    ∀ sub : SubscribeList, sub.bookList.Proper →
      (mods.foldl (fun sub mod ↦ sub.unsubscribe mod fd) sub).bookList.Proper := by
  induction mods with
  | nil => exact fun _ h ↦ h
  | cons mod mods ih => exact fun sub h ↦ ih _ h.eraseAt

theorem Mirrored.of_book (h : s.Mirrored) {sub : SubscribeList}
    (hb : sub.bookList = s.sub.bookList) : Mirrored { s with sub := sub } := by
  obtain ⟨hfd, hparam, hbook, hproper⟩ := h
  exact ⟨hfd, hparam, by rw [hb]; exact hbook, by rw [hb]; exact hproper⟩

theorem update_eq_some {conns : ℕ → Option ConnBase} {c c₁ : ℕ} {x : Option ConnBase}
    {conn : ConnBase} : Function.update conns c x c₁ = some conn ↔
      (c₁ = c ∧ x = some conn) ∨ (c₁ ≠ c ∧ conns c₁ = some conn) := by
  by_cases e : c₁ = c
  · subst e
    simp
  · simp [e]

namespace Mirrored

/-- A connection starts with nothing asked for. -/
theorem start (h : s.Mirrored) {c : ℕ} {fd : Int} (hc : s.conns c = none) (hfd : s.Free fd) :
    Mirrored
      { s with conns := Function.update s.conns c (some (createSubscribe ⟨fd, none⟩)) } := by
  constructor
  case fd_inj =>
    intro c₁ c₂ conn₁ conn₂ h₁ h₂ he
    rcases update_eq_some.mp h₁ with ⟨rfl, e₁⟩ | ⟨-, h₁'⟩ <;>
      rcases update_eq_some.mp h₂ with ⟨rfl, e₂⟩ | ⟨-, h₂'⟩
    · rfl
    · obtain rfl := Option.some.inj e₁
      exact absurd he.symm (hfd c₂ conn₂ h₂')
    · obtain rfl := Option.some.inj e₂
      exact absurd he (hfd c₁ conn₁ h₁')
    · exact h.fd_inj c₁ c₂ conn₁ conn₂ h₁' h₂' he
  case param =>
    intro c₁ conn₁ h₁
    rcases update_eq_some.mp h₁ with ⟨rfl, e₁⟩ | ⟨-, h₁⟩
    · obtain rfl := Option.some.inj e₁
      exact ⟨∅, rfl⟩
    · exact h.param c₁ conn₁ h₁
  case book =>
    intro m f
    rw [h.book m f]
    constructor
    · rintro ⟨c₁, conn₁, modSet, h₁, hf, hp, hm⟩
      refine ⟨c₁, conn₁, modSet, update_eq_some.mpr (.inr ⟨?_, h₁⟩), hf, hp, hm⟩
      rintro rfl
      rw [hc] at h₁
      cases h₁
    · rintro ⟨c₁, conn₁, modSet, h₁, hf, hp, hm⟩
      rcases update_eq_some.mp h₁ with ⟨rfl, e₁⟩ | ⟨-, h₁⟩
      · obtain rfl := Option.some.inj e₁
        obtain rfl := Option.some.inj hp
        exact absurd hm MultiMap.notMem_empty
      · exact ⟨c₁, conn₁, modSet, h₁, hf, hp, hm⟩
  case proper => exact h.proper

/-- A request is filed on both sides, or is on both sides already. -/
theorem request (h : s.Mirrored) {c : ℕ} {conn : ConnBase} (hc : s.conns c = some conn)
    (modid cmdid : UInt32) :
    Mirrored
      { conns := Function.update s.conns c (some (getReqSubscribe modid cmdid conn s.sub).1)
        sub := (getReqSubscribe modid cmdid conn s.sub).2 } := by
  obtain ⟨modSet, hparam⟩ := h.param c conn hc
  by_cases hm : bookKey modid cmdid ∈ modSet
  · simp only [getReqSubscribe, hparam, hm, if_true]
    rwa [← hc, Function.update_eq_self]
  · simp only [getReqSubscribe, hparam, hm, if_false]
    constructor
    case fd_inj =>
      -- the descriptors are the same as before
      have hfd : ∀ c₁ conn₁, Function.update s.conns c
          (some { conn with param := some (modSet.insert (bookKey modid cmdid)) }) c₁ =
            some conn₁ → ∃ conn₀, s.conns c₁ = some conn₀ ∧ conn₀.fd = conn₁.fd := by
        intro c₁ conn₁ h₁
        rcases update_eq_some.mp h₁ with ⟨rfl, e₁⟩ | ⟨-, h₁⟩
        · obtain rfl := Option.some.inj e₁
          exact ⟨conn, hc, rfl⟩
        · exact ⟨conn₁, h₁, rfl⟩
      intro c₁ c₂ conn₁ conn₂ h₁ h₂ he
      obtain ⟨conn₁', h₁', e₁⟩ := hfd c₁ conn₁ h₁
      obtain ⟨conn₂', h₂', e₂⟩ := hfd c₂ conn₂ h₂
      exact h.fd_inj c₁ c₂ _ _ h₁' h₂' (by rw [e₁, e₂, he])
    case param =>
      intro c₁ conn₁ h₁
      rcases update_eq_some.mp h₁ with ⟨rfl, e₁⟩ | ⟨-, h₁⟩
      · obtain rfl := Option.some.inj e₁
        exact ⟨_, rfl⟩
      · exact h.param c₁ conn₁ h₁
    case book =>
      intro m f
      rw [SubscribeList.mem_bookList_subscribe, h.book]
      constructor
      · rintro (⟨c₁, conn₁, modSet₁, h₁, hf, hp, hm₁⟩ | ⟨rfl, rfl⟩)
        · by_cases e : c₁ = c
          · subst e
            obtain rfl := Option.some.inj (hc.symm.trans h₁)
            obtain rfl := Option.some.inj (hparam.symm.trans hp)
            exact ⟨c₁, _, _, update_eq_some.mpr (.inl ⟨rfl, rfl⟩), hf, rfl,
              ExtTreeSet.mem_insert.mpr (.inr hm₁)⟩
          · exact ⟨c₁, conn₁, modSet₁, update_eq_some.mpr (.inr ⟨e, h₁⟩), hf, hp, hm₁⟩
        · exact ⟨c, _, _, update_eq_some.mpr (.inl ⟨rfl, rfl⟩), rfl, rfl,
            ExtTreeSet.mem_insert_self⟩
      · rintro ⟨c₁, conn₁, modSet₁, h₁, hf, hp, hm₁⟩
        rcases update_eq_some.mp h₁ with ⟨rfl, e₁⟩ | ⟨-, h₁⟩
        · obtain rfl := Option.some.inj e₁
          obtain rfl := Option.some.inj hp
          rw [ExtTreeSet.mem_insert, Std.compare_eq_iff_eq] at hm₁
          rcases hm₁ with rfl | hm₁
          · exact .inr ⟨rfl, hf.symm⟩
          · exact .inl ⟨c₁, conn, modSet, hc, hf, hparam, hm₁⟩
        · exact .inl ⟨c₁, conn₁, modSet₁, h₁, hf, hp, hm₁⟩
    case proper => exact h.proper.insertAt

/-- The end of a connection never finds a null set. -/
theorem exists_cleanSubscribe (h : s.Mirrored) {c : ℕ} {conn : ConnBase}
    (hc : s.conns c = some conn) :
    ∃ modSet, conn.param = some modSet ∧ cleanSubscribe conn s.sub =
      .ok ({ conn with param := none },
        modSet.toList.foldl (fun sub mod ↦ sub.unsubscribe mod conn.fd) s.sub) := by
  obtain ⟨modSet, hparam⟩ := h.param c conn hc
  exact ⟨modSet, hparam, by rw [cleanSubscribe, hparam]⟩

/-- A connection that ends is taken out on both sides. -/
theorem finish (h : s.Mirrored) {c : ℕ} {conn conn' : ConnBase} {sub : SubscribeList}
    (hc : s.conns c = some conn) (hclean : cleanSubscribe conn s.sub = .ok (conn', sub)) :
    Mirrored { conns := Function.update s.conns c none, sub := sub } := by
  obtain ⟨modSet, hparam, hok⟩ := h.exists_cleanSubscribe hc
  obtain ⟨-, rfl⟩ := Prod.mk.inj (Except.ok.inj (hok.symm.trans hclean))
  have hlive : ∀ c₁ conn₁, Function.update s.conns c none c₁ = some conn₁ →
      c₁ ≠ c ∧ s.conns c₁ = some conn₁ := by
    intro c₁ conn₁ h₁
    rcases update_eq_some.mp h₁ with ⟨-, e₁⟩ | h₁
    · cases e₁
    · exact h₁
  constructor
  case fd_inj =>
    intro c₁ c₂ conn₁ conn₂ h₁ h₂
    exact h.fd_inj c₁ c₂ conn₁ conn₂ (hlive c₁ conn₁ h₁).2 (hlive c₂ conn₂ h₂).2
  case param =>
    intro c₁ conn₁ h₁
    exact h.param c₁ conn₁ (hlive c₁ conn₁ h₁).2
  case book =>
    intro m f
    rw [mem_bookList_foldl_unsubscribe, h.book, ExtTreeSet.mem_toList]
    constructor
    · rintro ⟨⟨c₁, conn₁, modSet₁, h₁, hf, hp, hm⟩, hno⟩
      refine ⟨c₁, conn₁, modSet₁, update_eq_some.mpr (.inr ⟨?_, h₁⟩), hf, hp, hm⟩
      rintro rfl
      obtain rfl := Option.some.inj (hc.symm.trans h₁)
      obtain rfl := Option.some.inj (hparam.symm.trans hp)
      exact hno ⟨hm, hf.symm⟩
    · rintro ⟨c₁, conn₁, modSet₁, h₁, hf, hp, hm⟩
      obtain ⟨hne, h₁⟩ := hlive c₁ conn₁ h₁
      refine ⟨⟨c₁, conn₁, modSet₁, h₁, hf, hp, hm⟩, ?_⟩
      -- another live connection has another descriptor
      rintro ⟨-, rfl⟩
      exact hne (h.fd_inj c₁ c conn₁ conn h₁ hc hf)
  case proper => exact proper_foldl_unsubscribe _ _ h.proper

/-- Every operation keeps connections and book the same. -/
theorem step (h : s.Mirrored) {op : Op} (hst : Step s op s') : s'.Mirrored := by
  cases hst with
  | start c fd hc hfd => exact h.start hc hfd
  | request modid cmdid hc => exact h.request hc modid cmdid
  | finish hc hclean => exact h.finish hc hclean
  | publish changeMods => exact h.of_book rfl
  | makePublishMap fds => exact h.of_book rfl

end Mirrored

/-- Before the first connection the book is empty. -/
theorem mirrored_new : Subscriptions.new.Mirrored where
  fd_inj _ _ _ _ h := by cases h
  param _ _ h := by cases h
  book m fd := by
    constructor
    · intro h
      exact absurd h MultiMap.notMem_lookup_empty
    · rintro ⟨c, conn, modSet, h, -⟩
      cases h
  proper := .empty

theorem mirrored_of_reachable (h : subscriptions.Reachable s) : s.Mirrored :=
  h.induction (fun _ hi ↦ hi ▸ mirrored_new) fun _ _ _ _ hi hst ↦ hi.step hst

/-- **The subscription book.**  In every run, between two operations, a descriptor is listed
under a module if and only if it belongs to a live connection whose set has the module, and
no module is listed without a descriptor.  Ending a connection succeeds, and leaves its
descriptor under no module. -/
theorem book_mirrors_conns (h : subscriptions.Reachable s) :
    (∀ m fd, fd ∈ MultiMap.lookup s.sub.bookList m ↔ s.Asked fd m) ∧
      s.sub.bookList.Proper ∧
      ∀ c conn, s.conns c = some conn →
        (∃ s', Step s (.finish c) s') ∧
        ∀ s', Step s (.finish c) s' → ∀ m, conn.fd ∉ MultiMap.lookup s'.sub.bookList m := by
  have hm := mirrored_of_reachable h
  refine ⟨hm.book, hm.proper, fun c conn hc ↦ ⟨?_, fun s' hst m hin ↦ ?_⟩⟩
  · obtain ⟨modSet, -, hok⟩ := hm.exists_cleanSubscribe hc
    exact ⟨_, .finish hc hok⟩
  · obtain ⟨c₁, conn₁, modSet, h₁, hf, -⟩ := ((hm.step hst).book m conn.fd).mp hin
    cases hst with
    | finish hc' hclean =>
        rcases update_eq_some.mp h₁ with ⟨-, e₁⟩ | ⟨hne, h₁⟩
        · cases e₁
        · exact hne (hm.fd_inj c₁ c conn₁ conn h₁ hc hf)

/-- A connection asks for a module twice and ends, and its descriptor goes to another one,
which asks for another module. -/
theorem book_mirrors_conns_reused :
    ∃ s, subscriptions.Reachable s ∧ (∃ conn, s.conns 1 = some conn ∧ conn.fd = 5) ∧
      (∀ m fd, fd ∈ MultiMap.lookup s.sub.bookList m ↔ s.Asked fd m) ∧
      s.sub.bookList.Proper ∧ 5 ∈ MultiMap.lookup s.sub.bookList (bookKey 1 2) ∧
      5 ∉ MultiMap.lookup s.sub.bookList (bookKey 1 1) := by
  obtain ⟨s₁, h₁, hnone⟩ : ∃ s, subscriptions.Reachable s ∧ ∀ c, s.conns c = none := by
    have h₁ : subscriptions.Reachable _ := .step (.init rfl)
      (Step.start 0 5 rfl fun _ _ h ↦ by cases h)
    have h₂ : subscriptions.Reachable _ := h₁.step (Step.request 1 1 (Function.update_self ..))
    have h₃ : subscriptions.Reachable _ := h₂.step (Step.request 1 1 (Function.update_self ..))
    refine ⟨_, h₃.step (Step.finish (Function.update_self ..) rfl), fun c ↦ ?_⟩
    by_cases e : c = 0
    · rw [e]
      rfl
    · simp [new, e]
  obtain ⟨s, h, hconn, hother⟩ : ∃ s, subscriptions.Reachable s ∧
      s.conns 1 = some ⟨5, some ((∅ : ExtTreeSet UInt64).insert (bookKey 1 2))⟩ ∧
        ∀ c, c ≠ 1 → s.conns c = none := by
    have h₂ : subscriptions.Reachable _ := h₁.step
      (Step.start 1 5 (hnone 1) fun c _ h ↦ by rw [hnone c] at h; cases h)
    have h₃ : subscriptions.Reachable _ := h₂.step (Step.request 1 2 (Function.update_self ..))
    refine ⟨_, h₃, ?_, fun c hc ↦ ?_⟩
    · simp [getReqSubscribe, createSubscribe]
    · simp [hc, hnone]
  obtain ⟨hbook, hproper, -⟩ := book_mirrors_conns h
  refine ⟨s, h, ⟨_, hconn, rfl⟩, hbook, hproper, ?_, fun hmem ↦ ?_⟩
  · exact (hbook _ _).mpr ⟨1, _, _, hconn, rfl, rfl, ExtTreeSet.mem_insert_self⟩
  · obtain ⟨c, conn, modSet, hc, -, hparam, hin⟩ := (hbook _ _).mp hmem
    obtain rfl : c = 1 := by
      by_contra hne
      cases (hother c hne).symm.trans hc
    obtain rfl := Option.some.inj (hconn.symm.trans hc)
    obtain rfl := Option.some.inj hparam
    rw [ExtTreeSet.mem_insert] at hin
    exact absurd hin (by decide)

end Subscriptions

end Ylars.Dns
