import Ylars.Dns.PushTarget

/-!
# Only what has been asked for is answered

A worker sends the response for a module because a connection has asked for it, because the
connection subscribed to it, or because an earlier connection with the same descriptor did.
So when all requests are for modules in a set `P`, all responses are, on every connection
and whatever the update thread publishes (`DnsServer.within_of_reachable`).
-/

namespace Ylars.Dns

open Std (ExtTreeMap ExtTreeSet)
open Ylars.Lib

/-- A request is for a module in `P`. -/
def Event.Asks (P : UInt64 → Prop) : Event → Prop
  | .request _ _ modid cmdid => P (bookKey modid cmdid)
  | _ => True

namespace DnsServer

/-- What is subscribed, filed, in hand and buffered is for modules in `P`. -/
structure Within (P : UInt64 → Prop) (s : DnsServer) : Prop where
  book : ∀ (fd : Int) (m : UInt64), fd ∈ MultiMap.lookup s.sub.bookList m → P m
  push : ∀ (fd : Int) (m : UInt64), m ∈ MultiMap.lookup s.sub.pushList fd → P m
  sends : ∀ (i : ℕ) (fd : Int) (m : UInt64), (s.workers i).pc.Sends fd m → P m
  sent : ∀ (fd : Int) (c : Conn), s.conns[fd]? = some c → ∀ a ∈ c.answers, P a.mod

variable {P : UInt64 → Prop} {s t : DnsServer} {fd : Int} {i : ℕ} {w : Worker} {e : Event}
  {conns : ExtTreeMap Int Conn} {sub : SubscribeList}

theorem Within.after (h : s.Within P)
    (hbook : ∀ (fd : Int) (m : UInt64), fd ∈ MultiMap.lookup sub.bookList m → P m)
    (hpush : ∀ (fd : Int) (m : UInt64), m ∈ MultiMap.lookup sub.pushList fd → P m)
    (hsends : ∀ fd m, w.pc.Sends fd m → P m)
    (hsent : ∀ (fd : Int) (c : Conn), conns[fd]? = some c → ∀ a ∈ c.answers, P a.mod) :
    (s.after i w conns sub).Within P where
  book := hbook
  push := hpush
  sends j fd m hm := by
    by_cases hj : j = i
    · subst hj
      rw [after_workers_self] at hm
      exact hsends fd m hm
    · rw [after_workers_ne hj] at hm
      exact h.sends j fd m hm
  sent := hsent

theorem Within.move (h : s.Within P) (hsends : ∀ fd m, w.pc.Sends fd m → P m) :
    (s.after i w s.conns s.sub).Within P :=
  h.after h.book h.push hsends h.sent

theorem Within.insert (h : s.Within P) {c : Conn} (hc : ∀ a ∈ c.answers, P a.mod) :
    ∀ (fd' : Int) (c' : Conn), (s.conns.insert fd c)[fd']? = some c' →
      ∀ a ∈ c'.answers, P a.mod := by
  intro fd' c' hget
  rw [Table.getElem?_insert] at hget
  split at hget
  · obtain rfl := Option.some.inj hget
    exact hc
  · exact h.sent fd' c' hget

/-- The update thread publishes to those who have subscribed. -/
theorem Within.updater (h : s.Within P) (a : Answers) : (s.updater a).Within P := by
  unfold DnsServer.updater
  split
  · refine ⟨h.book, fun fd m hm ↦ ?_, h.sends, h.sent⟩
    exact (SubscribeList.mem_pushList_publish.mp hm).elim (h.push fd m) fun hm ↦ h.book fd m hm.2
  · split
    · refine ⟨h.book, h.push, fun i fd m hm ↦ h.sends i fd m ?_, h.sent⟩
      simp only [setWorker, Function.update_apply] at hm
      split at hm
      · rename_i hi
        rwa [hi]
      · exact hm
    · exact ⟨h.book, h.push, h.sends, h.sent⟩
  · exact ⟨h.book, h.push, h.sends, h.sent⟩
  · exact ⟨h.book, h.push, h.sends, h.sent⟩

/-- A worker goes on with what it has in hand. -/
theorem Within.proceed (h : s.Within P) (hi : s.Inv) (hs : s.proceed i = some t) :
    t.Within P := by
  cases hi.proceeds hs with
  | @subscribe fd modid cmdid hpc =>
      have hm : P (bookKey modid cmdid) := h.sends i fd _ (by rw [hpc]; exact ⟨rfl, rfl⟩)
      refine h.after (fun fd' m' hm' ↦ ?_) h.push ?_ h.sent
      · rcases SubscribeList.mem_bookList_subscribe.mp hm' with hm' | ⟨rfl, -⟩
        · exact h.book fd' m' hm'
        · exact hm
      · rintro fd' m' (⟨-, rfl⟩ | hrest)
        · exact hm
        · cases hrest
  | @getHosts fd modid cmdid rest hpc =>
      refine h.move fun fd' m' hm ↦ h.sends i fd' m' ?_
      rw [hpc]
      exact hm
  | @sendMsg fd a rest c hpc hc =>
      refine h.after h.book h.push (fun fd' m' hm ↦ h.sends i fd' m' ?_) (h.insert fun a' ha ↦ ?_)
      · rw [hpc]
        exact .inr (Pc.sends_next hm)
      · rcases List.mem_append.mp ha with ha | ha
        · exact h.sent fd c hc a' ha
        · obtain rfl := List.mem_singleton.mp ha
          exact h.sends i fd a'.mod (by rw [hpc]; exact .inl ⟨rfl, rfl⟩)
  | @makePublishMap fds hpc =>
      refine h.after h.book (fun fd' m' hm ↦ ?_) (fun fd' m' hm ↦ ?_) h.sent
      · exact h.push fd' m' (SubscribeList.mem_pushList_makePublishMap.mp hm).2
      · exact h.push fd' m' (SubscribeList.mem_needPublish.mp (Pc.sends_next hm)).2
  | @unsubscribe fd mod mods hpc =>
      refine h.after (fun fd' m' hm ↦ ?_) h.push (fun fd' m' hm ↦ by cases hm) h.sent
      exact h.book fd' m' (SubscribeList.mem_bookList_unsubscribe.mp hm).1
  | @erase fd hpc =>
      refine h.after h.book h.push (fun fd' m' hm ↦ by cases hm) fun fd' c hc ↦ ?_
      rw [Table.getElem?_erase] at hc
      split at hc
      · cases hc
      · exact h.sent fd' c hc

theorem Within.step (h : s.Within P) (hi : s.Inv) (he : e.Asks P) (hs : s.step e = some t) :
    t.Within P := by
  cases e with
  | updater a =>
      obtain rfl := Option.some.inj hs
      exact h.updater a
  | deal i =>
      simp only [DnsServer.step, Option.ite_none_right_eq_some] at hs
      obtain rfl := Option.some.inj hs.2
      exact h.move fun fd m hm ↦ h.sends i fd m hm
  | task i =>
      simp only [DnsServer.step, startTask, Option.ite_none_right_eq_some] at hs
      obtain rfl := Option.some.inj hs.2.2
      exact h.move fun fd m hm ↦ by cases hm
  | request i fd modid cmdid =>
      simp only [DnsServer.step, Option.ite_none_right_eq_some] at hs
      obtain ⟨-, hs⟩ := hs
      unfold getReq at hs
      split at hs
      · rename_i c hc
        simp only [Option.ite_none_left_eq_some] at hs
        obtain ⟨-, hs⟩ := hs
        split at hs
        · obtain rfl := Option.some.inj hs
          refine h.move ?_
          rintro fd' m' (⟨-, rfl⟩ | hrest)
          · exact he
          · cases hrest
        · obtain rfl := Option.some.inj hs
          refine h.after h.book h.push ?_ (h.insert (h.sent fd c hc))
          rintro fd' m' ⟨-, rfl⟩
          exact he
      · cases hs
  | connect i fd =>
      simp only [DnsServer.step, Option.ite_none_right_eq_some] at hs
      obtain ⟨-, hs⟩ := hs
      unfold connect at hs
      split at hs
      · cases hs
      · obtain rfl := Option.some.inj hs
        exact h.after h.book h.push (fun fd' m' hm ↦ h.sends i fd' m' hm)
          (h.insert fun a ha ↦ absurd ha List.not_mem_nil)
  | close i fd =>
      simp only [DnsServer.step, Option.ite_none_right_eq_some] at hs
      obtain ⟨-, hs⟩ := hs
      unfold close at hs
      split at hs
      · simp only [Option.ite_none_right_eq_some] at hs
        obtain rfl := Option.some.inj hs.2
        exact h.move fun fd' m' hm ↦ by cases hm
      · cases hs
  | proceed i => exact h.proceed hi hs

/-- In a run with requests for modules in `P` only, all responses are for modules in `P`. -/
theorem within_of_reachable (h : (dnsServer.restrict fun _ e ↦ e.Asks P).Reachable s) :
    s.Within P := by
  refine h.induction (I := Within P) ?_ ?_
  · rintro s ⟨threadNum, res, rfl⟩
    refine ⟨fun fd m hm ↦ ?_, fun fd m hm ↦ ?_, fun i fd m hm ↦ ?_, fun fd c hc ↦ ?_⟩
    · exact absurd hm MultiMap.notMem_lookup_empty
    · exact absurd hm MultiMap.notMem_lookup_empty
    · cases hm
    · cases ExtTreeMap.getElem?_empty.symm.trans hc
  · rintro s e t hr hi ⟨he, hst⟩
    exact hi.step (inv_of_reachable hr.of_restrict) he hst

end DnsServer

end Ylars.Dns
