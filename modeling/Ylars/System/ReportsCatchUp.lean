import Mathlib.Data.Prod.Lex
import Ylars.Reactor.LinkDrain
import Ylars.Reporter.WriterWork
import Ylars.System.ReportFlow

/-!
# The reports come through

When no client reports any more, what is left to do is to send the status reports that wait, to
move their bytes over the connection, and to execute their statements.  A step of one stage
gives work only to the stages behind it, so all of it comes to an end, in every order.  Then
nothing is on its way, and the rows follow all status reports that have been committed
(`rows_catch_up`).

The report queue has a listener as soon as the connection is there (`conn2_report_ser`), so the
queue is read only then.
-/

namespace Ylars.System

open Ylars.Lib Ylars.Lib.Overwrite
open Ylars.Proto Ylars.Reactor Ylars.Agent Ylars.Api Ylars.Reporter

/-- No call on the connection fails. -/
def FlowEvent.Smooth : FlowEvent → Prop
  | .writable soError res => LinkOp.Smooth (.writable soError res)
  | _ => True

/-- The step of the connection that an event is. -/
def FlowEvent.linkOp : FlowEvent → Option LinkOp
  | .writable soError res => some (.writable soError res)
  | .deliver p chunk => some (.deliver p chunk)
  | _ => none

/-- The step of the reporter that an event is. -/
def FlowEvent.reportEvent : FlowEvent → Option ReportEvent
  | .writerTasks i => some (.recvTasks i)
  | .execute i => some (.execute i)
  | _ => none

namespace ReportFlow

variable {κ : Type}

/-- What a step that is no operation of a `route_lb` does. -/
inductive Handles (cnt : ℕ) (s : ReportFlow κ) : FlowEvent → ReportFlow κ → Prop
  | recvTasks (htasks : s.tasks = []) :
      Handles cnt s .recvTasks { s with tasks := s.queue, queue := [] }
  | sendTask {p₁ p₂ : AmplePool} {rep : ReportStatusReq} {tasks : List ReportStatusReq}
      {link : Link} (htasks : s.tasks = rep :: tasks)
      (hlink : s.link.step (.send p₁ p₂ (reportMsg rep)) = .ok link) :
      Handles cnt s (.sendTask p₁ p₂) { s with tasks := tasks, link := link }
  | move {e : FlowEvent} {op : LinkOp} {link : Link} {reporter : ReportServer κ}
      (he : e.linkOp = some op) (hen : s.link.Enabled op) (hlink : s.link.step op = .ok link) :
      Handles cnt s e { s with link := link, reporter := reporter }
  | report {e : FlowEvent} {e' : ReportEvent} {reporter : ReportServer κ}
      (he : e.reportEvent = some e') (hreporter : s.reporter.step cnt e' = some reporter) :
      Handles cnt s e { s with reporter := reporter }

/-- Whether an event is work that is left: a callback for which `epoll_wait` finds something, a
task that has been taken, or a statement. -/
def Works (s : ReportFlow κ) : FlowEvent → Prop
  | .op _ => False
  | .recvTasks => s.queue ≠ [] ∧
      s.link.client.loop.writeCallback s.link.client.sockfd ≠ some .connectSer
  | .sendTask _ _ => True
  | .writable soError res => s.link.Moves (.writable soError res)
  | .deliver p chunk => s.link.Moves (.deliver p chunk)
  | .writerTasks i => s.reporter.Works (.recvTasks i)
  | .execute i => s.reporter.Works (.execute i)

/-- The rank: the status reports that wait come first, then the bytes, then the statements. -/
def rank (cnt : ℕ) (s : ReportFlow κ) : ℕ ×ₗ ℕ ×ₗ ℕ :=
  toLex (2 * s.queue.length + s.tasks.length, toLex (s.link.rank, s.reporter.workLeft cnt))

end ReportFlow

/-- The runs over a new connection in which no call on it fails, and in which no module has more
than `maxHosts` hosts. -/
def reporting (κ : Type) (cfg : LoadBalanceConfig) (cnt start : ℕ) (table : StatusTable) :
    LTS (ReportFlow κ) FlowEvent where
  init s := s.Initial start table ∧ s.link.Fresh
  step s e t := (FewHosts e ∧ e.Smooth) ∧ s.step cfg cnt e = some t

/-- The runs in which no client reports any more. -/
def reportWork (κ : Type) (cfg : LoadBalanceConfig) (cnt start : ℕ) (table : StatusTable) :
    LTS (ReportFlow κ) FlowEvent :=
  (reportFlow κ cfg cnt start table).restrict ReportFlow.Works

/-- What these runs keep. -/
structure FlowSteady {κ : Type} (cfg : LoadBalanceConfig) (cnt start : ℕ) (table : StatusTable)
    (s : ReportFlow κ) : Prop where
  flow : FlowInv cfg cnt start table s
  link : s.link.Attended

variable {κ : Type} {cfg : LoadBalanceConfig} {cnt start : ℕ} {table : StatusTable}
  {s t : ReportFlow κ} {e : FlowEvent}

/-! ## The runs -/

theorem handles_of_step (hst : s.step cfg cnt e = some t) :
    (∃ a, e = .op a) ∧ t.link = s.link ∨ s.Handles cnt e t := by
  cases e with
  | op a =>
      simp only [ReportFlow.step] at hst
      split at hst
      · cases hst
      · obtain rfl := Option.some.inj hst
        exact .inl ⟨⟨a, rfl⟩, rfl⟩
  | recvTasks =>
      simp only [ReportFlow.step] at hst
      split at hst
      · rename_i htasks
        obtain rfl := Option.some.inj hst
        exact .inr (.recvTasks htasks)
      · cases hst
  | sendTask p₁ p₂ =>
      simp only [ReportFlow.step] at hst
      split at hst
      · cases hst
      · rename_i rep tasks htasks
        obtain ⟨link, hlink, rfl⟩ := Option.map_eq_some_iff.mp hst
        exact .inr (.sendTask htasks (Outcome.toOption_eq_some.mp hlink))
  | writable | deliver =>
      simp only [ReportFlow.step, Option.ite_none_right_eq_some] at hst
      obtain ⟨hen, hst⟩ := hst
      obtain ⟨link, hlink, rfl⟩ := Option.map_eq_some_iff.mp hst
      exact .inr (.move rfl hen (Outcome.toOption_eq_some.mp hlink))
  | writerTasks | execute =>
      obtain ⟨reporter, hr, rfl⟩ := Option.map_eq_some_iff.mp hst
      exact .inr (.report rfl hr)

/-- A status report that waits can be sent. -/
theorem FlowSteady.enabled_send {rep : ReportStatusReq} {tasks : List ReportStatusReq}
    (h : FlowSteady cfg cnt start table s) (htasks : s.tasks = rep :: tasks) (p₁ p₂ : AmplePool) :
    s.link.Enabled (.send p₁ p₂ (reportMsg rep)) := by
  have hrep : Sendable rep :=
    h.flow.sendable rep (h.flow.mem_committed (by rw [htasks]; exact List.mem_cons_self))
  exact ⟨hrep.ne_nil, hrep.le⟩

theorem FlowEvent.Smooth.linkOp {op : LinkOp} (h : e.Smooth) (he : e.linkOp = some op) :
    op.Smooth := by
  cases e with
  | writable soError res =>
      obtain rfl := Option.some.inj he
      exact h
  | deliver p chunk =>
      obtain rfl := Option.some.inj he
      exact trivial
  | op | recvTasks | sendTask | writerTasks | execute => cases he

/-- A step in which no call fails keeps the connection open and wired. -/
theorem FlowSteady.link_step (h : FlowSteady cfg cnt start table s) (hsmooth : e.Smooth)
    (hst : s.step cfg cnt e = some t) : t.link.Attended := by
  rcases handles_of_step hst with ⟨-, hlink⟩ | hhandles
  · rw [hlink]
    exact h.link
  cases hhandles with
  | recvTasks => exact h.link
  | sendTask htasks hlink => exact h.link.step (h.enabled_send htasks _ _) trivial hlink
  | move he hen hlink => exact h.link.step hen (hsmooth.linkOp he) hlink
  | report => exact h.link

theorem FlowSteady.step (h : FlowSteady cfg cnt start table s) (hfew : FewHosts e)
    (hsmooth : e.Smooth) (hst : s.step cfg cnt e = some t) : FlowSteady cfg cnt start table t :=
  ⟨h.flow.step hfew hst, h.link_step hsmooth hst⟩

theorem flowSteady_of_reachable (h : (reporting κ cfg cnt start table).Reachable s) :
    FlowSteady cfg cnt start table s := by
  refine h.induction (I := FlowSteady cfg cnt start table) ?_ ?_
  · rintro s ⟨hinit, hfresh⟩
    exact ⟨flowInv_of_reachable (.init hinit), hfresh.attended⟩
  · exact fun s e t _ hi hst ↦ hi.step hst.1.1 hst.1.2 hst.2

/-! ## The work comes to an end -/

theorem smooth_of_works (he : s.Works e) : FewHosts e ∧ e.Smooth := by
  cases e with
  | op a => exact absurd he id
  | writable soError res =>
      have hmoves : s.link.Moves (.writable soError res) := he
      exact ⟨trivial, hmoves.smooth⟩
  | recvTasks | sendTask | deliver | writerTasks | execute => exact ⟨trivial, trivial⟩

theorem handles_of_works (he : s.Works e) (hst : s.step cfg cnt e = some t) :
    s.Handles cnt e t := by
  rcases handles_of_step hst with ⟨⟨a, rfl⟩, -⟩ | hhandles
  · exact absurd he id
  · exact hhandles

theorem moves_of_works {op : LinkOp} (he : s.Works e) (hop : e.linkOp = some op) :
    s.link.Moves op := by
  cases e with
  | writable | deliver =>
      obtain rfl := Option.some.inj hop
      exact he
  | op | recvTasks | sendTask | writerTasks | execute => cases hop

theorem reporter_of_works {e' : ReportEvent} (he : s.Works e) (hevent : e.reportEvent = some e') :
    s.reporter.Works e' := by
  cases e with
  | writerTasks | execute =>
      obtain rfl := Option.some.inj hevent
      exact he
  | op | recvTasks | sendTask | writable | deliver => cases hevent

theorem committed_of_works (he : s.Works e) (hst : s.step cfg cnt e = some t) :
    t.committed = s.committed := by
  cases handles_of_works he hst with
  | recvTasks | sendTask | move | report => rfl

/-- Work that is done lowers the rank of the flow. -/
theorem FlowSteady.rank_lt (h : FlowSteady cfg cnt start table s)
    (ht : FlowSteady cfg cnt start table t) (he : s.Works e)
    (hst : s.step cfg cnt e = some t) : t.rank cnt < s.rank cnt := by
  simp only [ReportFlow.rank, Prod.Lex.toLex_lt_toLex]
  cases handles_of_works he hst with
  | recvTasks htasks =>
      have hpos := List.length_pos_of_ne_nil he.1
      refine .inl ?_
      simp only [htasks, List.length_nil]
      omega
  | sendTask htasks hlink =>
      refine .inl ?_
      simp only [htasks, List.length_cons]
      omega
  | move hop hen hlink =>
      exact .inr ⟨rfl, .inl (h.link.rank_lt ht.link hen (moves_of_works he hop) hlink)⟩
  | report hevent hreporter =>
      exact .inr ⟨rfl, .inr ⟨rfl, ReportServer.workLeft_lt (reporter_of_works he hevent) hreporter⟩⟩

theorem steady_of_reportWork (h : FlowSteady cfg cnt start table s)
    (hst : (reportWork κ cfg cnt start table).step s e t) :
    FlowSteady cfg cnt start table t ∧ t.rank cnt < s.rank cnt := by
  obtain ⟨he, hst⟩ := hst
  obtain ⟨hfew, hsmooth⟩ := smooth_of_works he
  have ht := h.step hfew hsmooth hst
  exact ⟨ht, h.rank_lt ht he hst⟩

/-- Along the work of a flow nothing is committed. -/
theorem along_reportWork {es : List FlowEvent}
    (hr : (reportWork κ cfg cnt start table).Run s es t) (h : FlowSteady cfg cnt start table s) :
    FlowSteady cfg cnt start table t ∧ t.committed = s.committed := by
  induction hr with
  | nil s => exact ⟨h, rfl⟩
  | cons hst _ ih =>
      obtain ⟨hend, hcommitted⟩ := ih (steady_of_reportWork h hst).1
      exact ⟨hend, hcommitted.trans (committed_of_works hst.1 hst.2)⟩

/-! ## When no work is left -/

/-- A flow that has no work left has sent every committed report. -/
theorem FlowSteady.sent_of_rest (h : FlowSteady cfg cnt start table s)
    (hrest : (reportWork κ cfg cnt start table).AtRest s) : s.Sent := by
  obtain ⟨hcb, hobuf, hwire⟩ := h.link.drained_of_rest fun op link hen hm hlink ↦ by
    cases op with
    | send p₁ p₂ m => exact hm
    | writable soError res =>
        refine hrest (.writable soError res) { s with link := link } ⟨hm, ?_⟩
        show s.step cfg cnt _ = some _
        simp only [ReportFlow.step, if_pos hen, hlink]
        rfl
    | deliver p chunk =>
        obtain ⟨u, hu⟩ : ∃ u, s.step cfg cnt (.deliver p chunk) = some u := by
          simp only [ReportFlow.step, if_pos hen, hlink]
          exact ⟨_, rfl⟩
        exact hrest (.deliver p chunk) u ⟨hm, hu⟩
  have htasks : s.tasks = [] := by
    by_contra hne
    obtain ⟨rep, tasks, htasks⟩ := List.exists_cons_of_ne_nil hne
    obtain ⟨link, hlink, -⟩ := (Link.inv_of_reachable h.link.reachable).step
      (h.enabled_send htasks exactPool exactPool)
    refine hrest (.sendTask exactPool exactPool) { s with tasks := tasks, link := link }
      ⟨trivial, ?_⟩
    show s.step cfg cnt _ = some _
    simp only [ReportFlow.step, htasks, hlink]
    rfl
  refine ⟨?_, htasks, h.link.clientOpen, hobuf, hwire⟩
  by_contra hne
  refine hrest .recvTasks { s with tasks := s.queue, queue := [] } ⟨⟨hne, ?_⟩, ?_⟩
  · intro hconnect
    cases hcb.symm.trans hconnect
  · show s.step cfg cnt _ = some _
    simp only [ReportFlow.step, htasks]

/-- A flow that has no work left has drained all queues of the reporter. -/
theorem FlowSteady.drained_of_rest (h : FlowSteady cfg cnt start table s)
    (hrest : (reportWork κ cfg cnt start table).AtRest s) : s.reporter.Drained cnt := by
  refine ReportServer.drained_of_rest (ReportServer.noticed_of_reachable h.flow.reporter)
    fun e reporter he hst ↦ ?_
  cases e with
  | dealReport req => exact he
  | recvTasks i =>
      refine hrest (.writerTasks i) { s with reporter := reporter } ⟨he, ?_⟩
      show s.step cfg cnt _ = some _
      simp only [ReportFlow.step, hst, Option.map_some]
  | execute i =>
      refine hrest (.execute i) { s with reporter := reporter } ⟨he, ?_⟩
      show s.step cfg cnt _ = some _
      simp only [ReportFlow.step, hst, Option.map_some]

/-- **The reports come through.**  Let no call on the connection fail and no module have more
than `maxHosts` hosts.  From any state, when no client reports any more: in no order do the
agent, the connection and the writers go on for ever, some order brings them to rest, and
wherever they come to rest the reporter has got all status reports that had been committed,
and the row of a host that was reported has the values of the last entry for it among those
that one of the writers was given; with one writer the table is what the entries make of it in
the order in which they were committed. -/
theorem rows_catch_up (hstart : start < cnt)
    (h : (reporting κ cfg cnt start table).Reachable s) :
    (¬∃ u : ℕ → ReportFlow κ, u 0 = s ∧
        ∀ n, (reportWork κ cfg cnt start table).Next (u (n + 1)) (u n)) ∧
      (∃ es t, (reportWork κ cfg cnt start table).Run s es t ∧
        (reportWork κ cfg cnt start table).AtRest t) ∧
      ∀ es t, (reportWork κ cfg cnt start table).Run s es t →
        (reportWork κ cfg cnt start table).AtRest t →
          t.reporter.received = s.committed ∧
          (∀ k v, last k (entries s.committed) = some v → ∃ i < cnt, ∃ w,
            last k (share cnt start i s.committed) = some w ∧ t.reporter.table k = some w) ∧
          (cnt = 1 → t.reporter.table = writeAll table (entries s.committed)) := by
  have hsteady := flowSteady_of_reachable h
  have hacc : Acc (reportWork κ cfg cnt start table).Next s :=
    LTS.acc_of_rank (r := (· < ·)) wellFounded_lt (ReportFlow.rank cnt)
      (I := FlowSteady cfg cnt start table) (fun s e t hi hst ↦ steady_of_reportWork hi hst) hsteady
  refine ⟨LTS.not_forever hacc, LTS.exists_atRest hacc, fun es t hr hrest ↦ ?_⟩
  obtain ⟨ht, hcommitted⟩ := along_reportWork hr hsteady
  have hsent := ht.sent_of_rest hrest
  rw [← hcommitted]
  exact ⟨ht.flow.received_eq hsent,
    ht.flow.rows_of_drained hstart hsent (ht.drained_of_rest hrest)⟩

/-- A client has reported a call before the connection is there. -/
def queued : ReportFlow Unit := (oneReport.take 3).foldl (ReportFlow.next .default 1) unreported

theorem queued_reachable : (reporting Unit .default 1 0 fun _ ↦ none).Reachable queued := by
  refine LTS.Reachable.run (s := unreported)
    (.init ⟨⟨rfl, rfl, rfl, ⟨.new, 3, .new, 5, by decide, by decide, rfl⟩,
      ⟨rfl, fun _ ↦ ⟨rfl, rfl⟩, rfl, rfl, rfl⟩, rfl⟩, Link.fresh_new⟩)
    (LTS.Run.foldl (C := fun s e ↦
      (FewHosts e ∧ e.Smooth) ∧ (s.step .default 1 e).isSome = true) ?_ ?_)
  · rintro s e ⟨hc, h⟩
    have hstep : (reportFlow Unit .default 1 0 fun _ ↦ none).step s e (s.next .default 1 e) :=
      s.next_step e h
    exact ⟨hc, hstep⟩
  · exact ⟨⟨⟨trivial, trivial⟩, rfl⟩, ⟨⟨Nat.zero_lt_succ 2338, trivial⟩, rfl⟩,
      ⟨⟨trivial, trivial⟩, rfl⟩, trivial⟩

theorem rows_catch_up_queued :
    (¬∃ u : ℕ → ReportFlow Unit, u 0 = queued ∧
        ∀ n, (reportWork Unit .default 1 0 fun _ ↦ none).Next (u (n + 1)) (u n)) ∧
      (∃ es t, (reportWork Unit .default 1 0 fun _ ↦ none).Run queued es t ∧
        (reportWork Unit .default 1 0 fun _ ↦ none).AtRest t) ∧
      ∀ es t, (reportWork Unit .default 1 0 fun _ ↦ none).Run queued es t →
        (reportWork Unit .default 1 0 fun _ ↦ none).AtRest t →
          t.reporter.table = writeAll (fun _ ↦ none) (entries queued.committed) := by
  obtain ⟨hends, hrests, hrows⟩ := rows_catch_up Nat.zero_lt_one queued_reachable
  exact ⟨hends, hrests, fun es t hr hrest ↦ (hrows es t hr hrest).2.2 rfl⟩

end Ylars.System
