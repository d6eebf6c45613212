import Mathlib.Algebra.Ring.Nat
import Ylars.Agent.PullProtocol
import Ylars.Api.HostIdentity

/-!
# Replies that come too late

`get_host` numbers its requests, the agent repeats the number in the reply, and `get_host`
skips the replies with a lower number than its own: they belong to earlier calls.  The
number has 32 bits, and the comparison is that of unsigned numbers, so a reply from before
the counter has wrapped has a higher number: it ends the loop, and the call fails.

The calls of a process are counted from zero; call `n` has the number `checkSeq n`.
-/

namespace Ylars.Api

open Ylars.Lib Text
open Ylars.Proto Reactor Agent

/-- `check_seq` after `n` calls of `get_host`: every call takes it and adds one. -/
def checkSeq : ℕ → UInt32
  | 0 => 0
  | n + 1 => checkSeq n + 1

theorem toNat_checkSeq (n : ℕ) : (checkSeq n).toNat = n % 2 ^ 32 := by
  induction n with
  | zero => rfl
  | succ n ih =>
      rw [checkSeq, UInt32.toNat_add, ih]
      simp

/-- The reply `p.2` answers the call `p.1`, which is earlier than call `n`, but not by
`2 ^ 31` calls. -/
structure Stale (n : ℕ) (p : ℕ × GetHostResponse) : Prop where
  earlier : p.1 < n
  recent : n < p.1 + 2 ^ 31
  seq : p.2.seq = checkSeq p.1

/-- A stale reply has a lower number if the counter has not wrapped since. -/
theorem Stale.seq_lt_iff {n : ℕ} {p : ℕ × GetHostResponse} (h : Stale n p) :
    p.2.seq < checkSeq n ↔ p.1 / 2 ^ 32 = n / 2 ^ 32 := by
  have hearlier := h.earlier
  have hrecent := h.recent
  rw [h.seq, UInt32.lt_iff_toNat_lt, toNat_checkSeq, toNat_checkSeq]
  omega

/-- What the caller gets from a reply: the result code, and with `RET_SUCC` the host. -/
def callerResult (res : GetHostResponse) : Int32 × Option (String × UInt16) :=
  (res.retcode.code,
    if res.retcode = .retSucc then
      res.host.map fun host ↦ (dottedQuad host.ip, host.port.toUInt16)
    else none)

variable {cfg : LoadBalanceConfig} {seq modid cmdid : UInt32}

/-- The agent's answer to a request with the number `seq` for a module: it repeats the
number and the module, has a code of its own, and a host with `RET_SUCC`. -/
structure Answers (seq modid cmdid : UInt32) (res : GetHostResponse) : Prop where
  seq : res.seq = seq
  modid : res.modid = modid
  cmdid : res.cmdid = cmdid
  retcode : res.retcode ≠ .retSystemError
  host : res.retcode = .retSucc → res.host ≠ none

/-- What `choice_one_host` chooses is such an answer, with the code that it returns. -/
theorem answers_of_choiceIfAny {lb lb' : LoadBalance} {ret : LastRetCode} {res : GetHostResponse}
    (h : lb.choiceIfAny cfg ⟨seq, modid, cmdid, .retSucc, none⟩ = .ok (ret, res, lb')) :
    Answers seq modid cmdid { res with retcode := ret } := by
  unfold LoadBalance.choiceIfAny at h
  split at h
  · obtain ⟨rfl, he⟩ := Prod.mk.inj (Except.ok.inj h)
    obtain ⟨rfl, -⟩ := Prod.mk.inj he
    exact ⟨rfl, rfl, rfl, by simp, by simp⟩
  · cases LoadBalance.chosen_of_choiceOneHost h with
    | noexist => exact ⟨rfl, rfl, rfl, by simp, by simp⟩
    | overload => exact ⟨rfl, rfl, rfl, by simp, by simp⟩
    | probe => exact ⟨rfl, rfl, rfl, by simp, by simp⟩
    | idle => exact ⟨rfl, rfl, rfl, by simp, by simp⟩

/-- The agent answers every request. -/
theorem exists_answer {r : RouteLb} (h : r.Sound) (cfg : LoadBalanceConfig) (clock : Clock)
    (seq modid cmdid : UInt32) :
    ∃ res pulls r', AgentServer.doRead cfg clock (hostRequest seq modid cmdid) r =
        .ok (⟨some (hostReply res), pulls, none⟩, r') ∧ Answers seq modid cmdid res := by
  cases hlb : r.routeMap[modKey modid cmdid]? with
  | none =>
      have hget : r.getHost cfg (clock 0) modid cmdid ⟨seq, modid, cmdid, .retSucc, none⟩ =
          .ok (.retNoexist, ⟨seq, modid, cmdid, .retNoexist, none⟩,
            (r.create modid cmdid).1, (r.create modid cmdid).2) := by
        simp only [RouteLb.getHost, hlb]
      exact ⟨_, _, _, doRead_of_getHost hget, rfl, rfl, rfl, by simp, by simp⟩
  | some lb =>
      obtain ⟨ret, res, lb₁, hany, hsound, -⟩ :=
        (h _ lb hlb).choiceIfAny cfg ⟨seq, modid, cmdid, .retSucc, none⟩
      obtain ⟨pulls, lb₂, hr, -, -⟩ := hsound.refresh cfg (clock 0)
      have hget : r.getHost cfg (clock 0) modid cmdid ⟨seq, modid, cmdid, .retSucc, none⟩ =
          .ok (ret, { res with retcode := ret }, pulls,
            ⟨r.routeMap.insert (modKey modid cmdid) lb₂⟩) := by
        simp only [RouteLb.getHost, hlb, hany, hr, Outcome.ok_bind]
        rfl
      exact ⟨_, _, _, doRead_of_getHost hget, answers_of_choiceIfAny hany⟩

/-! ## The loop of `get_host` -/

theorem hostResult_of_answers {res : GetHostResponse} (h : Answers seq modid cmdid res) :
    hostResult seq modid cmdid res.reply = callerResult res := by
  obtain ⟨rfl, rfl, rfl, -, hhost⟩ := h
  rw [hostResult, if_neg (by simp [GetHostResponse.reply])]
  by_cases hret : res.retcode = .retSucc
  · obtain ⟨host, hres⟩ := Option.ne_none_iff_exists'.mp (hhost hret)
    simp only [GetHostResponse.reply, callerResult, hret, hres, ne_eq, not_true_eq_false, if_false,
      if_true, Option.getD_some, Option.map_some, inetNtoa_htonl]
  · have hcode : res.reply.retcode ≠ LastRetCode.retSucc.code :=
      fun he ↦ hret (LastRetCode.code_inj he)
    rw [if_pos hcode, callerResult, if_neg hret]
    rfl

theorem hostResult_of_seq_ne {res : GetHostResponse} (h : res.seq ≠ seq) :
    hostResult seq modid cmdid res.reply = (LastRetCode.retSystemError.code, none) :=
  if_pos (.inl h)

/-- The loop over replies with other numbers and the answer: the answer counts if all
the others have lower numbers, otherwise the call fails. -/
theorem getHost_stale {earlier : List GetHostResponse} (hne : ∀ res ∈ earlier, res.seq ≠ seq)
    {res : GetHostResponse} (h : Answers seq modid cmdid res) :
    getHost seq modid cmdid (earlier.map (fun e ↦ some (hostReply e)) ++ [some (hostReply res)]) =
      some (if ∀ e ∈ earlier, e.seq < seq then callerResult res
        else (LastRetCode.retSystemError.code, none)) := by
  induction earlier with
  | nil =>
      have hseq : ¬res.seq < seq := by
        rw [h.seq]
        exact UInt32.lt_irrefl seq
      rw [List.map_nil, List.nil_append, getHost_cons, if_neg hseq, hostResult_of_answers h]
      rfl
  | cons e earlier ih =>
      rw [List.forall_mem_cons] at hne
      rw [List.map_cons, List.cons_append, getHost_cons, ih hne.2]
      by_cases he : e.seq < seq
      · simp only [he, if_true, List.forall_mem_cons, true_and]
      · simp only [he, if_false, List.forall_mem_cons, false_and, hostResult_of_seq_ne hne.1]

theorem Answers.callerResult_ne {res : GetHostResponse} (h : Answers seq modid cmdid res) :
    callerResult res ≠ (LastRetCode.retSystemError.code, none) :=
  fun he ↦ h.retcode (LastRetCode.code_inj (congrArg Prod.fst he))

/-- **When stale replies are skipped.**  Let the agent be in any state that it reaches, and
let replies to earlier calls, less than `2 ^ 31` calls ago, be on the socket before its
answer to call `n`.  The caller gets the code and the host of the answer exactly when the
counter has not wrapped since any of these calls. -/
theorem stale_skipped_iff {s : Agents} (hs : (pulling cfg).Reachable s) (clock : Clock) (n : ℕ)
    (modid cmdid : UInt32) {stale : List (ℕ × GetHostResponse)} (hstale : ∀ p ∈ stale, Stale n p) :
    ∃ res pulls r',
      AgentServer.doRead cfg clock (hostRequest (checkSeq n) modid cmdid)
          (s.agentRoutes (agentIndex modid cmdid)) = .ok (⟨some (hostReply res), pulls, none⟩, r') ∧
      (getHost (checkSeq n) modid cmdid
          (stale.map (fun p ↦ some (hostReply p.2)) ++ [some (hostReply res)]) =
            some (callerResult res) ↔
        ∀ p ∈ stale, p.1 / 2 ^ 32 = n / 2 ^ 32) := by
  obtain ⟨res, pulls, r', hread, hanswer⟩ :=
    exists_answer ((Agents.inv_of_reachable hs).sound (agentIndex modid cmdid)) cfg clock
      (checkSeq n) modid cmdid
  refine ⟨res, pulls, r', hread, ?_⟩
  have hne : ∀ e ∈ stale.map Prod.snd, e.seq ≠ checkSeq n := by
    intro e he heq
    obtain ⟨p, hp, rfl⟩ := List.mem_map.mp he
    obtain ⟨hearlier, hrecent, hseq⟩ := hstale p hp
    have hmod := congrArg UInt32.toNat (hseq.symm.trans heq)
    rw [toNat_checkSeq, toNat_checkSeq] at hmod
    omega
  have hget := getHost_stale hne hanswer
  rw [List.map_map] at hget
  have hall : (∀ e ∈ stale.map Prod.snd, e.seq < checkSeq n) ↔
      ∀ p ∈ stale, p.1 / 2 ^ 32 = n / 2 ^ 32 := by
    rw [List.forall_mem_map]
    exact forall₂_congr fun p hp ↦ (hstale p hp).seq_lt_iff
  rw [← hall]
  change getHost _ _ _ (stale.map ((fun e ↦ some (hostReply e)) ∘ Prod.snd) ++ _) = _ ↔ _
  rw [hget, Option.some.injEq]
  split
  · rename_i hlt
    exact iff_of_true rfl hlt
  · rename_i hlt
    exact iff_of_false hanswer.callerResult_ne.symm hlt

/-- Two replies to the calls before are skipped. -/
theorem stale_skipped_iff_two :
    ∃ res, getHost (checkSeq 5) 1 1
      [some (hostReply ⟨3, 1, 1, .retSucc, some ⟨1, 80⟩⟩),
        some (hostReply ⟨4, 2, 1, .retOverload, none⟩), some (hostReply res)] =
          some (callerResult res) := by
  obtain ⟨res, -, -, -, hiff⟩ := @stale_skipped_iff .default Agents.new
    (LTS.Reachable.init rfl) (fun _ ↦ 0) 5 1 1
    [(3, ⟨3, 1, 1, .retSucc, some ⟨1, 80⟩⟩), (4, ⟨4, 2, 1, .retOverload, none⟩)] (by
      rintro p (_ | ⟨_, _ | ⟨_, ⟨⟩⟩⟩) <;> exact ⟨by decide, by decide, rfl⟩)
  exact ⟨res, hiff.mpr (by decide)⟩

/-- The last reply from before the counter wraps. -/
def wrappedReply : ℕ × GetHostResponse := (2 ^ 32 - 1, ⟨4294967295, 1, 1, .retNoexist, none⟩)

/-- The last reply from before the counter wraps makes the next call fail. -/
theorem wrappedReply_not_skipped :
    Stale (2 ^ 32) wrappedReply ∧
      ∃ res pulls r',
        AgentServer.doRead .default (fun _ ↦ 0) (hostRequest (checkSeq (2 ^ 32)) 1 1)
            (Agents.new.agentRoutes (agentIndex 1 1)) =
          .ok (⟨some (hostReply res), pulls, none⟩, r') ∧
        getHost (checkSeq (2 ^ 32)) 1 1 [some (hostReply wrappedReply.2), some (hostReply res)] ≠
          some (callerResult res) := by
  have hseq : wrappedReply.2.seq = checkSeq wrappedReply.1 :=
    UInt32.toNat_inj.mp (by rw [toNat_checkSeq]; rfl)
  have hstale : Stale (2 ^ 32) wrappedReply := ⟨by decide, by decide, hseq⟩
  obtain ⟨res, pulls, r', hread, hanswer⟩ := exists_answer
    (r := Agents.new.agentRoutes (agentIndex 1 1)) .new .default (fun _ ↦ 0) (checkSeq (2 ^ 32)) 1 1
  refine ⟨hstale, res, pulls, r', hread, ?_⟩
  have hlt : ¬wrappedReply.2.seq < checkSeq (2 ^ 32) := by
    rw [hstale.seq_lt_iff]
    decide
  have hne : wrappedReply.2.seq ≠ checkSeq (2 ^ 32) := by
    intro he
    have := congrArg UInt32.toNat he
    rw [toNat_checkSeq] at this
    exact absurd this (by decide)
  rw [getHost_cons, if_neg hlt, hostResult_of_seq_ne hne, ne_eq, Option.some.injEq]
  exact hanswer.callerResult_ne.symm

end Ylars.Api
