import Ylars.Api.Requests
import Ylars.Lib.Transition

/-!
# The clients and the agent

Any number of processes call `ylars_api`, each with a socket of its own.  A call sends its
request to the udp server of its module, and `get_host` and `get_route` wait for a reply.
Datagrams may get lost and overtake each other; they are not duplicated.  A call that waits
may also fail, and its reply come when the process is in another call.

What the servers do is what a single `route_lb` would do, one operation after the other.  A
call of `get_host` that does not fail gives the result of its own request, which was served
while the call was running (`get_host_linearizes`).  `get_route` does not number its requests:
it gives the hosts that the client's module had when some request for it was served, all of
them or none (`get_route_answers`).
-/

namespace Ylars.System

open Ylars.Lib Ylars.Proto Ylars.Reactor Ylars.Agent Ylars.Api

/-- A call: the process, how often it has called the function before, and the request. -/
structure Call where
  client : ℕ
  number : ℕ
  request : Request

/-- A call that waits. -/
structure Waiting where
  call : Call
  /-- How much the servers had done when it began. -/
  started : ℕ
  /-- What `recvfrom` has given so far. -/
  received : List (Option (List UInt8))

/-- A process. -/
structure Client where
  calls : Kind → ℕ
  inbox : List (List UInt8)
  waiting : Option Waiting

/-- What the caller gets. -/
inductive Given where
  | host (out : Int32 × Option (String × UInt16))
  | route (route : Route)

/-- A call that has returned. -/
structure Returned where
  call : Call
  started : ℕ
  /-- How much the servers had done when it ended. -/
  ended : ℕ
  given : Given

/-- Something that a server has done, for a call or for the dns client. -/
structure Served where
  call : Option Call
  op : RouteOp

/-- The processes, the network and the servers. -/
structure ApiSystem where
  routes : Fin 3 → RouteLb
  /-- The requests on their way. -/
  network : List Call
  clients : ℕ → Client
  /-- What the servers have done. -/
  served : List Served
  /-- The calls that have been made. -/
  made : List Call
  returned : List Returned

/-- What happens next. -/
inductive ApiEvent where
  | getHost (p : ℕ) (modid cmdid : UInt32)
  | getRoute (p : ℕ) (modid cmdid : UInt32)
  | report (p : ℕ) (modid cmdid : UInt32) (ip : String) (port : UInt16) (isSucc : Bool)
  /-- A server reads a request. -/
  | serve (n : ℕ) (clock : Clock)
  /-- A response of the dns server is handled. -/
  | update (res : GetRouteResponse) (clock : Clock)
  | loseRequest (n : ℕ)
  | loseReply (p n : ℕ)
  /-- A process receives a datagram. -/
  | recv (p n : ℕ)
  /-- The call that a process waits in fails. -/
  | fail (p : ℕ)

/-- What a call makes of what it has received. -/
def answer : Request → List (Option (List UInt8)) → Option Given
  | .host seq modid cmdid, ios => (Api.getHost seq modid cmdid ios).map .host
  | .route modid cmdid, ios => ios.head?.map fun io ↦ .route (Api.getRoute modid cmdid io [])
  | .report _, _ => none

namespace ApiSystem

/-- Before the first call. -/
def new : ApiSystem where
  routes := fun _ ↦ RouteLb.new
  network := []
  clients := fun _ ↦ { calls := fun _ ↦ 0, inbox := [], waiting := none }
  served := []
  made := []
  returned := []

/-- A process has changed. -/
def setClient (p : ℕ) (c : Client) (s : ApiSystem) : ApiSystem :=
  { s with clients := Function.update s.clients p c }

/-- A call begins: its request is sent. -/
def start (p : ℕ) (req : Request) (waits : Bool) (s : ApiSystem) : Option ApiSystem :=
  let c := s.clients p
  let call : Call := ⟨p, c.calls req.kind, req⟩
  match c.waiting with
  | some _ => none
  | none => some { s.setClient p { c with
      calls := Function.update c.calls req.kind (c.calls req.kind + 1)
      waiting := if waits then some ⟨call, s.served.length, []⟩ else none } with
    network := s.network ++ [call]
    made := s.made ++ [call] }

/-- A call goes on with what `recvfrom` gives: it returns, or it waits for more. -/
def receive (p : ℕ) (io : Option (List UInt8)) (c : Client) (w : Waiting) (s : ApiSystem) :
    ApiSystem :=
  let ios := w.received ++ [io]
  match answer w.call.request ios with
  | none => s.setClient p { c with waiting := some { w with received := ios } }
  | some given => { s.setClient p { c with waiting := none } with
      returned := s.returned ++ [⟨w.call, w.started, s.served.length, given⟩] }

/-- One step. -/
def step (cfg : LoadBalanceConfig) (s : ApiSystem) : ApiEvent → Option ApiSystem
  | .getHost p modid cmdid =>
      s.start p (.host (checkSeq ((s.clients p).calls .host)) modid cmdid) true
  | .getRoute p modid cmdid => s.start p (.route modid cmdid) true
  | .report p modid cmdid ip port isSucc =>
      match reportRequest modid cmdid ip port isSucc with
      | .error _ => none
      | .ok req => s.start p (.report req) false
  | .serve n clock =>
      match s.network[n]? with
      | none => none
      | some call =>
          let i := call.request.server
          let c := s.clients call.client
          match AgentServer.doRead cfg clock call.request.datagram (s.routes i) with
          | .error _ => none
          | .ok (effects, r) => some { s.setClient call.client { c with
              inbox := c.inbox ++ effects.reply.toList } with
            routes := Function.update s.routes i r
            network := s.network.eraseIdx n
            served := s.served ++ [⟨some call, call.request.op clock⟩] }
  | .update res clock =>
      let i := agentIndex res.modid res.cmdid
      match (s.routes i).updateHost cfg clock res with
      | .error _ => none
      | .ok r => some { s with
          routes := Function.update s.routes i r
          served := s.served ++ [⟨none, .updateHost res clock⟩] }
  | .loseRequest n => some { s with network := s.network.eraseIdx n }
  | .loseReply p n =>
      let c := s.clients p
      some (s.setClient p { c with inbox := c.inbox.eraseIdx n })
  | .recv p n =>
      let c := s.clients p
      match c.waiting, c.inbox[n]? with
      | some w, some datagram =>
          some (s.receive p (some datagram) { c with inbox := c.inbox.eraseIdx n } w)
      | _, _ => none
  | .fail p =>
      let c := s.clients p
      match c.waiting with
      | some w => some (s.receive p none c w)
      | none => none

/-- The calls that have been served. -/
def servedCalls (s : ApiSystem) : List Call := s.served.filterMap Served.call

end ApiSystem

/-- The runs of the processes and the agent. -/
def apiCalls (cfg : LoadBalanceConfig) : LTS ApiSystem ApiEvent where
  init s := s = ApiSystem.new
  step s e t := s.step cfg e = some t

/-! ## The invariant -/

/-- The caller gets the result of a request like its own: the host, or all hosts if the length
of the response fits into an `int`. -/
def Gives (req' req : Request) : RouteResult → Given → Prop
  | .host _ res _, .host out => req' = req ∧ out = callerResult res
  | .route _ res _, .route hosts =>
      res.serialize.length < 2 ^ 31 → req' = req ∧ hosts = res.host.map routeEntry
  | _, _ => False

/-- What a call gives that fails. -/
def Given.Failed : Given → Prop
  | .host out => out = (LastRetCode.retSystemError.code, none)
  | .route hosts => hosts = []

/-- A result is one that the request can have. -/
def Fits : Request → RouteResult → Prop
  | .host seq modid cmdid, .host _ res _ => Answers seq modid cmdid res
  | .route modid cmdid, .route _ res _ => res.modid = modid ∧ res.cmdid = cmdid
  | .report _, .status _ => True
  | _, _ => False

/-- The `j`th thing that the servers have done was to serve the call, with this result. -/
def ServedAt (s : ApiSystem) (results : List RouteResult) (j : ℕ) (call : Call)
    (b : RouteResult) : Prop :=
  (∃ clock, s.served[j]? = some ⟨some call, call.request.op clock⟩) ∧ results[j]? = some b

/-- A call that waits has not been served before it began. -/
structure WaitingInv (s : ApiSystem) (p : ℕ) (w : Waiting) : Prop where
  client : w.call.client = p
  made : w.call ∈ s.made
  started : w.started ≤ s.served.length
  fresh : ∀ j < w.started, ∀ e, s.served[j]? = some e → e.call ≠ some w.call
  waits : answer w.call.request w.received = none

/-- A call that has not failed has the result of a request of the process, served before the
call ended; if it is the call's own, it was served while the call was running. -/
structure Explained (s : ApiSystem) (results : List RouteResult) (ret : Returned) : Prop where
  made : ret.call ∈ s.made
  given : ret.given.Failed ∨ ∃ j call b, j < ret.ended ∧ ServedAt s results j call b ∧
    call.client = ret.call.client ∧ (call = ret.call → ret.started ≤ j) ∧
    Gives call.request ret.call.request b ret.given

/-- What every step keeps. -/
structure ApiInv (cfg : LoadBalanceConfig) (s : ApiSystem) (results : List RouteResult) : Prop where
  ran : runAll (agentStore cfg).step (s.served.map Served.op) (fun _ ↦ RouteLb.new) =
    .ok (results, s.routes)
  fits : ∀ j call b, ServedAt s results j call b → Fits call.request b
  once : (s.network ++ s.servedCalls).Nodup
  sub : ∀ call ∈ s.network ++ s.servedCalls, call ∈ s.made
  number : ∀ call ∈ s.made, call.number < (s.clients call.client).calls call.request.kind
  unique : ∀ call ∈ s.made, ∀ call' ∈ s.made, call.client = call'.client →
    call.request.kind = call'.request.kind → call.number = call'.number → call = call'
  seq : ∀ call ∈ s.made, ∀ seq modid cmdid, call.request = .host seq modid cmdid →
    seq = checkSeq call.number
  inbox : ∀ p, ∀ datagram ∈ (s.clients p).inbox, ∃ j call b, ServedAt s results j call b ∧
    call.client = p ∧ sendResult b = .ok (some datagram)
  waiting : ∀ p, ∀ w ∈ (s.clients p).waiting, WaitingInv s p w
  returned : ∀ ret ∈ s.returned, Explained s results ret

variable {cfg : LoadBalanceConfig} {s t : ApiSystem} {results results' : List RouteResult}
  {p : ℕ} {w : Waiting} {call : Call} {req req' : Request} {b : RouteResult} {given : Given}

/-! ## What a call makes of a reply -/

theorem eq_routeReply {res : GetRouteResponse} {datagram : List UInt8}
    (h : UdpServer.sendMsg (MessageId.getRouteResponse.message res.serialize) =
      .ok (some datagram)) : datagram = routeReply res :=
  (UdpServer.eq_bytes_of_sendMsg h).1

/-- `get_host` goes on where it has come to. -/
theorem getHost_append {seq modid cmdid : UInt32} {ios : List (Option (List UInt8))}
    (h : Api.getHost seq modid cmdid ios = none) (ios' : List (Option (List UInt8))) :
    Api.getHost seq modid cmdid (ios ++ ios') = Api.getHost seq modid cmdid ios' := by
  induction ios with
  | nil => rfl
  | cons io ios ih =>
      cases io with
      | none => cases h
      | some datagram =>
          rw [Api.getHost] at h
          rw [List.cons_append, Api.getHost]
          cases hmsg : checkMsg .getHostResponse (recvfrom tmpBufSize datagram) with
          | none =>
              rw [hmsg] at h
              cases h
          | some msg =>
              rw [hmsg] at h
              simp only at h ⊢
              cases hok : (HostReply.parse msg).2 with
              | false =>
                  simp only [hok] at h
                  cases h
              | true =>
                  simp only [hok, Bool.not_true, Bool.false_eq_true, if_false] at h ⊢
                  by_cases hlt : (HostReply.parse msg).1.seq < seq
                  · rw [if_pos hlt] at h ⊢
                    exact ih h
                  · rw [if_neg hlt] at h
                    cases h

theorem getHost_routeReply (seq modid cmdid : UInt32) (res : GetRouteResponse) :
    Api.getHost seq modid cmdid [some (routeReply res)] =
      some (LastRetCode.retSystemError.code, none) := by
  rw [Api.getHost, routeReply, checkMsg_of_ne (by decide)]

theorem getRoute_hostReply (modid cmdid : UInt32) (res : GetHostResponse) (route : Route) :
    Api.getRoute modid cmdid (some (hostReply res)) route = route := by
  rw [Api.getRoute, hostReply, checkMsg_of_ne (by decide)]

/-- A reply to a call of `get_host` gives it the result, unless the call fails. -/
theorem gives_of_hostReply {seq modid cmdid seq' modid' cmdid' : UInt32} {res : GetHostResponse}
    (h : Answers seq' modid' cmdid' res) {out : Int32 × Option (String × UInt16)}
    (hout : Api.getHost seq modid cmdid [some (hostReply res)] = some out) :
    out = (LastRetCode.retSystemError.code, none) ∨
      Request.host seq' modid' cmdid' = .host seq modid cmdid ∧ out = callerResult res := by
  rw [getHost_cons] at hout
  split at hout
  · cases hout
  · obtain rfl := Option.some.inj hout
    by_cases hne : res.seq ≠ seq ∨ res.modid ≠ modid ∨ res.cmdid ≠ cmdid
    · exact .inl (if_pos hne)
    · simp only [not_or, not_not] at hne
      obtain ⟨rfl, rfl, rfl⟩ := hne
      refine .inr ⟨by rw [h.seq, h.modid, h.cmdid], hostResult_of_answers ?_⟩
      exact ⟨rfl, rfl, rfl, h.retcode, h.host⟩

/-- A reply to a call of `get_route` gives it all hosts, unless it gives none. -/
theorem gives_of_routeReply (modid cmdid : UInt32) {res : GetRouteResponse}
    (hlen : res.serialize.length < 2 ^ 31) :
    Api.getRoute modid cmdid (some (routeReply res)) [] = [] ∨
      Request.route res.modid res.cmdid = .route modid cmdid ∧
        Api.getRoute modid cmdid (some (routeReply res)) [] = res.host.map routeEntry := by
  by_cases hfits : res.serialize.length + 8 ≤ tmpBufSize
  · simp only [Api.getRoute, routeReply, checkMsg_bytes hfits, GetRouteResponse.parse_serialize]
    by_cases hne : res.modid ≠ modid ∨ res.cmdid ≠ cmdid
    · exact .inl (if_pos hne)
    · rw [if_neg hne]
      simp only [not_or, not_not] at hne
      exact .inr ⟨by rw [hne.1, hne.2], List.nil_append _⟩
  · left
    simp only [Api.getRoute, routeReply, checkMsg_bytes_of_lt (Nat.lt_of_not_le hfits) hlen]

/-- What a call makes of a reply: it fails, or it gets the result. -/
theorem answer_reply {ios : List (Option (List UInt8))} {datagram : List UInt8}
    (hwaits : answer req ios = none) (hfits : Fits req' b)
    (hsend : sendResult b = .ok (some datagram))
    (hans : answer req (ios ++ [some datagram]) = some given) :
    given.Failed ∨ Gives req' req b given := by
  cases req with
  | host seq modid cmdid =>
      obtain ⟨out, hout, rfl⟩ := Option.map_eq_some_iff.mp hans
      rw [getHost_append (Option.map_eq_none_iff.mp hwaits)] at hout
      cases b with
      | host ret res pulls =>
          cases req' with
          | host seq' modid' cmdid' =>
              obtain rfl := Option.some.inj (Except.ok.inj hsend)
              exact gives_of_hostReply hfits hout
          | route | report => cases hfits
      | route ret res pulls =>
          obtain rfl := eq_routeReply hsend
          rw [getHost_routeReply] at hout
          exact .inl (Option.some.inj hout).symm
      | status | updated => cases hsend
  | route modid cmdid =>
      have hios : ios = [] := by
        cases ios with
        | nil => rfl
        | cons io ios => cases hwaits
      subst hios
      obtain rfl := Option.some.inj hans
      cases b with
      | host ret res pulls =>
          obtain rfl := Option.some.inj (Except.ok.inj hsend)
          exact .inl (getRoute_hostReply modid cmdid res [])
      | route ret res pulls =>
          cases req' with
          | route modid' cmdid' =>
              obtain ⟨rfl, rfl⟩ := hfits
              obtain rfl := eq_routeReply hsend
              by_cases hlen : res.serialize.length < 2 ^ 31
              · exact (gives_of_routeReply modid cmdid hlen).imp_right fun h _ ↦ h
              · exact .inr fun hlt ↦ absurd hlt hlen
          | host | report => cases hfits
      | status | updated => cases hsend
  | report req => cases hans

theorem failed_of_answer_none {ios : List (Option (List UInt8))} (hwaits : answer req ios = none)
    (hans : answer req (ios ++ [none]) = some given) : given.Failed := by
  cases req with
  | host seq modid cmdid =>
      obtain ⟨out, hout, rfl⟩ := Option.map_eq_some_iff.mp hans
      rw [getHost_append (Option.map_eq_none_iff.mp hwaits)] at hout
      exact (Option.some.inj hout).symm
  | route modid cmdid =>
      cases ios with
      | nil =>
          obtain rfl := Option.some.inj hans
          rfl
      | cons io ios => cases hwaits
  | report req => cases hans

theorem fits_of_step {clock : Clock} {routes routes' : Fin 3 → RouteLb}
    (h : (agentStore cfg).step (req.op clock) routes = .ok (b, routes')) : Fits req b := by
  obtain ⟨v, hact, -⟩ := (agentStore_local cfg).act_eq h
  change Entry.act cfg (req.op clock) ((agentStore cfg).get routes (req.op clock).key) = _ at hact
  generalize (agentStore cfg).get routes (req.op clock).key = v₀ at hact
  cases req with
  | host seq modid cmdid =>
      cases v₀ with
      | none =>
          obtain ⟨rfl, -⟩ := Prod.mk.inj (Except.ok.inj hact)
          exact ⟨rfl, rfl, rfl, by simp, by simp⟩
      | some lb =>
          simp only [Request.op, Entry.act, Outcome.bind_eq_ok] at hact
          obtain ⟨⟨ret, res, lb₁⟩, hc, ⟨pulls, lb₂⟩, -, hb⟩ := hact
          obtain ⟨rfl, -⟩ := Prod.mk.inj (Except.ok.inj hb)
          exact answers_of_choiceIfAny hc
  | route modid cmdid =>
      cases v₀ with
      | none =>
          obtain ⟨rfl, -⟩ := Prod.mk.inj (Except.ok.inj hact)
          exact ⟨rfl, rfl⟩
      | some lb =>
          simp only [Request.op, Entry.act, Outcome.bind_eq_ok] at hact
          obtain ⟨⟨pulls, lb₁⟩, -, hb⟩ := hact
          obtain ⟨rfl, -⟩ := Prod.mk.inj (Except.ok.inj hb)
          exact ⟨rfl, rfl⟩
  | report req =>
      cases v₀ with
      | none =>
          obtain ⟨rfl, -⟩ := Prod.mk.inj (Except.ok.inj hact)
          trivial
      | some lb =>
          simp only [Request.op, Entry.act, Outcome.bind_eq_ok] at hact
          obtain ⟨lb₁, -, hb⟩ := hact
          obtain ⟨rfl, -⟩ := Prod.mk.inj (Except.ok.inj hb)
          trivial

/-! ## What is known stays known -/

/-- More has been done, and more calls have been made. -/
structure Grows (s t : ApiSystem) : Prop where
  served : s.served <+: t.served
  made : s.made <+: t.made

theorem Grows.refl_of (hserved : t.served = s.served) (hmade : t.made = s.made) : Grows s t :=
  ⟨hserved ▸ List.prefix_rfl, hmade ▸ List.prefix_rfl⟩

theorem getElem?_of_prefix {α : Type*} {l l' : List α} (h : l <+: l') {j : ℕ} {a : α}
    (ha : l[j]? = some a) : l'[j]? = some a := by
  obtain ⟨rest, rfl⟩ := h
  obtain ⟨hlt, -⟩ := List.getElem?_eq_some_iff.mp ha
  rwa [List.getElem?_append_left hlt]

theorem ServedAt.grow {j : ℕ} (h : ServedAt s results j call b) (hg : Grows s t)
    (hr : results <+: results') : ServedAt t results' j call b := by
  obtain ⟨⟨clock, he⟩, hb⟩ := h
  exact ⟨⟨clock, getElem?_of_prefix hg.served he⟩, getElem?_of_prefix hr hb⟩

/-- What is served later does not come before the call. -/
theorem WaitingInv.grow (h : WaitingInv s p w) (hg : Grows s t) : WaitingInv t p w := by
  refine ⟨h.client, hg.made.subset h.made, h.started.trans hg.served.length_le,
    fun j hj e he ↦ ?_, h.waits⟩
  obtain ⟨rest, hrest⟩ := hg.served
  rw [← hrest, List.getElem?_append_left (Nat.lt_of_lt_of_le hj h.started)] at he
  exact h.fresh j hj e he

theorem Explained.grow {ret : Returned} (h : Explained s results ret) (hg : Grows s t)
    (hr : results <+: results') : Explained t results' ret := by
  refine ⟨hg.made.subset h.made, h.given.imp_right ?_⟩
  rintro ⟨j, call, b, hj, hserved, h⟩
  exact ⟨j, call, b, hj, hserved.grow hg hr, h⟩

/-! ## Every step -/

namespace ApiInv

theorem served_made (h : ApiInv cfg s results) {j : ℕ} {e : Served} (he : s.served[j]? = some e)
    (hcall : e.call = some call) : call ∈ s.made :=
  h.sub call (List.mem_append_right _
    (List.mem_filterMap.mpr ⟨e, List.mem_of_getElem? he, hcall⟩))

theorem start {waits : Bool} (h : ApiInv cfg s results)
    (hseq : ∀ seq modid cmdid, req = .host seq modid cmdid →
      seq = checkSeq ((s.clients p).calls .host))
    (hst : s.start p req waits = some t) : ApiInv cfg t results := by
  unfold ApiSystem.start at hst
  simp only at hst
  split at hst
  · cases hst
  · rename_i hidle
    obtain rfl := Option.some.inj hst
    have hnew : (⟨p, (s.clients p).calls req.kind, req⟩ : Call) ∉ s.made := fun hmem ↦
      Nat.lt_irrefl _ (h.number _ hmem)
    have hgrows : ∀ u : ApiSystem, u.served = s.served →
        u.made = s.made ++ [⟨p, (s.clients p).calls req.kind, req⟩] → Grows s u := fun u hs hm ↦
      ⟨hs ▸ List.prefix_rfl, hm ▸ List.prefix_append _ _⟩
    refine ⟨h.ran, h.fits, ?_, ?_, ?_, ?_, ?_, ?_, ?_, ?_⟩
    · show ((s.network ++ [_]) ++ s.servedCalls).Nodup
      rw [List.append_assoc, List.singleton_append]
      exact List.nodup_middle.mpr (List.nodup_cons.mpr ⟨fun hmem ↦ hnew (h.sub _ hmem), h.once⟩)
    · show ∀ call ∈ (s.network ++ [_]) ++ s.servedCalls, call ∈ s.made ++ [_]
      intro call hcall
      rw [List.append_assoc, List.singleton_append] at hcall
      rcases List.mem_cons.mp (List.perm_middle.mem_iff.mp hcall) with rfl | hcall
      · exact List.mem_append_right _ List.mem_cons_self
      · exact List.mem_append_left _ (h.sub call hcall)
    · show ∀ call ∈ s.made ++ [_], _
      intro call hcall
      rcases List.mem_append.mp hcall with hcall | hcall
      · have hlt := h.number call hcall
        by_cases hp : call.client = p
        · simp only [ApiSystem.setClient, hp, Function.update_self] at hlt ⊢
          by_cases hk : call.request.kind = req.kind
          · rw [hk, Function.update_self]
            rw [hk] at hlt
            exact Nat.lt_succ_of_lt hlt
          · rwa [Function.update_of_ne hk]
        · simp only [ApiSystem.setClient, Function.update_of_ne hp]
          exact hlt
      · obtain rfl := List.mem_singleton.mp hcall
        simp only [ApiSystem.setClient, Function.update_self]
        exact Nat.lt_succ_self _
    · show ∀ call ∈ s.made ++ [_], ∀ call' ∈ s.made ++ [_], _
      intro call hcall call' hcall' hclient hkind hnumber
      rcases List.mem_append.mp hcall with hcall | hcall <;>
        rcases List.mem_append.mp hcall' with hcall' | hcall'
      · exact h.unique call hcall call' hcall' hclient hkind hnumber
      · obtain rfl := List.mem_singleton.mp hcall'
        have hlt := h.number call hcall
        rw [hclient, hkind, hnumber] at hlt
        exact absurd hlt (Nat.lt_irrefl _)
      · obtain rfl := List.mem_singleton.mp hcall
        have hlt := h.number call' hcall'
        rw [← hclient, ← hkind, ← hnumber] at hlt
        exact absurd hlt (Nat.lt_irrefl _)
      · obtain rfl := List.mem_singleton.mp hcall
        obtain rfl := List.mem_singleton.mp hcall'
        rfl
    · show ∀ call ∈ s.made ++ [_], _
      intro call hcall seq modid cmdid hreq
      rcases List.mem_append.mp hcall with hcall | hcall
      · exact h.seq call hcall seq modid cmdid hreq
      · obtain rfl := List.mem_singleton.mp hcall
        change req = _ at hreq
        rw [hseq seq modid cmdid hreq, hreq]
        rfl
    · intro q datagram hmem
      have hmem' : datagram ∈ (s.clients q).inbox := by
        by_cases hq : q = p
        · simpa only [ApiSystem.setClient, hq, Function.update_self] using hmem
        · simpa only [ApiSystem.setClient, Function.update_of_ne hq] using hmem
      exact h.inbox q datagram hmem'
    · intro q w hw
      by_cases hq : q = p
      · subst hq
        simp only [ApiSystem.setClient, Function.update_self] at hw
        split at hw
        · obtain rfl := Option.some.inj hw
          refine ⟨rfl, List.mem_append_right _ List.mem_cons_self, Nat.le_refl _,
            fun j _ e he hcall ↦ hnew (h.served_made he hcall), ?_⟩
          show answer req [] = none
          cases req <;> rfl
        · cases hw
      · simp only [ApiSystem.setClient, Function.update_of_ne hq] at hw
        exact (h.waiting q w hw).grow (hgrows _ rfl rfl)
    · exact fun ret hret ↦ (h.returned ret hret).grow (hgrows _ rfl rfl) List.prefix_rfl

theorem setClient {c : Client} (h : ApiInv cfg s results) (hcalls : c.calls = (s.clients p).calls)
    (hinbox : ∀ datagram ∈ c.inbox, datagram ∈ (s.clients p).inbox)
    (hwaiting : ∀ w ∈ c.waiting, WaitingInv s p w) : ApiInv cfg (s.setClient p c) results := by
  refine ⟨h.ran, h.fits, h.once, h.sub, fun call hcall ↦ ?_, h.unique, h.seq,
    fun q datagram hmem ↦ ?_, fun q w hw ↦ ?_,
    fun ret hret ↦ (h.returned ret hret).grow (.refl_of rfl rfl) List.prefix_rfl⟩
  · have hlt := h.number call hcall
    by_cases hp : call.client = p
    · simp only [ApiSystem.setClient, hp, Function.update_self, hcalls]
      rwa [hp] at hlt
    · simp only [ApiSystem.setClient, Function.update_of_ne hp]
      exact hlt
  · by_cases hq : q = p
    · subst hq
      simp only [ApiSystem.setClient, Function.update_self] at hmem
      exact h.inbox q datagram (hinbox datagram hmem)
    · simp only [ApiSystem.setClient, Function.update_of_ne hq] at hmem
      exact h.inbox q datagram hmem
  · have hgrows : Grows s (s.setClient p c) := .refl_of rfl rfl
    by_cases hq : q = p
    · subst hq
      simp only [ApiSystem.setClient, Function.update_self] at hw
      exact (hwaiting w hw).grow hgrows
    · simp only [ApiSystem.setClient, Function.update_of_ne hq] at hw
      exact (h.waiting q w hw).grow hgrows

theorem receive {c : Client} {io : Option (List UInt8)} (h : ApiInv cfg s results)
    (hw : w ∈ (s.clients p).waiting) (hcalls : c.calls = (s.clients p).calls)
    (hinbox : ∀ datagram ∈ c.inbox, datagram ∈ (s.clients p).inbox)
    (hio : ∀ datagram ∈ io, datagram ∈ (s.clients p).inbox) :
    ApiInv cfg (s.receive p io c w) results := by
  obtain ⟨hclient, hmade, hstarted, hfresh, hwaits⟩ := h.waiting p w hw
  unfold ApiSystem.receive
  simp only
  split
  · rename_i hans
    refine h.setClient hcalls hinbox fun w' hw' ↦ ?_
    obtain rfl := Option.some.inj hw'
    exact ⟨hclient, hmade, hstarted, hfresh, hans⟩
  · rename_i given hans
    have hset := @setClient cfg s results p { c with waiting := none } h hcalls hinbox
      fun w' hw' ↦ by cases hw'
    refine ⟨hset.ran, hset.fits, hset.once, hset.sub, hset.number, hset.unique, hset.seq,
      hset.inbox, fun q w' hw' ↦ (hset.waiting q w' hw').grow (.refl_of rfl rfl), fun ret hret ↦ ?_⟩
    rcases List.mem_append.mp hret with hret | hret
    · exact (hset.returned ret hret).grow (.refl_of rfl rfl) List.prefix_rfl
    · obtain rfl := List.mem_singleton.mp hret
      refine ⟨hmade, ?_⟩
      cases io with
      | none => exact .inl (failed_of_answer_none hwaits hans)
      | some datagram =>
          obtain ⟨j, call, b, hserved, hcl, hsend⟩ := h.inbox p datagram (hio datagram rfl)
          refine (answer_reply hwaits (h.fits j call b hserved) hsend hans).imp_right
            fun hgives ↦ ?_
          obtain ⟨⟨clock, he⟩, hb⟩ := hserved
          refine ⟨j, call, b, (List.getElem?_eq_some_iff.mp he).1, ⟨⟨clock, he⟩, hb⟩,
            hcl.trans hclient.symm, fun hcall ↦ ?_, hgives⟩
          -- its own request is not among what was served before the call
          by_contra hlt
          exact hfresh j (Nat.lt_of_not_le hlt) _ he (congrArg some hcall)

theorem loseRequest (h : ApiInv cfg s results) (n : ℕ) :
    ApiInv cfg { s with network := s.network.eraseIdx n } results := by
  have hsub := (List.eraseIdx_sublist s.network n).append_right s.servedCalls
  exact ⟨h.ran, h.fits, h.once.sublist hsub, fun call hcall ↦ h.sub call (hsub.subset hcall),
    h.number, h.unique, h.seq, h.inbox, fun q w hw ↦ (h.waiting q w hw).grow (.refl_of rfl rfl),
    fun ret hret ↦ (h.returned ret hret).grow (.refl_of rfl rfl) List.prefix_rfl⟩

/-- A server does an operation, for a call that is on its way or for the dns client. -/
theorem serve {e : Served} {routes : Fin 3 → RouteLb} {network : List Call} {clients : ℕ → Client}
    (h : ApiInv cfg s results) (hstep : (agentStore cfg).step e.op s.routes = .ok (b, routes))
    (hop : ∀ call, e.call = some call → ∃ clock, e.op = call.request.op clock)
    (hnetwork : List.Perm (e.call.toList ++ network) s.network)
    (hclients : ∀ q, (clients q).calls = (s.clients q).calls ∧
      (clients q).waiting = (s.clients q).waiting ∧
      ∀ datagram ∈ (clients q).inbox, datagram ∈ (s.clients q).inbox ∨
        ∃ call ∈ e.call, call.client = q ∧ sendResult b = .ok (some datagram)) :
    ApiInv cfg { s with
      routes := routes
      network := network
      clients := clients
      served := s.served ++ [e] } (results ++ [b]) := by
  have hlen : results.length = s.served.length := by
    simpa using length_of_runAll h.ran
  have hgrows : Grows s { s with
      routes := routes
      network := network
      clients := clients
      served := s.served ++ [e] } := ⟨List.prefix_append _ _, List.prefix_rfl⟩
  have hcalls : ({ s with
      routes := routes
      network := network
      clients := clients
      served := s.served ++ [e] } : ApiSystem).servedCalls = s.servedCalls ++ e.call.toList := by
    simp only [ApiSystem.servedCalls, List.filterMap_append]
    cases he : e.call with
    | none => simp [he]
    | some call => simp [he]
  have hperm : List.Perm (network ++ (s.servedCalls ++ e.call.toList))
      (s.network ++ s.servedCalls) := by
    refine List.Perm.trans ?_ (hnetwork.append_right s.servedCalls)
    rw [List.append_assoc, ← List.append_assoc network]
    exact List.perm_append_comm
  refine ⟨?_, ?_, ?_, ?_, ?_, h.unique, h.seq, ?_, ?_, ?_⟩
  · show runAll _ ((s.served ++ [e]).map Served.op) _ = _
    rw [List.map_append]
    exact runAll_concat h.ran hstep
  · rintro j call b' ⟨⟨clock, he⟩, hb⟩
    by_cases hj : j < s.served.length
    · rw [List.getElem?_append_left hj] at he
      rw [List.getElem?_append_left (by omega)] at hb
      exact h.fits j call b' ⟨⟨clock, he⟩, hb⟩
    · rw [List.getElem?_append_right (by omega), List.getElem?_singleton] at he
      rw [List.getElem?_append_right (by omega), List.getElem?_singleton] at hb
      split at he
      · obtain rfl := Option.some.inj he
        rw [if_pos (by omega)] at hb
        obtain rfl := Option.some.inj hb
        exact fits_of_step hstep
      · cases he
  · rw [hcalls]
    exact hperm.nodup_iff.mpr h.once
  · rw [hcalls]
    exact fun call hcall ↦ h.sub call (hperm.mem_iff.mp hcall)
  · intro call hcall
    show _ < (clients call.client).calls _
    rw [(hclients call.client).1]
    exact h.number call hcall
  · intro q datagram hmem
    rcases (hclients q).2.2 datagram hmem with hold | ⟨call, hcall, hq, hsend⟩
    · obtain ⟨j, call, b', hserved, h'⟩ := h.inbox q datagram hold
      exact ⟨j, call, b', hserved.grow hgrows (List.prefix_append _ _), h'⟩
    · obtain ⟨clock, hclock⟩ := hop call hcall
      refine ⟨s.served.length, call, b, ⟨⟨clock, ?_⟩, ?_⟩, hq, hsend⟩
      · rw [List.getElem?_concat_length, ← hclock, ← show e.call = some call from hcall]
      · rw [← hlen, List.getElem?_concat_length]
  · intro q w hw
    refine (h.waiting q w ?_).grow hgrows
    rwa [← (hclients q).2.1]
  · exact fun ret hret ↦ (h.returned ret hret).grow hgrows (List.prefix_append _ _)

/-- Every step keeps the invariant. -/
theorem step {e : ApiEvent} (h : ApiInv cfg s results) (hst : s.step cfg e = some t) :
    ∃ results', ApiInv cfg t results' := by
  cases e with
  | getHost p modid cmdid =>
      refine ⟨results, h.start (fun seq modid' cmdid' hreq ↦ ?_) hst⟩
      cases hreq
      rfl
  | getRoute p modid cmdid => exact ⟨results, h.start (fun _ _ _ hreq ↦ by cases hreq) hst⟩
  | report p modid cmdid ip port isSucc =>
      simp only [ApiSystem.step] at hst
      split at hst
      · cases hst
      · exact ⟨results, h.start (fun _ _ _ hreq ↦ by cases hreq) hst⟩
  | serve n clock =>
      simp only [ApiSystem.step] at hst
      split at hst
      · cases hst
      · rename_i call hcall
        rw [doRead_request] at hst
        cases hrun : RouteLb.step cfg (call.request.op clock) (s.routes call.request.server) with
        | error e =>
            rw [hrun] at hst
            cases hst
        | ok q =>
            obtain ⟨b, r⟩ := q
            cases hsend : sendResult b with
            | error e =>
                simp only [hrun, hsend, Outcome.ok_bind, Outcome.error_bind] at hst
                cases hst
            | ok reply =>
                simp only [hrun, hsend, Outcome.ok_bind] at hst
                obtain rfl := Option.some.inj hst
                have hhome := call.request.homeOf_key clock
                refine ⟨results ++ [b], h.serve (e := ⟨some call, call.request.op clock⟩)
                  (agentStore_step_eq hhome hrun) (fun call' hcall' ↦ ?_) ?_ fun q ↦ ?_⟩
                · obtain rfl := Option.some.inj hcall'
                  exact ⟨clock, rfl⟩
                · obtain ⟨hlt, hn⟩ := List.getElem?_eq_some_iff.mp hcall
                  rw [← hn]
                  exact List.getElem_cons_eraseIdx_perm hlt
                · by_cases hq : q = call.client
                  · subst hq
                    simp only [ApiSystem.setClient, Function.update_self]
                    refine ⟨trivial, trivial, fun datagram hmem ↦ ?_⟩
                    refine (List.mem_append.mp hmem).imp_right fun hmem ↦ ⟨call, rfl, rfl, ?_⟩
                    rw [hsend, Option.mem_toList.mp hmem]
                  · simp only [ApiSystem.setClient, Function.update_of_ne hq]
                    exact ⟨trivial, trivial, fun _ hmem ↦ .inl hmem⟩
  | update res clock =>
      simp only [ApiSystem.step] at hst
      split at hst
      · cases hst
      · rename_i r hupdate
        obtain rfl := Option.some.inj hst
        have hrun : RouteLb.step cfg (.updateHost res clock) (s.routes
            (agentIndex res.modid res.cmdid)) = .ok (.updated, r) := by
          simp only [RouteLb.step, hupdate]
          rfl
        exact ⟨results ++ [.updated], h.serve (e := ⟨none, .updateHost res clock⟩)
          (agentStore_step_eq (homeOf_modKey res.modid res.cmdid) hrun)
          (fun _ hcall ↦ by cases hcall) (List.Perm.refl _)
          fun q ↦ ⟨rfl, rfl, fun _ hmem ↦ .inl hmem⟩⟩
  | loseRequest n =>
      obtain rfl := Option.some.inj hst
      exact ⟨results, h.loseRequest n⟩
  | loseReply p n =>
      obtain rfl := Option.some.inj hst
      exact ⟨results, h.setClient rfl (fun _ hmem ↦ List.mem_of_mem_eraseIdx hmem) (h.waiting p)⟩
  | recv p n =>
      simp only [ApiSystem.step] at hst
      split at hst
      · rename_i w datagram hw hn
        obtain rfl := Option.some.inj hst
        refine ⟨results, h.receive hw rfl (fun _ hmem ↦ List.mem_of_mem_eraseIdx hmem)
          fun datagram' hio ↦ ?_⟩
        obtain rfl := Option.some.inj hio
        exact List.mem_of_getElem? hn
      · cases hst
  | fail p =>
      simp only [ApiSystem.step] at hst
      split at hst
      · rename_i w hw
        obtain rfl := Option.some.inj hst
        exact ⟨results, h.receive hw rfl (fun _ hmem ↦ hmem) fun _ hio ↦ by cases hio⟩
      · cases hst

end ApiInv

/-- Before the first call nothing is known. -/
theorem apiInv_new : ApiInv cfg ApiSystem.new [] where
  ran := rfl
  fits _ _ _ h := by simp [ServedAt] at h
  once := .nil
  sub _ h := absurd h List.not_mem_nil
  number _ h := absurd h List.not_mem_nil
  unique _ h := absurd h List.not_mem_nil
  seq _ h := absurd h List.not_mem_nil
  inbox _ _ h := absurd h List.not_mem_nil
  waiting _ _ h := by cases h
  returned _ h := absurd h List.not_mem_nil

/-- The invariant holds in every run. -/
theorem apiInv_of_reachable (h : (apiCalls cfg).Reachable s) :
    ∃ results, ApiInv cfg s results := by
  refine h.induction (I := fun s ↦ ∃ results, ApiInv cfg s results) ?_ ?_
  · rintro _ rfl
    exact ⟨[], apiInv_new⟩
  · rintro s e t - ⟨results, hi⟩ hst
    exact hi.step hst

/-- The servers do what one `route_lb` would do. -/
theorem ApiInv.exists_run (h : ApiInv cfg s results) : ∃ r,
    runAll (RouteLb.step cfg) (s.served.map Served.op) RouteLb.new = .ok (results, r) := by
  have hempty : (agentStore cfg).get (fun _ ↦ RouteLb.new) = (routeStore cfg).get RouteLb.new := rfl
  obtain ⟨r, hr, -⟩ := (agentStore_local cfg).run_sim (routeStore_local cfg) hempty h.ran
  exact ⟨r, hr⟩

/-- Calls of `get_host` with the same request are the same, when the numbers have not been
used twice. -/
theorem ApiInv.call_eq (h : ApiInv cfg s results)
    (hnumbers : ∀ call ∈ s.made, call.request.kind = .host → call.number < 2 ^ 32)
    {call call' : Call} (hcall : call ∈ s.made) (hcall' : call' ∈ s.made)
    (hclient : call.client = call'.client) (hreq : call.request = call'.request)
    {seq modid cmdid : UInt32} (hhost : call'.request = .host seq modid cmdid) : call = call' := by
  have hlt := hnumbers call hcall (by rw [hreq, hhost]; rfl)
  have hlt' := hnumbers call' hcall' (by rw [hhost]; rfl)
  have hseq : checkSeq call.number = checkSeq call'.number :=
    (h.seq call hcall seq modid cmdid (hreq.trans hhost)).symm.trans
      (h.seq call' hcall' seq modid cmdid hhost)
  have hnumber := congrArg UInt32.toNat hseq
  rw [toNat_checkSeq, toNat_checkSeq, Nat.mod_eq_of_lt hlt, Nat.mod_eq_of_lt hlt'] at hnumber
  exact h.unique call hcall call' hcall' hclient (congrArg Request.kind hreq) hnumber

/-! ## What the callers get -/

/-- **Calls take effect one after the other.**  What the udp servers do is what one `route_lb`
would do, one operation after the other, and each call is served at most once.  A call of
`get_host` that does not fail gives its caller the result of its own request, which was
served between the beginning and the end of the call; as long as no process calls it more
than `2 ^ 32` times. -/
theorem get_host_linearizes (h : (apiCalls cfg).Reachable s)
    (hnumbers : ∀ call ∈ s.made, call.request.kind = .host → call.number < 2 ^ 32) :
    ∃ results r, runAll (RouteLb.step cfg) (s.served.map Served.op) RouteLb.new =
        .ok (results, r) ∧ s.servedCalls.Nodup ∧
      ∀ ret ∈ s.returned, ∀ out, ret.given = .host out →
        out = (LastRetCode.retSystemError.code, none) ∨
          ∃ j clock code res pulls, ret.started ≤ j ∧ j < ret.ended ∧
            s.served[j]? = some ⟨some ret.call, ret.call.request.op clock⟩ ∧
            results[j]? = some (.host code res pulls) ∧ out = callerResult res := by
  obtain ⟨results, hi⟩ := apiInv_of_reachable h
  obtain ⟨r, hr⟩ := hi.exists_run
  refine ⟨results, r, hr, (List.nodup_append.mp hi.once).2.1, fun ret hret out hout ↦ ?_⟩
  obtain ⟨hmade, hfailed | ⟨j, call, b, hj, ⟨⟨clock, he⟩, hb⟩, hclient, hlate, hgives⟩⟩ :=
    hi.returned ret hret
  · rw [hout] at hfailed
    exact .inl hfailed
  · rw [hout] at hgives
    cases b with
    | host code res pulls =>
        obtain ⟨hreq, rfl⟩ := hgives
        have hfits := hi.fits j call _ ⟨⟨clock, he⟩, hb⟩
        obtain ⟨seq, modid, cmdid, hhost⟩ : ∃ seq modid cmdid,
            ret.call.request = .host seq modid cmdid := by
          rw [hreq] at hfits
          cases hreq' : ret.call.request with
          | host seq modid cmdid => exact ⟨seq, modid, cmdid, rfl⟩
          | route | report =>
              rw [hreq'] at hfits
              cases hfits
        obtain rfl := hi.call_eq hnumbers (hi.served_made he rfl) hmade hclient hreq hhost
        exact .inr ⟨j, clock, code, res, pulls, hlate rfl, hj, he, hb, rfl⟩
    | route | status | updated => cases hgives

/-- The hosts of a module. -/
def oneHostRes : GetRouteResponse := ⟨1, 1, [⟨3232235953, 7777⟩]⟩

/-- One process asks for a host twice, before and after the hosts of the module have come; the
first request is served late, and another process asks for all hosts. -/
def fewCalls : List ApiEvent :=
  [.getHost 0 1 1, .serve 0 fun _ ↦ 100, .fail 0, .update oneHostRes fun _ ↦ 100, .getHost 0 1 1,
    .getRoute 1 1 1, .serve 1 fun _ ↦ 101, .serve 0 fun _ ↦ 101, .recv 0 0, .recv 0 0, .recv 1 0]

/-- The state after a step, if it can be taken. -/
def ApiSystem.next (cfg : LoadBalanceConfig) (s : ApiSystem) (e : ApiEvent) : ApiSystem :=
  (s.step cfg e).getD s

/-- The processes and the agent after these steps. -/
def called : ApiSystem := fewCalls.foldl (ApiSystem.next .default) .new

theorem called_reachable : (apiCalls .default).Reachable called := by
  refine LTS.Reachable.run (.init rfl) (LTS.Run.foldl
    (C := fun s e ↦ (s.step .default e).isSome = true) (fun s e h ↦ ?_) ?_)
  · obtain ⟨t, ht⟩ := Option.isSome_iff_exists.mp h
    show s.step .default e = some ((s.step .default e).getD s)
    rw [ht]
    rfl
  · repeat' constructor

theorem get_host_linearizes_few :
    called.returned.length = 3 ∧
      ∃ results r, runAll (RouteLb.step .default) (called.served.map Served.op) RouteLb.new =
          .ok (results, r) ∧ called.servedCalls.Nodup ∧
        ∀ ret ∈ called.returned, ∀ out, ret.given = .host out →
          out = (LastRetCode.retSystemError.code, none) ∨
            ∃ j clock code res pulls, ret.started ≤ j ∧ j < ret.ended ∧
              called.served[j]? = some ⟨some ret.call, ret.call.request.op clock⟩ ∧
              results[j]? = some (.host code res pulls) ∧ out = callerResult res :=
  ⟨by decide, get_host_linearizes called_reachable (by decide)⟩

/-- **All hosts or none.**  A call of `get_route` gives no hosts, or those that the agent had
when it served a request of the same process for this module, before the call ended.  The
request need not be the call's own, since the replies are not numbered.  (A response of
`2 ^ 31` bytes or more has no length that `get_route` could read.) -/
theorem get_route_answers (h : (apiCalls cfg).Reachable s) :
    ∃ results r, runAll (RouteLb.step cfg) (s.served.map Served.op) RouteLb.new =
        .ok (results, r) ∧
      ∀ ret ∈ s.returned, ∀ hosts, ret.given = .route hosts →
        hosts = [] ∨ ∃ j call clock code res pulls, j < ret.ended ∧
          s.served[j]? = some ⟨some call, call.request.op clock⟩ ∧
          results[j]? = some (.route code res pulls) ∧ call.client = ret.call.client ∧
          (res.serialize.length < 2 ^ 31 →
            call.request = ret.call.request ∧ hosts = res.host.map routeEntry) := by
  obtain ⟨results, hi⟩ := apiInv_of_reachable h
  obtain ⟨r, hr⟩ := hi.exists_run
  refine ⟨results, r, hr, fun ret hret hosts hhosts ↦ ?_⟩
  obtain ⟨-, hfailed | ⟨j, call, b, hj, ⟨⟨clock, he⟩, hb⟩, hclient, -, hgives⟩⟩ :=
    hi.returned ret hret
  · rw [hhosts] at hfailed
    exact .inl hfailed
  · rw [hhosts] at hgives
    cases b with
    | route code res pulls =>
        exact .inr ⟨j, call, clock, code, res, pulls, hj, he, hb, hclient, hgives⟩
    | host | status | updated => cases hgives

theorem get_route_answers_few :
    called.returned.length = 3 ∧
      ∃ results r, runAll (RouteLb.step .default) (called.served.map Served.op) RouteLb.new =
          .ok (results, r) ∧
        ∀ ret ∈ called.returned, ∀ hosts, ret.given = .route hosts →
          hosts = [] ∨ ∃ j call clock code res pulls, j < ret.ended ∧
            called.served[j]? = some ⟨some call, call.request.op clock⟩ ∧
            results[j]? = some (.route code res pulls) ∧ call.client = ret.call.client ∧
            (res.serialize.length < 2 ^ 31 →
              call.request = ret.call.request ∧ hosts = res.host.map routeEntry) :=
  ⟨by decide, get_route_answers called_reachable⟩

end Ylars.System
