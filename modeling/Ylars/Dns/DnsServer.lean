import Mathlib.Logic.Function.Basic
import Ylars.Dns.ChangePublish
import Ylars.Dns.Subscribe

/-!
# The threads of the DNS server

The update thread and the workers share the tables of the router, the book list and the
push list, each under its own lock.  `DnsServer` has these and the place of every thread;
a step is one section under a lock, or what a thread does on its own in between.

`add_async_task` puts `publish_change_task` into the queue of every worker, one queue
after another.  A worker takes its queue over into its event loop, and runs the tasks
there between the callbacks of its connections.  A connection belongs to the worker whose
loop listens on it; its descriptor is used again only after it has left `conns`.

Responses are numbered by the table they were read from: table `0` is that of the
constructor, and each swap installs the next one.
-/

namespace Ylars.Dns

open Std (ExtTreeMap ExtTreeSet)
open Ylars.Lib Ylars.Proto

/-- A buffered response, and the number of the table it was read from. -/
structure Answer where
  res : GetRouteResponse
  gen : Nat

/-- The module a response is for. -/
def Answer.mod (a : Answer) : UInt64 := bookKey a.res.modid a.res.cmdid

/-- A connection: the worker it lives on, its `conn_mod_set_t`, and what has been buffered
for it so far. -/
structure Conn where
  worker : Nat
  modSet : ExtTreeSet UInt64
  answers : List Answer

/-- The last response buffered for a module. -/
def Conn.last (m : UInt64) (c : Conn) : Option Answer :=
  (c.answers.filter fun a ↦ a.mod = m).getLast?

/-- What a worker is about to do. -/
inductive Pc where
  /-- Wait for an event of its loop, or start a task. -/
  | idle
  /-- `get_req`, before `subscribe`. -/
  | subscribe (fd : Int) (modid cmdid : UInt32)
  /-- `get_req` or `publish_change_task`, before `get_hosts`; the task has the rest of
  `need_publish` left. -/
  | getHosts (fd : Int) (modid cmdid : UInt32) (rest : List (Int × UInt64))
  /-- `get_req` or `publish_change_task`, before `send_msg`. -/
  | sendMsg (fd : Int) (a : Answer) (rest : List (Int × UInt64))
  /-- `publish_change_task`, with the descriptors of the loop. -/
  | makePublishMap (fds : ExtTreeSet Int)
  /-- `clean_subscribe`, with the modules that are left. -/
  | unsubscribe (fd : Int) (mods : List UInt64)

/-- The loop of `publish_change_task`: the next module to send, if any. -/
def Pc.next : List (Int × UInt64) → Pc
  | [] => .idle
  | (fd, mod) :: rest => .getHosts fd (mod >>> 32).toUInt32 mod.toUInt32 rest

/-- A worker: how often `publish_change_task` is in its queue and in its loop, and the
connections its loop listens on. -/
structure Worker where
  pc : Pc
  queue : Nat
  asyncTasks : Nat
  lfds : ExtTreeSet Int

/-- The state that the threads share, and where each of them is. -/
structure DnsServer where
  threadNum : Nat
  workers : Nat → Worker
  conns : ExtTreeMap Int Conn
  sub : SubscribeList
  publisher : Publisher
  /-- `publish` has filed the modules, and `add_async_task` has served so many queues. -/
  sending : Option Nat
  /-- The tables that were served before the one that is served now. -/
  past : List RouterMap
  /-- The vectors handed to `publish`, with the number of the table served then. -/
  published : List (Nat × List UInt64)

/-- What happens next. -/
inductive Event where
  | updater (a : Answers)
  | deal (i : Nat)
  | task (i : Nat)
  | request (i : Nat) (fd : Int) (modid cmdid : UInt32)
  | connect (i : Nat) (fd : Int)
  | close (i : Nat) (fd : Int)
  | proceed (i : Nat)

namespace DnsServer

/-- The number of the table that is served. -/
def gen (s : DnsServer) : Nat := s.past.length

/-- All tables that have been installed. -/
def tables (s : DnsServer) : List RouterMap := s.past ++ [s.publisher.router.data]

/-- Replace one worker. -/
def setWorker (i : Nat) (w : Worker) (s : DnsServer) : DnsServer :=
  { s with workers := Function.update s.workers i w }

/-- The update thread: one statement of `changet_publish`, or one section of `publish`. -/
def updater (a : Answers) (s : DnsServer) : DnsServer :=
  match s.publisher.phase, s.sending with
  | .publish mods, none =>
      { s with
        sub := s.sub.publish mods
        sending := some 0
        published := (s.gen, mods) :: s.published }
  | .publish _, some k =>
      if k < s.threadNum then
        { s.setWorker k { s.workers k with queue := (s.workers k).queue + 1 } with
          sending := some (k + 1) }
      else { s with publisher := s.publisher.step a, sending := none }
  | .swap _, _ =>
      { s with publisher := s.publisher.step a, past := s.past ++ [s.publisher.router.data] }
  | _, _ => { s with publisher := s.publisher.step a }

/-- `deal_task`: take the tasks over into the loop. -/
def deal (i : Nat) (s : DnsServer) : DnsServer :=
  let w := s.workers i
  s.setWorker i { w with queue := 0, asyncTasks := w.asyncTasks + w.queue }

/-- Start `publish_change_task`: `get_listen_fds`. -/
def startTask (i : Nat) (s : DnsServer) : Option DnsServer :=
  let w := s.workers i
  if 0 < w.asyncTasks then
    some (s.setWorker i { w with pc := .makePublishMap w.lfds, asyncTasks := w.asyncTasks - 1 })
  else none

/-- The start of `get_req`: a module that is new to the connection goes into its set. -/
def getReq (i : Nat) (fd : Int) (modid cmdid : UInt32) (s : DnsServer) : Option DnsServer :=
  let w := s.workers i
  match s.conns[fd]? with
  | some c =>
      if fd ∉ w.lfds then none
      else if bookKey modid cmdid ∈ c.modSet then
        some (s.setWorker i { w with pc := .getHosts fd modid cmdid [] })
      else
        some { s.setWorker i { w with pc := .subscribe fd modid cmdid } with
          conns := s.conns.insert fd { c with modSet := c.modSet.insert (bookKey modid cmdid) } }
  | none => none

/-- A new connection: the constructor of `tcp_conn`, `create_subscribe`, `increase_conn`. -/
def connect (i : Nat) (fd : Int) (s : DnsServer) : Option DnsServer :=
  let w := s.workers i
  match s.conns[fd]? with
  | some _ => none
  | none =>
      some { s.setWorker i { w with lfds := w.lfds.insert fd } with
        conns := s.conns.insert fd { worker := i, modSet := ∅, answers := [] } }

/-- The start of `clean`, which calls `clean_subscribe`. -/
def close (i : Nat) (fd : Int) (s : DnsServer) : Option DnsServer :=
  let w := s.workers i
  match s.conns[fd]? with
  | some c =>
      if fd ∈ w.lfds then some (s.setWorker i { w with pc := .unsubscribe fd c.modSet.toList })
      else none
  | none => none

/-- `get_hosts`, and the response made of it. -/
def answer (modid cmdid : UInt32) (s : DnsServer) : Answer where
  res := routeResponse modid cmdid (s.publisher.router.getHosts modid cmdid)
  gen := s.gen

/-- A worker goes on with what it is doing. -/
def proceed (i : Nat) (s : DnsServer) : Option DnsServer :=
  let w := s.workers i
  match w.pc with
  | .idle => none
  | .subscribe fd modid cmdid =>
      some { s.setWorker i { w with pc := .getHosts fd modid cmdid [] } with
        sub := s.sub.subscribe (bookKey modid cmdid) fd }
  | .getHosts fd modid cmdid rest =>
      some (s.setWorker i { w with pc := .sendMsg fd (s.answer modid cmdid) rest })
  | .sendMsg fd a rest =>
      match s.conns[fd]? with
      | some c =>
          some { s.setWorker i { w with pc := .next rest } with
            conns := s.conns.insert fd { c with answers := c.answers ++ [a] } }
      | none => some (s.setWorker i { w with pc := .next rest })
  | .makePublishMap fds =>
      let (needPublish, sub) := s.sub.makePublishMap fds
      some { s.setWorker i { w with pc := .next needPublish } with sub := sub }
  | .unsubscribe fd (mod :: mods) =>
      some { s.setWorker i { w with pc := .unsubscribe fd mods } with
        sub := s.sub.unsubscribe mod fd }
  | .unsubscribe fd [] =>
      some { s.setWorker i { w with pc := .idle, lfds := w.lfds.erase fd } with
        conns := s.conns.erase fd }

/-- A worker that waits. -/
def isIdle (i : Nat) (s : DnsServer) : Bool :=
  match (s.workers i).pc with
  | .idle => i < s.threadNum
  | _ => false

/-- One step. -/
def step (s : DnsServer) : Event → Option DnsServer
  | .updater a => some (s.updater a)
  | .deal i => if s.isIdle i then some (s.deal i) else none
  | .task i => if s.isIdle i then s.startTask i else none
  | .request i fd modid cmdid => if s.isIdle i then s.getReq i fd modid cmdid else none
  | .connect i fd => if s.isIdle i then s.connect i fd else none
  | .close i fd => if s.isIdle i then s.close i fd else none
  | .proceed i => s.proceed i

/-- The server with some number of workers, before the first connection. -/
def start (threadNum : Nat) (router : Router) : DnsServer where
  threadNum := threadNum
  workers := fun _ ↦ { pc := .idle, queue := 0, asyncTasks := 0, lfds := ∅ }
  conns := ∅
  sub := { bookList := ∅, pushList := ∅ }
  publisher := ⟨router, .checkVersion⟩
  sending := none
  past := []
  published := []

end DnsServer

/-- The runs of the server. -/
def dnsServer : LTS DnsServer Event where
  init s := ∃ threadNum res, s = DnsServer.start threadNum (Router.new res)
  step s e t := s.step e = some t

end Ylars.Dns
