import Ylars.Lib.EventFd
import Ylars.Lib.LittleEndian
import Ylars.Lib.Table

/-!
# The connections of the server: `tcp_server`

The server keeps its live connections in `conns`, and those to be released in
`_rel_conns`, which the main thread empties.  Both are static and under one lock, as is the
flag that says whether the next hand-over must wake the main thread.

A connection object is named by its address; the pointers in `_rel_conns` may be null,
since `conns[connfd]` creates a null entry for a descriptor that has none.
-/

namespace Ylars.Reactor

open Std (ExtTreeMap)
open Ylars.Lib

/-- The eight bytes of `"need close~"` that the event descriptor takes, as a number. -/
def activateMsg : ℕ := LittleEndian.ofBytes [110, 101, 101, 100, 32, 99, 108, 111]

theorem activateMsg_pos : 0 < activateMsg := by decide

theorem activateMsg_le : activateMsg ≤ eventMax := by decide

/-- The static members of `tcp_server`. -/
structure TcpServer where
  conns : ExtTreeMap Int ℕ
  relConns : List (Option ℕ)
  /-- The counter behind `_activatefd`. -/
  activate : EventFd
  isactivate : Bool

namespace TcpServer

/-- The server before the first connection. -/
def new : TcpServer where
  conns := ∅
  relConns := []
  activate := .zero
  isactivate := true

/-- `increase_conn`. -/
def increaseConn (connfd : Int) (conn : ℕ) (ser : TcpServer) : TcpServer :=
  { ser with conns := ser.conns.insert connfd conn }

/-- The part of `decrease_conn` that moves the connection. -/
def moveConn (connfd : Int) (ser : TcpServer) : TcpServer :=
  { ser with
    conns := ser.conns.erase connfd
    relConns := ser.relConns ++ [ser.conns[connfd]?] }

/-- `decrease_conn`. -/
def decreaseConn (connfd : Int) (ser : TcpServer) : TcpServer :=
  if ser.isactivate then
    { ser.moveConn connfd with
      isactivate := false
      activate := ser.activate.write activateMsg }
  else ser.moveConn connfd

/-- The first section of `do_release`: the next pointer, unless there is none. -/
def takeRel (ser : TcpServer) : Option (Option ℕ × TcpServer) :=
  match ser.relConns with
  | [] => none
  | conn :: rest => some (conn, { ser with relConns := rest })

/-- The second section of `do_release`. -/
def rearm (ser : TcpServer) : TcpServer :=
  { ser with
    activate := ser.activate.read
    isactivate := true }

variable {ser : TcpServer} {connfd : Int}

@[simp] theorem relConns_decreaseConn :
    (ser.decreaseConn connfd).relConns = ser.relConns ++ [ser.conns[connfd]?] := by
  unfold decreaseConn
  split <;> rfl

@[simp] theorem conns_decreaseConn :
    (ser.decreaseConn connfd).conns = ser.conns.erase connfd := by
  unfold decreaseConn
  split <;> rfl

/-- `do_release` takes connections that have left `conns`. -/
theorem conns_takeRel {conn : Option ℕ} {ser' : TcpServer} (h : ser.takeRel = some (conn, ser')) :
    ser'.conns = ser.conns := by
  unfold takeRel at h
  cases hrel : ser.relConns with
  | nil =>
      rw [hrel] at h
      cases h
  | cons conn' rest =>
      rw [hrel] at h
      obtain ⟨-, rfl⟩ := Prod.mk.inj (Option.some.inj h)
      rfl

/-- After `decrease_conn` the next one does not wake the main thread. -/
@[simp] theorem isactivate_decreaseConn : (ser.decreaseConn connfd).isactivate = false := by
  unfold decreaseConn
  split
  · rfl
  · rename_i h
    exact Bool.eq_false_iff.mpr h

/-- After `decrease_conn` the main thread has been woken, if a thread that finds the flag
cleared can rely on the thread that cleared it. -/
theorem readable_decreaseConn (h : ser.isactivate = false → ser.activate.Readable) :
    (ser.decreaseConn connfd).activate.Readable := by
  by_cases hflag : ser.isactivate = true
  · simp only [decreaseConn, hflag, if_true]
    exact EventFd.readable_write activateMsg_pos activateMsg_le ser.activate
  · rw [decreaseConn, if_neg hflag]
    exact h (Bool.eq_false_iff.mpr hflag)

end TcpServer

end Ylars.Reactor
