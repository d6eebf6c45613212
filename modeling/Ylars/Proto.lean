import Mathlib.Data.Nat.Notation

/-!
# Messages

The messages of `ylars.proto` that the modelled code builds or reads, with the
fields it uses.  `uint32` fields are `UInt32`, `int32` fields `Int32`, repeated
fields lists; a message field that may be absent is an `Option`.
-/

namespace Ylars.Proto

/-- Result codes. -/
inductive LastRetCode where
  | retSucc
  | retOverload
  | retSystemError
  | retNoexist
deriving DecidableEq, Repr

/-- The address of a host. -/
structure HostInfo where
  ip : UInt32
  port : UInt32
deriving DecidableEq, Repr

/-- A request for the hosts of a module. -/
structure GetRouteRequest where
  modid : UInt32
  cmdid : UInt32
deriving DecidableEq, Repr

/-- The hosts of a module. -/
structure GetRouteResponse where
  modid : UInt32
  cmdid : UInt32
  host : List HostInfo
deriving DecidableEq, Repr

/-- A request for one host of a module. -/
structure GetHostRequest where
  seq : UInt32
  modid : UInt32
  cmdid : UInt32
deriving DecidableEq, Repr

/-- One host of a module, or a code that says why there is none. -/
structure GetHostResponse where
  seq : UInt32
  modid : UInt32
  cmdid : UInt32
  retcode : LastRetCode
  host : Option HostInfo
deriving DecidableEq, Repr

/-- The outcome of one call to a host. -/
structure ReportRequest where
  modid : UInt32
  cmdid : UInt32
  host : HostInfo
  issucc : Bool
deriving DecidableEq, Repr

/-- The counters of one host in a status report. -/
structure HostCallResult where
  ip : UInt32
  port : UInt32
  succ : UInt32
  err : UInt32
  overload : Bool
deriving DecidableEq, Repr

/-- A status report on all hosts of a module. -/
structure ReportStatusReq where
  modid : UInt32
  cmdid : UInt32
  caller : Int32
  ts : UInt32
  result : List HostCallResult
deriving DecidableEq, Repr

end Ylars.Proto
