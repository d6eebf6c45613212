import Mathlib.Data.Rat.Defs
import Mathlib.Algebra.Order.Ring.Rat
import Ylars.Lib.Word

/-!
# The record of one host

`host_info` counts the calls to one host.  The counters come in a real and a
virtual kind; the virtual ones start from a configured value, so that a few calls
do not decide.  `setOverload` and `setIdle` start a new counting window.

`overload_ts` is the one field the constructor leaves unset: it is `none` until
the first `setOverload`.  The counters are of type `int`: an overflow, which the language
leaves open, wraps around as the addition of the machine does.  The two rates are compared
as exact rationals.
-/

namespace Ylars.Agent

open Ylars.Lib

/-- The load-balancing settings, `load_balance_config`. -/
structure LoadBalanceConfig where
  /-- How many requests go by before an overloaded host is probed. -/
  probeNum : Int
  /-- Virtual successes at the start of an idle window. -/
  initSuccCnt : Int
  /-- Virtual failures at the start of an overload window. -/
  initErrCnt : Int
  /-- The success rate that makes a host idle. -/
  succRate : ℚ
  /-- The failure rate that makes a host overloaded. -/
  errRate : ℚ
  /-- The run of successes that makes a host idle. -/
  continSuccLimit : Int
  /-- The run of failures that makes a host overloaded. -/
  continErrLimit : Int
  /-- The length of an idle window in seconds. -/
  idleTimeout : Int
  /-- The longest stay in the overload list in seconds. -/
  overloadTimeout : Int
  /-- The age at which the hosts of a module are pulled again. -/
  updateTimeout : Int
  /-- All but `update_timeout`, a `long`, are of type `int`. -/
  fits : ∀ x ∈ [probeNum, initSuccCnt, initErrCnt, continSuccLimit, continErrLimit, idleTimeout,
    overloadTimeout], -2 ^ 31 ≤ x ∧ x < 2 ^ 31
deriving Repr

namespace LoadBalanceConfig

/-- The settings when `ylars_agent.ini` has none, from `init_agent_from_config`; the rates are
the `float`s `0.95` and `0.1`. -/
def default : LoadBalanceConfig where
  probeNum := 10
  initSuccCnt := 180
  initErrCnt := 5
  succRate := 15938355 / 2 ^ 24
  errRate := 13421773 / 2 ^ 27
  continSuccLimit := 10
  continErrLimit := 10
  idleTimeout := 15
  overloadTimeout := 15
  updateTimeout := 15
  fits := by decide

theorem continSuccLimit_lt (cfg : LoadBalanceConfig) : cfg.continSuccLimit < 2 ^ 31 :=
  (cfg.fits _ (by simp)).2

theorem continErrLimit_lt (cfg : LoadBalanceConfig) : cfg.continErrLimit < 2 ^ 31 :=
  (cfg.fits _ (by simp)).2

/-- All thresholds and timeouts are positive. -/
structure Positive (cfg : LoadBalanceConfig) : Prop where
  probeNum : 0 < cfg.probeNum
  initSuccCnt : 0 < cfg.initSuccCnt
  initErrCnt : 0 < cfg.initErrCnt
  succRate : 0 < cfg.succRate
  errRate : 0 < cfg.errRate
  continSuccLimit : 0 < cfg.continSuccLimit
  continErrLimit : 0 < cfg.continErrLimit
  idleTimeout : 0 < cfg.idleTimeout
  overloadTimeout : 0 < cfg.overloadTimeout
  updateTimeout : 0 < cfg.updateTimeout

theorem default_positive : default.Positive := by
  constructor <;> decide +kernel

end LoadBalanceConfig

/-- The readings of `time(nullptr)` during one call, in the order they are taken. -/
abbrev Clock := Nat → Int

/-- The key of a host in `_host_map`: `((uint64_t)ip << 32) + port`. -/
def hostKey (ip port : UInt32) : UInt64 := pack ip port

/-- The record of one host, `host_info`. -/
structure HostInfo where
  ip : UInt32
  port : UInt32
  vsuccCnt : Int32
  rsuccCnt : Int32
  continSucc : Int32
  verrCnt : Int32
  rerrCnt : Int32
  continErr : Int32
  overload : Bool
  idleTs : Int
  overloadTs : Option Int
deriving DecidableEq, Repr

namespace HostInfo

/-- The constructor: a fresh host is idle from now on. -/
def new (ip port : UInt32) (initSucc now : Int) : HostInfo where
  ip := ip
  port := port
  vsuccCnt := .ofInt initSucc
  rsuccCnt := 0
  continSucc := 0
  verrCnt := 0
  rerrCnt := 0
  continErr := 0
  overload := false
  idleTs := now
  overloadTs := none

/-- The key a host is filed under. -/
def key (h : HostInfo) : UInt64 := hostKey h.ip h.port

/-- `set_overload`: start an overload window. -/
def setOverload (cfg : LoadBalanceConfig) (now : Int) (h : HostInfo) : HostInfo :=
  { h with
    vsuccCnt := 0
    verrCnt := .ofInt cfg.initErrCnt
    rsuccCnt := 0
    rerrCnt := 0
    continSucc := 0
    continErr := 0
    overload := true
    overloadTs := some now }

/-- `set_idle`: start an idle window. -/
def setIdle (cfg : LoadBalanceConfig) (now : Int) (h : HostInfo) : HostInfo :=
  { h with
    vsuccCnt := .ofInt cfg.initSuccCnt
    verrCnt := 0
    rsuccCnt := 0
    rerrCnt := 0
    continSucc := 0
    continErr := 0
    overload := false
    idleTs := now }

/-- Counting one report: the first block of `load_balance::report`. -/
def record (isSucc : Bool) (h : HostInfo) : HostInfo :=
  if isSucc then
    { h with
      vsuccCnt := h.vsuccCnt + 1
      rsuccCnt := h.rsuccCnt + 1
      continSucc := h.continSucc + 1
      continErr := 0 }
  else
    { h with
      verrCnt := h.verrCnt + 1
      rerrCnt := h.rerrCnt + 1
      continErr := h.continErr + 1
      continSucc := 0 }

/-- `rate ≤ cnt * 1.0 / total`.  The quotient by zero is infinite, with the sign of `cnt`, or no
number. -/
def rateReached (rate : ℚ) (cnt total : Int32) : Bool :=
  if total = 0 then decide (0 < cnt) else decide (rate ≤ (cnt.toInt : ℚ) / total.toInt)

theorem rateReached_iff {rate : ℚ} {cnt total : Int32} (h : 0 < total.toInt) :
    rateReached rate cnt total = true ↔ rate ≤ (cnt.toInt : ℚ) / total.toInt := by
  have hne : total ≠ 0 := by
    rintro rfl
    exact absurd h (by decide)
  rw [rateReached, if_neg hne, decide_eq_true_eq]

/-- The test that turns an idle host overloaded: the failure rate or the run of
failures has reached its limit. -/
def errLimitReached (cfg : LoadBalanceConfig) (h : HostInfo) : Bool :=
  rateReached cfg.errRate h.verrCnt (h.vsuccCnt + h.verrCnt) ||
    decide (cfg.continErrLimit ≤ h.continErr.toInt)

/-- The test that turns an overloaded host idle: the success rate or the run of
successes has reached its limit. -/
def succLimitReached (cfg : LoadBalanceConfig) (h : HostInfo) : Bool :=
  rateReached cfg.succRate h.vsuccCnt (h.vsuccCnt + h.verrCnt) ||
    decide (cfg.continSuccLimit ≤ h.continSucc.toInt)

section

variable (cfg : LoadBalanceConfig) (now : Int) (isSucc : Bool) (h : HostInfo)

@[simp] theorem key_new (ip port : UInt32) (n : Int) :
    (new ip port n now).key = hostKey ip port := rfl
@[simp] theorem overload_new (ip port : UInt32) (n : Int) :
    (new ip port n now).overload = false := rfl
@[simp] theorem key_setOverload : (h.setOverload cfg now).key = h.key := rfl
@[simp] theorem overload_setOverload : (h.setOverload cfg now).overload = true := rfl
@[simp] theorem overloadTs_setOverload : (h.setOverload cfg now).overloadTs = some now := rfl
@[simp] theorem idleTs_setOverload : (h.setOverload cfg now).idleTs = h.idleTs := rfl
@[simp] theorem key_setIdle : (h.setIdle cfg now).key = h.key := rfl
@[simp] theorem overload_setIdle : (h.setIdle cfg now).overload = false := rfl
@[simp] theorem overloadTs_setIdle : (h.setIdle cfg now).overloadTs = h.overloadTs := rfl
@[simp] theorem idleTs_setIdle : (h.setIdle cfg now).idleTs = now := rfl

@[simp] theorem key_record : (h.record isSucc).key = h.key := by cases isSucc <;> rfl
@[simp] theorem overload_record : (h.record isSucc).overload = h.overload := by
  cases isSucc <;> rfl
@[simp] theorem overloadTs_record : (h.record isSucc).overloadTs = h.overloadTs := by
  cases isSucc <;> rfl
@[simp] theorem idleTs_record : (h.record isSucc).idleTs = h.idleTs := by
  cases isSucc <;> rfl
@[simp] theorem continErr_record_false : (h.record false).continErr = h.continErr + 1 := rfl

end

end HostInfo

end Ylars.Agent
