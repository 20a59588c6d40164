import Xv6.Kernel.LogOps
import Xv6.Lib.Monitor

/-!
# `Xv6.Kernel.LogSleep`: processes at `log.lock`

The critical sections of `Xv6.Kernel.LogOps` as the program of a monitor, so that `begin_op`
really sleeps on `&log` and `end_op` really wakes it up. A process calls `begin_op`, then
`log_write` any number of times, then `end_op`. The process whose `end_op` finds no other
operation outstanding runs `commit` without the lock and then takes the lock once more.
-/

set_option autoImplicit false

namespace Xv6

open Lib

/-- Where a process is in `log.c`. -/
inductive LogPlace where
  | idle
  | beginOp
  /-- between `begin_op` and `end_op` -/
  | active
  | logWrite (b : Nat)
  | endOp
  /-- in `commit()`, without the lock -/
  | commit
  /-- back from `commit()` -/
  | committed
  deriving DecidableEq

/-- What a process does next outside the lock. -/
inductive LogCall where
  | beginOp
  | logWrite (b : Nat)
  | endOp
  | commit
  deriving DecidableEq

namespace Log

/-- What `commit` does to `struct log`; the disk writes are in `Xv6.commit`. -/
def commitDone (log : Log) : Log := if log.lh.n > 0 then log.setN 0 else log

/-- Calls, and the end of `commit`, which resets `lh.n` without `log.lock`. -/
def outside : LogCall → LogPlace → Log → Option (Log × LogPlace)
  | .beginOp, .idle, log => some (log, .beginOp)
  | .logWrite b, .active, log => some (log, .logWrite b)
  | .endOp, .active, log => some (log, .endOp)
  | .commit, .commit, log => some (log.commitDone, .committed)
  | _, _, _ => none

/-- The places before an `acquire(&log.lock)`. -/
def enters : LogPlace → Bool
  | .beginOp | .logWrite _ | .endOp | .committed => true
  | .idle | .active | .commit => false

/-- One critical section of `log.lock`. `()` is the channel `&log`. -/
def body : LogPlace → Log → Option (Section Log LogPlace Unit)
  | .beginOp, log =>
    match log.beginOp with
    | none => some { data := log, wakes := none, after := .sleep () .beginOp }
    | some log' => some { data := log', wakes := none, after := .leave .active }
  | .logWrite b, log =>
    match log.logWrite b with
    | .error _ => none
    | .ok (log', _) => some { data := log', wakes := none, after := .leave .active }
  | .endOp, log =>
    match log.endOp with
    | .error _ => none
    | .ok (log', true) => some { data := log', wakes := none, after := .leave .commit }
    | .ok (log', false) => some { data := log', wakes := some (), after := .leave .idle }
  | .committed, log =>
    some { data := log.endCommit, wakes := some (), after := .leave .idle }
  | .idle, _ | .active, _ | .commit, _ => none

/-- The log after `initlog`. -/
def afterInit (dev : Nat) (sb : LogLayout) (block : Nat → Nat) : Log :=
  { start := sb.logstart, size := sb.nlog, outstanding := 0, committing := false, dev := dev
    lh := { n := 0, block := block } }

end Log

/-- `n` processes at the log. `kill` makes a sleeper in `begin_op` run its test again and
changes nothing else. -/
def logMonitor (n : Nat) : Monitor n Log LogPlace Unit LogCall where
  outside _ := Log.outside
  enters := Log.enters
  body _ := Log.body
  kill _ log := log

/-- `n` processes, none of them in an operation. -/
def logStart (n : Nat) (log : Log) : Monitor.State n Log LogPlace Unit :=
  Monitor.start log fun _ => .idle

end Xv6
