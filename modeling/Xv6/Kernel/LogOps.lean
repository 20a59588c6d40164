import Xv6.Kernel.Log
import Mathlib.Data.Finset.Card

/-!
# `Xv6.Kernel.LogOps`: the critical sections of `log.lock`

`begin_op`, `log_write` and the two critical sections of `end_op`, each as one step of
`struct log`. A process that finds `begin_op`'s test false sleeps and runs the test again
after a wakeup, so one pass of the loop either admits the operation or changes nothing.

`runLog` runs a list of such steps, by any processes in any order, from the log that
`initlog` leaves on the disk `mkfs` lays out.
-/

set_option autoImplicit false

namespace Xv6

/-- The panics of `log.c` outside `initlog`. -/
inductive LogPanic where
  /-- "too big a transaction" -/
  | tooBig
  /-- "log_write outside of trans" -/
  | outsideTrans
  /-- "log.committing" -/
  | committing
  deriving DecidableEq

namespace Log

/-- One pass of the loop of `begin_op`; `none` when it sleeps. -/
def beginOp (log : Log) : Option Log :=
  if log.committing then
    none
  else if log.lh.n + (log.outstanding + 1) * MAXOPBLOCKS > LOGSIZE then
    -- this op might exhaust log space; wait for commit.
    none
  else
    some { log with outstanding := log.outstanding + 1 }

/-- The index at which the absorption loop of `log_write` stops: the first entry that
names `b`, or `n`. -/
def slotOf (lh : LogHeader) (b : Nat) : Nat :=
  ((List.range lh.n.toNat).find? fun i => lh.block i == b).getD lh.n.toNat

/-- `log_write` of a buffer of block `b`. The flag says that the block was added, so that
`bpin` was called. -/
def logWrite (log : Log) (b : Nat) : Except LogPanic (Log × Bool) :=
  if log.lh.n ≥ LOGSIZE ∨ log.lh.n ≥ log.size - 1 then
    .error .tooBig
  else if log.outstanding < 1 then
    .error .outsideTrans
  else
    let i := slotOf log.lh b
    let lh := { log.lh with block := Function.update log.lh.block i b }
    if (i : Int) = log.lh.n then
      .ok ({ log with lh := { lh with n := lh.n + 1 } }, true)
    else
      .ok ({ log with lh := lh }, false)

/-- The first critical section of `end_op`. The flag is `do_commit`. -/
def endOp (log : Log) : Except LogPanic (Log × Bool) :=
  let log := { log with outstanding := log.outstanding - 1 }
  if log.committing then
    .error .committing
  else if log.outstanding = 0 then
    .ok ({ log with committing := true }, true)
  else
    .ok (log, false)

/-- The second critical section of `end_op`, after `commit` has set `log.lh.n` to 0. -/
def endCommit (log : Log) : Log := { log with committing := false }

end Log

/-- What a process does at the log, one critical section at a time. `commit` stands for the
whole `commit()` of the process whose `end_op` set `committing`, together with the critical
section after it: no other step is possible in between, since `begin_op` waits and no
operation is outstanding. -/
inductive LogEvent where
  | beginOp (p : Nat)
  | logWrite (p b : Nat)
  | endOp (p : Nat)
  | commit
  deriving DecidableEq

/-- The log and the processes between their `begin_op` and their `end_op`. -/
structure LogState where
  log : Log
  active : List Nat

/-- One step; `none` when the step is not possible in this state. -/
def stepLog (s : LogState) : LogEvent → Option (Except LogPanic LogState)
  | .beginOp p =>
    if p ∈ s.active then none
    else s.log.beginOp.map fun log => .ok { log := log, active := p :: s.active }
  | .logWrite p b =>
    if p ∈ s.active then
      some ((s.log.logWrite b).map fun r => { s with log := r.1 })
    else none
  | .endOp p =>
    if p ∈ s.active then
      some (s.log.endOp.map fun r => { log := r.1, active := s.active.erase p })
    else none
  | .commit =>
    if s.log.committing then some (.ok { s with log := (s.log.setN 0).endCommit })
    else none

/-- `log` after `initlog` on the disk of `mkfs`, where `nlog = LOGSIZE`: the header block
and `LOGSIZE - 1` data blocks. -/
def mkfsLog : Log :=
  { start := 2, size := LOGSIZE, outstanding := 0, committing := false, dev := ROOTDEV
    lh := { n := 0, block := fun _ => 0 } }

/-- A run of the log; a panic ends it, and the later steps do not happen. -/
def runLog (evs : List LogEvent) : Option (Except LogPanic LogState) :=
  evs.foldl
    (fun r ev =>
      match r with
      | some (.ok s) => stepLog s ev
      | r => r)
    (some (.ok { log := mkfsLog, active := [] }))

end Xv6
