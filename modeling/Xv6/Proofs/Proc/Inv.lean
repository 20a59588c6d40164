import Xv6.Kernel.Proc
import Xv6.Lib.Locks
import Mathlib.Tactic.Common

/-!
# `Xv6.Proofs.Proc.Inv`: the invariant of the process table

The invariant has two halves. `Lib.Sync` says that the owner stored in every lock is the
thread whose program counter is inside it (`pcLocks`). `TableInv` is about the table and
about how far each process has come with `fork` and `exit` (`pcFork`, `pcExit`); it does
not mention locks. The locks enter only where a step of one process
could disturb the stage of another one.

`Lawful` is what the history of the calls must be like: every event is justified by the
events before it.
-/

set_option autoImplicit false

namespace Xv6.Proofs

open Lib

/-! ### The locks of a program counter -/

/-- The locks that the caller of `wakeup` holds. -/
def contLocks : Cont → List LockId
  | .user => []
  | .reparent _ _ => [.wait]
  | .exit _ => [.wait]
  | .scan _ => []

/-- The lock of the thread's own slot. -/
def ownLock : Option Slot → List LockId
  | some p => [.proc p]
  | none => []

/-- The locks that a thread holds, where `self` is its slot. -/
def pcLocks (self : Option Slot) : Pc → List LockId
  | .back _ => ownLock self
  | .awake _ => ownLock self
  | .sched _ => ownLock self
  | .yieldSet => ownLock self
  | .sleepSet _ => ownLock self
  | .wake _ _ c => contLocks c
  | .wakeCheck j _ c => .proc j :: contLocks c
  | .wakeRel j _ c => .proc j :: contLocks c
  | .killCheck i _ => [.proc i]
  | .killRel i _ _ => [.proc i]
  | .allocCheck np => [.proc np]
  | .allocRel np => [.proc np]
  | .pidLock np => [.proc np]
  | .pidNext np => [.pid, .proc np]
  | .pidRel np _ => [.pid, .proc np]
  | .allocUsed np _ => [.proc np]
  | .forkCopy np => [.proc np]
  | .forkFail np => [.proc np]
  | .forkRel np _ => [.proc np]
  | .forkParent _ _ => [.wait]
  | .forkRelWait _ _ => [.wait]
  | .forkRun np _ => [.proc np]
  | .forkDone np _ => [.proc np]
  | .reparent _ _ => [.wait]
  | .exitWake _ => [.wait]
  | .exitLock _ => [.wait]
  | .exitSet _ => .wait :: ownLock self
  | .exitRel => .wait :: ownLock self
  | .waitScan _ _ _ => [.wait]
  | .waitChild _ _ => [.wait]
  | .waitCheck _ np => [.wait, .proc np]
  | .waitNext _ np => [.wait, .proc np]
  | .waitRel np _ => [.wait, .proc np]
  | .waitRet _ => [.wait]
  | .waitSleep _ => [.wait]
  | .waitSleepRel _ => .wait :: ownLock self
  | .waitSleepSet _ => ownLock self
  | .scanCheck i => [.proc i]
  | .scanRel i => [.proc i]
  | _ => []

def threadSlot {n : Nat} : Thread n → Option Slot
  | .proc p => some p
  | .cpu _ => none

/-- Thread `t` is inside the critical section of lock `l`. -/
def Holds {n : Nat} (pc : Thread n → Pc) (t : Thread n) (l : LockId) : Prop :=
  l ∈ pcLocks (threadSlot t) (pc t)

/-! ### How far a process has come -/

/-- How far a process has come with `fork`. -/
inductive ForkStage where
  | none
  /-- `np` is `UNUSED` and will be taken -/
  | found (np : Slot)
  /-- `np` is `USED` -/
  | copy (np : Slot)
  /-- its thread is set up -/
  | made (np : Slot) (pid : CInt)
  /-- its parent is set -/
  | linked (np : Slot) (pid : CInt)
  /-- it is `RUNNABLE` -/
  | ready (np : Slot) (pid : CInt)
  deriving DecidableEq

/-- How far a process has come with `exit`. -/
inductive ExitStage where
  | none
  | called (status : CInt)
  /-- the slots below `i` are not its children any more -/
  | reparenting (status : CInt) (i : Nat)
  /-- it has no children any more -/
  | orphaned (status : CInt)
  /-- it is a `ZOMBIE` -/
  | dead
  deriving DecidableEq

/-- What a program counter says about the state of its process. -/
inductive Mode where
  | idle
  | fresh
  | active
  | dead
  deriving DecidableEq

def pcFork : Pc → ForkStage
  | .pidLock np => .found np
  | .pidNext np => .found np
  | .pidRel np _ => .found np
  | .allocUsed np _ => .found np
  | .forkCopy np => .copy np
  | .forkRel np pid => .made np pid
  | .forkWait np pid => .made np pid
  | .forkParent np pid => .made np pid
  | .forkRelWait np pid => .linked np pid
  | .forkLock np pid => .linked np pid
  | .forkRun np pid => .linked np pid
  | .forkDone np pid => .ready np pid
  | .forkRet np pid => .ready np pid
  | _ => .none

def contExit : Cont → ExitStage
  | .user => .none
  | .reparent status i => .reparenting status i
  | .exit status => .orphaned status
  | .scan _ => .none

def pcExit : Pc → ExitStage
  | .exitWait status => .called status
  | .reparent status i => .reparenting status i
  | .exitWake status => .orphaned status
  | .wake _ _ c => contExit c
  | .wakeCheck _ _ c => contExit c
  | .wakeRel _ _ c => contExit c
  | .exitLock status => .orphaned status
  | .exitSet status => .orphaned status
  | .exitRel => .dead
  | .sched none => .dead
  | .zombie => .dead
  | _ => .none

def pcMode : Pc → Mode
  | .idle => .idle
  | .off .first => .fresh
  | .exitRel => .dead
  | .sched none => .dead
  | .zombie => .dead
  | _ => .active

/-- The child that a process in `wait` has found and is looking at. -/
def pcWait : Pc → Option Slot
  | .waitChild _ np => some np
  | .waitCheck _ np => some np
  | _ => none

/-! ### The invariant of the table -/

/-- The process is neither unused, nor half made, nor exited. -/
def ProcState.Live (st : ProcState) : Prop := st = .sleeping ∨ st = .runnable ∨ st = .running

/-- The state of a process fits its program counter. -/
def ModeOk (st : ProcState) : Mode → Prop
  | .idle => st = .unused ∨ st = .used
  | .fresh => ProcState.Live st ∨ st = .used
  | .active => ProcState.Live st
  | .dead => st = .zombie

/-- The slot that a process has taken in `fork` and not returned from. -/
def ForkStage.slot : ForkStage → Option Slot
  | .copy np => some np
  | .made np _ => some np
  | .linked np _ => some np
  | .ready np _ => some np
  | _ => Option.none

/-- The new process of a `fork` that process `p` is in. -/
def ForkOk (tab : Table) (pc : Slot → Pc) (p : Slot) : ForkStage → Prop
  | .none => True
  | .found np => (tab.proc np).state = .unused
  | .copy np => (tab.proc np).state = .used ∧ pcMode (pc np) = .idle ∧ (tab.proc np).parent = none
  | .made np pid => (tab.proc np).state = .used ∧ pcMode (pc np) = .fresh ∧
      (tab.proc np).parent = none ∧ (tab.proc np).pid = pid
  | .linked np pid => (tab.proc np).state = .used ∧ pcMode (pc np) = .fresh ∧
      (tab.proc np).parent = some p ∧ (tab.proc np).pid = pid ∧ tab.forker np = tab.gen p
  | .ready np pid => (tab.proc np).state ≠ .unused ∧
      (tab.proc np).parent = some p ∧ (tab.proc np).pid = pid ∧ tab.forker np = tab.gen p

/-- An `exit` that process `p` is in. -/
def ExitOk (tab : Table) (p : Slot) : ExitStage → Prop
  | .none => (tab.proc p).state ≠ .unused → ∀ v, Event.exited (tab.gen p) v ∉ tab.events
  | .called status => p ≠ initproc ∧ Event.exited (tab.gen p) status ∈ tab.events
  | .reparenting status i => p ≠ initproc ∧ Event.exited (tab.gen p) status ∈ tab.events ∧
      ∀ j : Slot, j < i → (tab.proc j).parent ≠ some p
  | .orphaned status => p ≠ initproc ∧ Event.exited (tab.gen p) status ∈ tab.events ∧
      ∀ j, (tab.proc j).parent ≠ some p
  | .dead => p ≠ initproc ∧ Event.exited (tab.gen p) (tab.proc p).xstate ∈ tab.events

/-- The process numbers in an event are below `b`. -/
def Event.Below (b : Nat) : Event → Prop
  | .forked g child _ => g < b ∧ child < b
  | .exited g _ => g < b
  | .waited g child _ _ => g < b ∧ child < b

/-- Event `e` may follow the events `past`. -/
def Justified (past : List Event) : Event → Prop
  | .forked _ child _ => ∀ g pid, Event.forked g child pid ∉ past
  | .exited g _ => ∀ v, Event.exited g v ∉ past
  | .waited g child pid status =>
    ∃ f xstatus, Event.forked f child pid ∈ past ∧ Event.exited child xstatus ∈ past ∧
      (∀ v, status = some v → v = xstatus) ∧
      (g = f ∨ (g = 0 ∧ ∃ v, Event.exited f v ∈ past)) ∧
      ∀ g' pid' status', Event.waited g' child pid' status' ∉ past

/-- Every event is justified by the ones before it; the last event comes first. -/
def Lawful : List Event → Prop
  | [] => True
  | e :: past => Justified past e ∧ Lawful past

/-- The invariant of the table. -/
structure TableInv (tab : Table) (pc : Slot → Pc) : Prop where
  mode : ∀ p, ModeOk (tab.proc p).state (pcMode (pc p))
  orphan : ∀ i, (tab.proc i).state = .unused → (tab.proc i).parent = none
  parent : ∀ i q, (tab.proc i).parent = some q → ProcState.Live (tab.proc q).state
  linked : ∀ i, i ≠ initproc → (tab.proc i).state ≠ .unused → (tab.proc i).state ≠ .used →
    (tab.proc i).parent ≠ none
  init : ProcState.Live (tab.proc initproc).state ∧ tab.gen initproc = 0
  fork : ∀ p, ForkOk tab pc p (pcFork (pc p))
  forkUniq : ∀ p q np, (pcFork (pc p)).slot = some np → (pcFork (pc q)).slot = some np → p = q
  exit : ∀ p, ExitOk tab p (pcExit (pc p))
  wait : ∀ p np, pcWait (pc p) = some np → (tab.proc np).parent = some p
  genLt : ∀ i, (tab.proc i).state ≠ .unused → tab.gen i < tab.nextGen
  genInj : ∀ i j, (tab.proc i).state ≠ .unused → (tab.proc j).state ≠ .unused →
    tab.gen i = tab.gen j → i = j
  below : ∀ e ∈ tab.events, Event.Below tab.nextGen e
  forker : ∀ i q, (tab.proc i).parent = some q → tab.forker i = tab.gen q ∨
    (q = initproc ∧ ∃ v, Event.exited (tab.forker i) v ∈ tab.events)
  forked : ∀ g child pid, Event.forked g child pid ∈ tab.events → ∀ i,
    (tab.proc i).state ≠ .unused → tab.gen i = child → ∀ p, (pcFork (pc p)).slot ≠ some i
  forkedBy : ∀ i, i ≠ initproc → (tab.proc i).state ≠ .unused →
    (∀ p, (pcFork (pc p)).slot ≠ some i) →
      Event.forked (tab.forker i) (tab.gen i) (tab.proc i).pid ∈ tab.events
  waited : ∀ g child pid status, Event.waited g child pid status ∈ tab.events → ∀ i,
    (tab.proc i).state ≠ .unused → tab.gen i ≠ child
  lawful : Lawful tab.events

end Xv6.Proofs
