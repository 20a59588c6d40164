import Xv6.Kernel.Param
import Mathlib.Logic.Function.Basic

/-!
# `Xv6.Kernel.Proc`: the process table of `proc.c`, with its locks

Every process has a kernel thread and every CPU a scheduler thread. A step is one
acquisition of a spinlock, one release, or the block of field updates and tests between two
of them. Threads interleave at every step.

`Pc` is the program counter of a thread: for each place in `fork`, `exit`, `wait`, `kill`,
`sleep`, `wakeup`, `yield` and `scheduler` where the next step starts, with the local
variables that are still needed. A process in `user` runs code that does not touch the
process table; what it does next is a choice, as are a failed allocation in `fork` and a
failed `copyout` in `wait`.

`freeproc` is one step. Its caller holds `p->lock`, and `p->parent`, which others read under
`wait_lock`, is already 0 unless the caller holds `wait_lock` too.

Not in the source are the fields of `Table` from `gen` on. `gen` numbers the processes in
the order of their `allocproc`, since a slot and, after 2^32 calls of `fork`, a pid can be
used again. `events` lists what the calls have returned or have been given, last first.
-/

set_option autoImplicit false

namespace Xv6

/-- A C `int`. -/
abbrev CInt := BitVec 32

/-- An entry of `proc[NPROC]`. -/
abbrev Slot := Fin NPROC

/-- `initproc`: `userinit` allocates it from the empty table. -/
def initproc : Slot := ⟨0, by decide⟩

/-- The slot after `i`; the scheduler starts over after the last one. -/
def Slot.next (i : Slot) : Slot := ⟨(i + 1) % NPROC, Nat.mod_lt _ (by decide)⟩

inductive ProcState where
  | unused | used | sleeping | runnable | running | zombie
  deriving DecidableEq

/-- What a process sleeps on: the address of a process, or something else. -/
inductive Chan where
  | proc (p : Slot)
  | other (a : Nat)
  deriving DecidableEq

/-- The fields of `struct proc` that the functions of this module read. -/
structure Proc where
  state : ProcState
  chan : Option Chan
  killed : Bool
  xstate : CInt
  pid : CInt
  parent : Option Slot
  deriving DecidableEq

/-- What a call was given or has returned; processes are named by their number. -/
inductive Event where
  /-- `fork` returned `pid` to process `g`; the child is `child` -/
  | forked (g child : Nat) (pid : CInt)
  /-- `exit(status)` -/
  | exited (g : Nat) (status : CInt)
  /-- `wait` of `g` freed `child`; the status is there if it was copied out -/
  | waited (g child : Nat) (pid : CInt) (status : Option CInt)
  deriving DecidableEq

/-- The process table. -/
structure Table where
  proc : Slot → Proc
  nextpid : CInt
  /-- the number of the process in each slot -/
  gen : Slot → Nat
  /-- the number of the process that forked it -/
  forker : Slot → Nat
  nextGen : Nat
  events : List Event

/-- The locks: `wait_lock`, `pid_lock` and `proc[i].lock`. -/
inductive LockId where
  | wait
  | pid
  | proc (i : Slot)
  deriving DecidableEq

/-- The threads of a machine with `n` CPUs. -/
inductive Thread (n : Nat) where
  | proc (p : Slot)
  | cpu (c : Fin n)
  deriving DecidableEq

/-- Where a call of `sleep` goes on. -/
inductive SleepFor where
  | wait (addr : Nat)
  | other

/-- Where a process goes on when `scheduler` switches to it. -/
inductive Resume where
  /-- `forkret` -/
  | first
  | yielded
  | slept (w : SleepFor)

/-- Where a call of `wakeup` goes on. -/
inductive Cont where
  | user
  /-- `reparent` of an exiting process, at this index -/
  | reparent (status : CInt) (i : Nat)
  /-- `exit`, before it takes `p->lock` -/
  | exit (status : CInt)
  /-- an interrupt in `scheduler` -/
  | scan (i : Slot)

/-- The program counters. -/
inductive Pc where
  /-- no thread in this slot -/
  | idle
  /-- switched out -/
  | off (k : Resume)
  /-- switched out for good -/
  | zombie
  /-- back from `swtch`, with `p->lock` -/
  | back (k : Resume)
  | awake (w : SleepFor)
  /-- in `sched`; an exiting process does not come back -/
  | sched (k : Option Resume)
  | user
  -- yield and sleep
  | yieldLock
  | yieldSet
  | sleepLock (a : Nat)
  | sleepSet (a : Nat)
  -- wakeup
  | wake (j : Nat) (chan : Option Chan) (c : Cont)
  | wakeCheck (j : Slot) (chan : Option Chan) (c : Cont)
  | wakeRel (j : Slot) (chan : Option Chan) (c : Cont)
  -- kill
  | kill (i : Nat) (pid : CInt)
  | killCheck (i : Slot) (pid : CInt)
  | killRel (i : Slot) (pid : CInt) (found : Bool)
  -- fork: allocproc
  | alloc (i : Nat)
  | allocCheck (np : Slot)
  | allocRel (np : Slot)
  | pidLock (np : Slot)
  | pidNext (np : Slot)
  | pidRel (np : Slot) (pid : CInt)
  | allocUsed (np : Slot) (pid : CInt)
  -- fork: the rest
  | forkCopy (np : Slot)
  | forkFail (np : Slot)
  | forkRel (np : Slot) (pid : CInt)
  | forkWait (np : Slot) (pid : CInt)
  | forkParent (np : Slot) (pid : CInt)
  | forkRelWait (np : Slot) (pid : CInt)
  | forkLock (np : Slot) (pid : CInt)
  | forkRun (np : Slot) (pid : CInt)
  | forkDone (np : Slot) (pid : CInt)
  | forkRet (np : Slot) (pid : CInt)
  -- exit
  | exitWait (status : CInt)
  | reparent (status : CInt) (i : Nat)
  | exitWake (status : CInt)
  | exitLock (status : CInt)
  | exitSet (status : CInt)
  | exitRel
  -- wait
  | waitLock (addr : Nat)
  | waitScan (addr i : Nat) (havekids : Bool)
  | waitChild (addr : Nat) (np : Slot)
  | waitCheck (addr : Nat) (np : Slot)
  | waitNext (addr : Nat) (np : Slot)
  | waitRel (np : Slot) (ret : CInt)
  | waitRet (ret : CInt)
  | waitSleep (addr : Nat)
  | waitSleepRel (addr : Nat)
  | waitSleepSet (addr : Nat)
  -- scheduler
  | scan (i : Slot)
  | scanCheck (i : Slot)
  | scanRel (i : Slot)
  | running (i : Slot)

/-- What is not determined by the program. -/
inductive Choice (n : Nat) where
  | go
  /-- an allocation or a `copyout` fails -/
  | fail
  /-- the CPU that the process runs on -/
  | cpu (c : Fin n)
  | fork
  | exit (status : CInt)
  | wait (addr : Nat)
  | kill (pid : CInt)
  | yield
  | sleep (a : Nat)
  | wakeup (a : Nat)
  /-- an unexpected trap -/
  | trap

def Choice.fails {n : Nat} : Choice n → Bool
  | .fail => true
  | _ => false

/-- A step of one thread. -/
inductive Instr where
  | acquire (l : LockId) (next : Pc)
  | release (l : LockId) (next : Pc)
  | set (tab : Table) (next : Pc)
  /-- set up or tear down the thread of a slot as well -/
  | setSlot (tab : Table) (i : Slot) (slotPc next : Pc)

/-- The state of the machine. -/
structure Machine (n : Nat) where
  tab : Table
  owner : LockId → Option (Thread n)
  pc : Thread n → Pc

namespace Table

/-- Replace the entry of slot `i`. -/
def upd (tab : Table) (i : Slot) (p : Proc) : Table :=
  { tab with proc := Function.update tab.proc i p }

def log (tab : Table) (e : Event) : Table := { tab with events := e :: tab.events }

/-- `freeproc`. -/
def freeproc (tab : Table) (i : Slot) : Table :=
  tab.upd i { tab.proc i with
    pid := 0, parent := none, chan := none, killed := false, xstate := 0, state := .unused }

/-- The assignments `p->pid = pid; p->state = USED` of `allocproc`. -/
def alloc (tab : Table) (i : Slot) (pid : CInt) : Table :=
  { tab.upd i { tab.proc i with pid := pid, state := .used } with
    gen := Function.update tab.gen i tab.nextGen
    nextGen := tab.nextGen + 1 }

/-- `np->parent = p` in `fork`. -/
def setParent (tab : Table) (np p : Slot) : Table :=
  { tab.upd np { tab.proc np with parent := some p } with
    forker := Function.update tab.forker np (tab.gen p) }

/-- The test and the assignment of `wakeup`. -/
def wake (tab : Table) (j : Slot) (chan : Option Chan) : Table :=
  let q := tab.proc j
  if q.state = .sleeping ∧ q.chan = chan then tab.upd j { q with state := .runnable } else tab

/-- The assignments of `kill` once the pid matches. -/
def kill (tab : Table) (i : Slot) : Table :=
  let q := tab.proc i
  tab.upd i { q with
    killed := true, state := if q.state = .sleeping then .runnable else q.state }

end Table

/-- Where the caller of `wakeup` goes on. -/
def Cont.pc : Cont → Pc
  | .user => .user
  | .reparent status i => .reparent status i
  | .exit status => .exitLock status
  | .scan i => .scan i

/-- The loop of `wakeup`, run by process `self` or by a scheduler. -/
def wakeInstr (tab : Table) (self : Option Slot) : Pc → Option Instr
  | .wake j chan c =>
    if h : j < NPROC then
      if self = some ⟨j, h⟩ then some (.set tab (.wake (j + 1) chan c))
      else some (.acquire (.proc ⟨j, h⟩) (.wakeCheck ⟨j, h⟩ chan c))
    else some (.set tab c.pc)
  | .wakeCheck j chan c => some (.set (tab.wake j chan) (.wakeRel j chan c))
  | .wakeRel j chan c => some (.release (.proc j) (.wake (j + 1) chan c))
  | _ => none

/-- What a process does from user code. -/
def userInstr {n : Nat} (tab : Table) (p : Slot) : Choice n → Option Instr
  | .fork => some (.set tab (.alloc 0))
  | .exit status =>
    -- panic("init exiting")
    if p = initproc then none
    else some (.set (tab.log (.exited (tab.gen p) status)) (.exitWait status))
  | .wait addr => some (.set tab (.waitLock addr))
  | .kill pid => some (.set tab (.kill 0 pid))
  | .yield => some (.set tab .yieldLock)
  | .sleep a => some (.set tab (.sleepLock a))
  | .wakeup a => some (.set tab (.wake 0 (some (.other a)) .user))
  | .trap => some (.set (tab.upd p { tab.proc p with killed := true }) .user)
  | _ => none

/-- The steps of `fork`. -/
def forkInstr (tab : Table) (p : Slot) (fails : Bool) : Pc → Option Instr
  | .alloc i =>
    if h : i < NPROC then some (.acquire (.proc ⟨i, h⟩) (.allocCheck ⟨i, h⟩))
    else some (.set tab .user)
  | .allocCheck np =>
    if (tab.proc np).state = .unused then some (.set tab (.pidLock np))
    else some (.set tab (.allocRel np))
  | .allocRel np => some (.release (.proc np) (.alloc (np + 1)))
  | .pidLock np => some (.acquire .pid (.pidNext np))
  | .pidNext np => some (.set { tab with nextpid := tab.nextpid + 1 } (.pidRel np tab.nextpid))
  | .pidRel np pid => some (.release .pid (.allocUsed np pid))
  | .allocUsed np pid => some (.set (tab.alloc np pid) (.forkCopy np))
  | .forkCopy np =>
    -- kalloc, proc_pagetable or uvmcopy may fail
    if fails then some (.setSlot (tab.freeproc np) np .idle (.forkFail np))
    else some (.setSlot tab np (.off .first) (.forkRel np (tab.proc np).pid))
  | .forkFail np => some (.release (.proc np) .user)
  | .forkRel np pid => some (.release (.proc np) (.forkWait np pid))
  | .forkWait np pid => some (.acquire .wait (.forkParent np pid))
  | .forkParent np pid => some (.set (tab.setParent np p) (.forkRelWait np pid))
  | .forkRelWait np pid => some (.release .wait (.forkLock np pid))
  | .forkLock np pid => some (.acquire (.proc np) (.forkRun np pid))
  | .forkRun np pid =>
    some (.set (tab.upd np { tab.proc np with state := .runnable }) (.forkDone np pid))
  | .forkDone np pid => some (.release (.proc np) (.forkRet np pid))
  | .forkRet np pid => some (.set (tab.log (.forked (tab.gen p) (tab.gen np) pid)) .user)
  | _ => none

/-- The steps of `exit` and `reparent`. -/
def exitInstr (tab : Table) (p : Slot) : Pc → Option Instr
  | .exitWait status => some (.acquire .wait (.reparent status 0))
  | .reparent status i =>
    if h : i < NPROC then
      let pp := tab.proc ⟨i, h⟩
      if pp.parent = some p then
        some (.set (tab.upd ⟨i, h⟩ { pp with parent := some initproc })
          (.wake 0 (some (.proc initproc)) (.reparent status (i + 1))))
      else some (.set tab (.reparent status (i + 1)))
    else some (.set tab (.exitWake status))
  | .exitWake status =>
    some (.set tab (.wake 0 ((tab.proc p).parent.map .proc) (.exit status)))
  | .exitLock status => some (.acquire (.proc p) (.exitSet status))
  | .exitSet status =>
    some (.set (tab.upd p { tab.proc p with xstate := status, state := .zombie }) .exitRel)
  | .exitRel => some (.release .wait (.sched none))
  | _ => none

/-- The steps of `wait`. -/
def waitInstr (tab : Table) (p : Slot) (fails : Bool) : Pc → Option Instr
  | .waitLock addr => some (.acquire .wait (.waitScan addr 0 false))
  | .waitScan addr i havekids =>
    if h : i < NPROC then
      if (tab.proc ⟨i, h⟩).parent = some p then some (.set tab (.waitChild addr ⟨i, h⟩))
      else some (.set tab (.waitScan addr (i + 1) havekids))
    else if !havekids || (tab.proc p).killed then some (.set tab (.waitRet (-1)))
    else some (.set tab (.waitSleep addr))
  | .waitChild addr np => some (.acquire (.proc np) (.waitCheck addr np))
  | .waitCheck addr np =>
    let q := tab.proc np
    if q.state = .zombie then
      -- addr != 0 && copyout(...) < 0
      if addr ≠ 0 ∧ fails then some (.set tab (.waitRel np (-1)))
      else
        let status := if addr = 0 then none else some q.xstate
        some (.setSlot ((tab.freeproc np).log (.waited (tab.gen p) (tab.gen np) q.pid status))
          np .idle (.waitRel np q.pid))
    else some (.set tab (.waitNext addr np))
  | .waitNext addr np => some (.release (.proc np) (.waitScan addr (np + 1) true))
  | .waitRel np ret => some (.release (.proc np) (.waitRet ret))
  | .waitRet _ => some (.release .wait .user)
  -- sleep(p, &wait_lock)
  | .waitSleep addr => some (.acquire (.proc p) (.waitSleepRel addr))
  | .waitSleepRel addr => some (.release .wait (.waitSleepSet addr))
  | .waitSleepSet addr =>
    some (.set (tab.upd p { tab.proc p with chan := some (.proc p), state := .sleeping })
      (.sched (some (.slept (.wait addr)))))
  | _ => none

/-- The steps of `yield`, of `sleep` on other channels, and what follows `swtch`. -/
def sleepInstr (tab : Table) (p : Slot) : Pc → Option Instr
  | .yieldLock => some (.acquire (.proc p) .yieldSet)
  | .yieldSet =>
    some (.set (tab.upd p { tab.proc p with state := .runnable }) (.sched (some .yielded)))
  | .sleepLock a => some (.acquire (.proc p) (.sleepSet a))
  | .sleepSet a =>
    some (.set (tab.upd p { tab.proc p with chan := some (.other a), state := .sleeping })
      (.sched (some (.slept .other))))
  | .back .first => some (.release (.proc p) .user)
  | .back .yielded => some (.release (.proc p) .user)
  | .back (.slept w) => some (.set (tab.upd p { tab.proc p with chan := none }) (.awake w))
  | .awake (.wait addr) => some (.release (.proc p) (.waitLock addr))
  | .awake .other => some (.release (.proc p) .user)
  | _ => none

/-- The steps of `kill`. -/
def killInstr (tab : Table) : Pc → Option Instr
  | .kill i pid =>
    if h : i < NPROC then some (.acquire (.proc ⟨i, h⟩) (.killCheck ⟨i, h⟩ pid))
    else some (.set tab .user)
  | .killCheck i pid =>
    if (tab.proc i).pid = pid then some (.set (tab.kill i) (.killRel i pid true))
    else some (.set tab (.killRel i pid false))
  | .killRel i pid found => some (.release (.proc i) (if found then .user else .kill (i + 1) pid))
  | _ => none

/-- The next step of process `p`. -/
def procInstr {n : Nat} (tab : Table) (p : Slot) (c : Choice n) : Pc → Option Instr
  | .user => userInstr tab p c
  | pc =>
    (sleepInstr tab p pc).or <| (wakeInstr tab (some p) pc).or <| (killInstr tab pc).or <|
    (forkInstr tab p c.fails pc).or <| (exitInstr tab p pc).or <|
    waitInstr tab p c.fails pc

/-- The next step of a scheduler, apart from `swtch`. -/
def cpuInstr {n : Nat} (tab : Table) (c : Choice n) : Pc → Option Instr
  | .scan i =>
    match c with
    | .wakeup a => some (.set tab (.wake 0 (some (.other a)) (.scan i)))
    | _ => some (.acquire (.proc i) (.scanCheck i))
  | .scanCheck i => if (tab.proc i).state = .runnable then none else some (.set tab (.scanRel i))
  | .scanRel i => some (.release (.proc i) (.scan (Slot.next i)))
  | pc => wakeInstr tab none pc

namespace Machine

variable {n : Nat}

/-- Carry out a step of thread `t`. -/
def exec (m : Machine n) (t : Thread n) : Instr → Option (Machine n)
  | .acquire l next =>
    if m.owner l = none then
      some { m with
        owner := Function.update m.owner l (some t), pc := Function.update m.pc t next }
    else none
  | .release l next =>
    some { m with owner := Function.update m.owner l none, pc := Function.update m.pc t next }
  | .set tab next => some { m with tab := tab, pc := Function.update m.pc t next }
  | .setSlot tab i slotPc next =>
    some { m with
      tab := tab, pc := Function.update (Function.update m.pc t next) (.proc i) slotPc }

/-- `swtch` from process `p` to the scheduler of CPU `c`, which goes on with `p->lock`. -/
def swtchOut (m : Machine n) (p : Slot) (c : Fin n) (next : Pc) : Machine n :=
  { m with
    owner := Function.update m.owner (.proc p) (some (.cpu c))
    pc := Function.update (Function.update m.pc (.proc p) next) (.cpu c) (.scanRel p) }

/-- `p->state = RUNNING` and `swtch` from the scheduler of CPU `c` to process `p`, which goes
on with `p->lock`. -/
def swtchIn (m : Machine n) (p : Slot) (c : Fin n) (k : Resume) : Machine n :=
  { tab := m.tab.upd p { m.tab.proc p with state := .running }
    owner := Function.update m.owner (.proc p) (some (.proc p))
    pc := Function.update (Function.update m.pc (.proc p) (.back k)) (.cpu c) (.running p) }

/-- One step of thread `t`. -/
def step (m : Machine n) (t : Thread n) (c : Choice n) : Option (Machine n) :=
  match t with
  | .proc p =>
    match m.pc (.proc p), c with
    | .sched k, .cpu c =>
      match m.pc (.cpu c) with
      | .running q =>
        if q = p then
          some (m.swtchOut p c (match k with | some k => .off k | none => .zombie))
        else none
      | _ => none
    | pc, c => (procInstr m.tab p c pc).bind (m.exec (.proc p))
  | .cpu d =>
    match m.pc (.cpu d) with
    | .scanCheck i =>
      if (m.tab.proc i).state = .runnable then
        match m.pc (.proc i) with
        | .off k => some (m.swtchIn i d k)
        | _ => none
      else (cpuInstr m.tab c (.scanCheck i)).bind (m.exec (.cpu d))
    | pc => (cpuInstr m.tab c pc).bind (m.exec (.cpu d))

/-- After `userinit`: the first process is ready, and every CPU starts its scheduler. -/
def boot (n : Nat) : Machine n :=
  { tab :=
      { proc := fun i =>
          if i = initproc then
            { state := .runnable, chan := none, killed := false, xstate := 0, pid := 1
              parent := none }
          else
            { state := .unused, chan := none, killed := false, xstate := 0, pid := 0
              parent := none }
        nextpid := 2
        gen := fun _ => 0
        forker := fun _ => 0
        nextGen := 1
        events := [] }
    owner := fun _ => none
    pc := fun t =>
      match t with
      | .proc p => if p = initproc then .off .first else .idle
      | .cpu _ => .scan initproc }

/-- A run: the threads that take the steps, and their choices. -/
def run (m : Machine n) : List (Thread n × Choice n) → Option (Machine n)
  | [] => some m
  | (t, c) :: acts => (m.step t c).bind fun m' => m'.run acts

end Machine

end Xv6
