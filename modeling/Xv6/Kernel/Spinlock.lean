import Xv6.Kernel.Proc

/-!
# `Xv6.Kernel.Spinlock`: interrupts, spinlocks and context switches on one CPU

`push_off`, `pop_off`, `acquire` and `release` of `spinlock.c`, and `sched` and `scheduler` of
`proc.c`, on one CPU. The running thread is the scheduler or the kernel thread of a process. `none`
is a panic, a step that has to wait for another CPU, or one that the thread cannot take.

Steps end where interrupts may be on. An interrupt between `intr_get` and `intr_off` in `push_off`
is one just before the call. Handlers run on the thread that they interrupt, so a trap is an
`intrOff`, steps of the thread, and an `intrOn` at the return.

What the rest of the kernel does to `p->state` is arbitrary here.

Not in the source are `depth`, how many of its calls of `push_off` each thread has still to undo,
and `entry`, whether interrupts were on at the outermost of them. A process that starts in
`forkret` undoes a `push_off` of the scheduler first, and has no `entry` until then.
-/

set_option autoImplicit false

namespace Xv6.Spin

open Function (update)

structure Cpu where
  /-- the running thread: a process, or the scheduler -/
  proc : Option Slot
  /-- depth of `push_off` nesting -/
  noff : CInt
  /-- were interrupts enabled before `push_off`? -/
  intena : Bool
  /-- `intr_get()` -/
  intr : Bool

structure Spinlock where
  locked : Bool
  /-- `lk->cpu == mycpu()` -/
  cpu : Bool

inductive Lock where
  /-- `proc[p].lock` -/
  | proc (p : Slot)
  | other (a : Nat)
  deriving DecidableEq

/-- Where a process goes on when the scheduler switches to it. -/
inductive Context where
  | forkret
  /-- in `sched`, with its local variable `intena` -/
  | sched (intena : Bool)

/-- `mycpu()->intena` after the switch, if it was `now` -/
def Context.intena (now : Bool) : Context → Bool
  | .forkret => now
  | .sched intena => intena

/-- The next step of the scheduler. -/
inductive SchedPc where
  /-- `intr_on()` -/
  | top
  /-- `acquire(&p->lock)` -/
  | scan (p : Slot)
  /-- `p->state == RUNNABLE` -/
  | test (p : Slot)
  /-- `release(&p->lock)` -/
  | back (p : Slot)

/-- The scheduler holds the lock of a process. -/
def SchedPc.holds : SchedPc → Bool
  | .top | .scan _ => false
  | .test _ | .back _ => true

structure State where
  cpu : Cpu
  lock : Lock → Spinlock
  state : Slot → ProcState
  context : Slot → Context
  pc : SchedPc
  depth : Option Slot → Nat
  entry : Slot → Option Bool

def push_off (s : State) : State :=
  let old := s.cpu.intr
  let t := s.cpu.proc
  { s with
    cpu := { s.cpu with
      intr := false
      intena := if s.cpu.noff = 0 then old else s.cpu.intena
      noff := s.cpu.noff + 1 }
    depth := update s.depth t (s.depth t + 1)
    entry := fun p => if t = some p ∧ s.depth t = 0 then some old else s.entry p }

def pop_off (s : State) : Option State :=
  if s.cpu.intr = true ∨ s.cpu.noff.slt 1 = true then none
  else
    let noff := s.cpu.noff - 1
    some { s with
      cpu := { s.cpu with noff := noff, intr := decide (noff = 0) && s.cpu.intena }
      depth := update s.depth s.cpu.proc (s.depth s.cpu.proc - 1) }

def holding (s : State) (lk : Lock) : Bool := (s.lock lk).locked && (s.lock lk).cpu

def acquire (lk : Lock) (s : State) : Option State :=
  let s := push_off s
  if holding s lk = true ∨ (s.lock lk).locked = true then none
  else some { s with lock := update s.lock lk { locked := true, cpu := true } }

def release (lk : Lock) (s : State) : Option State :=
  if holding s lk = true then
    pop_off { s with lock := update s.lock lk { locked := false, cpu := false } }
  else none

/-- `sched` up to the return of `swtch` in the scheduler -/
def sched (s : State) : Option State :=
  match s.cpu.proc with
  | none => none
  | some p =>
    if holding s (.proc p) = true ∧ s.cpu.noff = 1 ∧ s.state p ≠ .running ∧ s.cpu.intr = false then
      some { s with
        context := update s.context p (.sched s.cpu.intena)
        cpu := { s.cpu with proc := none } }
    else none

/-- `swtch` from the scheduler, up to the first instruction of `forkret` or of the caller of
`sched` -/
def resume (p : Slot) (s : State) : State :=
  { s with
    state := update s.state p .running
    pc := .back p
    cpu := { s.cpu with
      proc := some p
      intena := (s.context p).intena s.cpu.intena } }

/-- The next step of `scheduler`. It looks at a process only when no handler is running. The first
slot is that of `initproc`. -/
def scheduler (s : State) : Option State :=
  match s.pc with
  | .top =>
    if s.depth none = 0 then
      some { s with cpu := { s.cpu with intr := true }, pc := .scan initproc }
    else none
  | .scan p =>
    if s.depth none = 0 then (acquire (.proc p) s).map fun s => { s with pc := .test p } else none
  | .test p => if s.state p = .runnable then some (resume p s) else some { s with pc := .back p }
  | .back p =>
    (release (.proc p) s).map fun s =>
      { s with pc := if p.val + 1 = NPROC then .top else .scan p.next }

inductive Op where
  | push_off
  | pop_off
  | acquire (lk : Lock)
  | release (lk : Lock)
  | intrOn
  | intrOff
  | setState (p : Slot) (st : ProcState)
  /-- `allocproc` gives slot `p` to a new thread -/
  | allocproc (p : Slot)
  | sched
  | scheduler

/-- A step of the running thread outside `sched` and `scheduler`. -/
def threadStep (s : State) : Op → Option State
  | .push_off => some (push_off s)
  | .pop_off => pop_off s
  | .acquire lk => acquire lk s
  | .release lk => release lk s
  | .intrOn =>
    if s.depth s.cpu.proc = 0 then some { s with cpu := { s.cpu with intr := true } } else none
  | .intrOff => some { s with cpu := { s.cpu with intr := false } }
  | .setState p st => some { s with state := update s.state p st }
  | .allocproc p =>
    if s.cpu.proc = some p then none
    else some { s with
      state := update s.state p .used
      context := update s.context p .forkret
      depth := update s.depth (some p) 1
      entry := update s.entry p none }
  | .sched => sched s
  | .scheduler => none

/-- The scheduler does its own steps, and those of the handlers that interrupt it. -/
def step (s : State) (op : Op) : Option State :=
  match s.cpu.proc, op with
  | none, .scheduler => scheduler s
  | none, op => if s.pc.holds = true then none else threadStep s op
  | some _, op => threadStep s op

/-- The state in which `main` calls `scheduler`, except for the process of `userinit`, which a
handler may as well allocate. -/
def start (intr : Bool) : State where
  cpu := { proc := none, noff := 0, intena := false, intr := intr }
  lock _ := { locked := false, cpu := false }
  state _ := .unused
  context _ := .forkret
  pc := .top
  depth
    | none => 0
    | some _ => 1
  entry _ := none

end Xv6.Spin
