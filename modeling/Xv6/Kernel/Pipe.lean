import Xv6.Lib.Monitor
import Mathlib.Data.BitVec

/-!
# `Xv6.Kernel.Pipe`: reading and writing a pipe

`pipewrite`, `piperead` and `pipeclose` of `pipe.c` as the program of a monitor. A section of
`pi->lock` runs the loop of the source until the process sleeps or releases the lock. On the one
CPU nothing else runs in between, so `pr->killed` has one value in it.

User memory appears as what the two copies can do: `src i` is the byte that `copyin` finds at
`addr + i`, or `none` where it fails, and `dst i` says whether `copyout` to `addr + i` succeeds.

The history in `PipeState` (`calls`, `put`, `got`, `rets`, `copyFailed`) is written and never
read. Every call of `pipewrite` and `piperead` gets a number, and each byte is recorded with the
number of the call that put it in or took it out.
-/

set_option autoImplicit false

namespace Xv6

open Lib

def PIPESIZE : Nat := 512

instance : NeZero PIPESIZE := ⟨by decide⟩

structure Pipe where
  data : Fin PIPESIZE → UInt8
  /-- number of bytes read -/
  nread : BitVec 32
  /-- number of bytes written -/
  nwrite : BitVec 32
  /-- read fd is still open -/
  readopen : Bool
  /-- write fd is still open -/
  writeopen : Bool

namespace Pipe

/-- `pi->data[c % PIPESIZE]` -/
def index (c : BitVec 32) : Fin PIPESIZE := Fin.ofNat PIPESIZE c.toNat

/-- `pi->data[pi->nwrite++ % PIPESIZE] = ch` -/
def put (pi : Pipe) (ch : UInt8) : Pipe :=
  { pi with data := Function.update pi.data (index pi.nwrite) ch, nwrite := pi.nwrite + 1 }

/-- `pi->nread++` -/
def advance (pi : Pipe) : Pipe := { pi with nread := pi.nread + 1 }

end Pipe

/-! ### The loops -/

/-- Why the loop of `pipewrite` stops. -/
inductive WriteStop where
  /-- all written, or a failed `copyin` -/
  | done
  /-- no reader, or the process is killed -/
  | closed
  /-- the pipe is full -/
  | full
  deriving DecidableEq

/-- What a part of `pipewrite` between two sleeps leaves. -/
structure WriteRun where
  pipe : Pipe
  i : Nat
  bytes : List UInt8
  stop : WriteStop

/-- The loop of `pipewrite` with `todo = n - i` bytes to go. -/
def pipewriteLoop (src : Nat → Option UInt8) (killed : Bool) : Nat → Nat → Pipe → WriteRun
  | 0, i, pi => { pipe := pi, i := i, bytes := [], stop := .done }
  | todo + 1, i, pi =>
    if pi.readopen = false ∨ killed = true then
      { pipe := pi, i := i, bytes := [], stop := .closed }
    else if pi.nwrite = pi.nread + BitVec.ofNat 32 PIPESIZE then
      { pipe := pi, i := i, bytes := [], stop := .full }
    else
      match src i with
      | none => { pipe := pi, i := i, bytes := [], stop := .done }
      | some ch =>
        let r := pipewriteLoop src killed todo (i + 1) (pi.put ch)
        { r with bytes := ch :: r.bytes }

/-- What the copy loop of `piperead` leaves; `failed` when a `copyout` failed. -/
structure ReadRun where
  pipe : Pipe
  i : Nat
  bytes : List UInt8
  failed : Bool

/-- The second loop of `piperead` with `todo = n - i` bytes to go. The byte is taken before it
is copied out. -/
def pipereadLoop (dst : Nat → Bool) : Nat → Nat → Pipe → ReadRun
  | 0, i, pi => { pipe := pi, i := i, bytes := [], failed := false }
  | todo + 1, i, pi =>
    if pi.nread = pi.nwrite then
      { pipe := pi, i := i, bytes := [], failed := false }
    else
      let ch := pi.data (Pipe.index pi.nread)
      if dst i = true then
        let r := pipereadLoop dst todo (i + 1) pi.advance
        { r with bytes := ch :: r.bytes }
      else
        { pipe := pi.advance, i := i, bytes := [], failed := true }

/-! ### The processes at a pipe -/

inductive PipeChan where
  /-- `&pi->nread` -/
  | nread
  /-- `&pi->nwrite` -/
  | nwrite
  deriving DecidableEq

/-- Where a process is in `pipe.c`. -/
inductive PipePlace where
  | user
  /-- in `pipewrite`, with `i` bytes written -/
  | write (call : Nat) (src : Nat → Option UInt8) (n : Int) (i : Nat)
  | read (call : Nat) (dst : Nat → Bool) (n : Int)
  | close (writable : Bool)

inductive PipeCall where
  | write (src : Nat → Option UInt8) (n : Int)
  | read (dst : Nat → Bool) (n : Int)
  | close (writable : Bool)

/-- A call that has returned `r`. -/
inductive PipeRet where
  | write (call : Nat) (src : Nat → Option UInt8) (n r : Int)
  | read (call : Nat) (n r : Int)

def PipeRet.call : PipeRet → Nat
  | .write call _ _ _ | .read call _ _ => call

structure PipeState (n : Nat) where
  pipe : Pipe
  /-- both ends are closed and the page is freed -/
  freed : Bool
  killed : Fin n → Bool
  calls : Nat
  put : List (Nat × UInt8)
  got : List (Nat × UInt8)
  rets : List PipeRet
  copyFailed : Bool

namespace PipeState

variable {n : Nat}

def outside : PipeCall → PipePlace → PipeState n → Option (PipeState n × PipePlace)
  | .write src len, .user, s => some ({ s with calls := s.calls + 1 }, .write s.calls src len 0)
  | .read dst len, .user, s => some ({ s with calls := s.calls + 1 }, .read s.calls dst len)
  | .close writable, .user, s => some (s, .close writable)
  | _, _, _ => none

def enters : PipePlace → Bool
  | .user => false
  | .write _ _ _ _ | .read _ _ _ | .close _ => true

/-- Record what a call returns. -/
def ret (s : PipeState n) (r : PipeRet) : PipeState n := { s with rets := s.rets ++ [r] }

/-- `pipewrite`, from taking the lock to the next sleep or the return. -/
def pipewrite (p : Fin n) (call : Nat) (src : Nat → Option UInt8) (len : Int) (i : Nat)
    (s : PipeState n) : Section (PipeState n) PipePlace PipeChan :=
  let r := pipewriteLoop src (s.killed p) (len - i).toNat i s.pipe
  let s' := { s with pipe := r.pipe, put := s.put ++ r.bytes.map fun ch => (call, ch) }
  match r.stop with
  | .closed =>
    { data := s'.ret (.write call src len (-1)), wakes := none, after := .leave .user }
  | .full =>
    { data := s', wakes := some .nread, after := .sleep .nwrite (.write call src len r.i) }
  | .done =>
    { data := s'.ret (.write call src len r.i), wakes := some .nread, after := .leave .user }

/-- `piperead`, from taking the lock to the next sleep or the return. -/
def piperead (p : Fin n) (call : Nat) (dst : Nat → Bool) (len : Int) (s : PipeState n) :
    Section (PipeState n) PipePlace PipeChan :=
  if s.pipe.nread = s.pipe.nwrite ∧ s.pipe.writeopen = true then
    if s.killed p = true then
      { data := s.ret (.read call len (-1)), wakes := none, after := .leave .user }
    else
      { data := s, wakes := none, after := .sleep .nread (.read call dst len) }
  else
    let r := pipereadLoop dst len.toNat 0 s.pipe
    let s' := { s with
      pipe := r.pipe
      got := s.got ++ r.bytes.map fun ch => (call, ch)
      copyFailed := s.copyFailed || r.failed }
    { data := s'.ret (.read call len r.i), wakes := some .nwrite, after := .leave .user }

/-- `pipeclose`. The page is freed right after the lock is released. -/
def pipeclose (writable : Bool) (s : PipeState n) :
    Section (PipeState n) PipePlace PipeChan :=
  let pi :=
    if writable then { s.pipe with writeopen := false } else { s.pipe with readopen := false }
  { data := { s with pipe := pi, freed := !pi.readopen && !pi.writeopen }
    wakes := some (if writable then .nread else .nwrite)
    after := .leave .user }

/-- No section runs on a pipe that has been freed. -/
def body (p : Fin n) (l : PipePlace) (s : PipeState n) :
    Option (Section (PipeState n) PipePlace PipeChan) :=
  if s.freed then none
  else
    match l with
    | .user => none
    | .write call src len i => some (s.pipewrite p call src len i)
    | .read call dst len => some (s.piperead p call dst len)
    | .close writable => some (s.pipeclose writable)

/-- A pipe as `pipealloc` makes it, in a page with any contents. -/
def fresh (data : Fin PIPESIZE → UInt8) (killed : Fin n → Bool) : PipeState n :=
  { pipe := { data := data, nread := 0, nwrite := 0, readopen := true, writeopen := true }
    freed := false, killed := killed, calls := 0, put := [], got := [], rets := []
    copyFailed := false }

end PipeState

/-- `n` processes at a pipe. -/
def pipeMonitor (n : Nat) : Monitor n (PipeState n) PipePlace PipeChan PipeCall where
  outside _ := PipeState.outside
  enters := PipeState.enters
  body := PipeState.body
  kill p s := { s with killed := Function.update s.killed p true }

def pipeStart {n : Nat} (data : Fin PIPESIZE → UInt8) (killed : Fin n → Bool) :
    Monitor.State n (PipeState n) PipePlace PipeChan :=
  Monitor.start (PipeState.fresh data killed) fun _ => .user

end Xv6
