import Xv6.Lib.Monitor
import Mathlib.Data.BitVec

/-!
# `Xv6.Kernel.Console`: console input

`consoleintr` and `consoleread` of `console.c` as the program of a monitor. The lock is
`cons.lock`, and readers sleep on `&cons.r`. A section runs the source from taking the lock to the
next sleep or to the release.

`consoleintr` runs in the interrupt handler of whatever process is on the CPU. It never sleeps and
uses nothing of that process, so here it is a call like `consoleread`, and a run may have as many
extra processes as it needs to deliver characters. The echo on the uart and the process list of
`^P` are output only and left out. A character is a byte, as `uartgetc` returns it.

User memory appears as what `either_copyout` can do: `dst i` says whether the copy of the byte
number `i` of a read succeeds.

The history in `ConsoleState` (`calls`, `hist`, `taken`, `copied`, `rets`, `copyFailed`) is
written and never read. Every call of `consoleread` gets a number.
-/

set_option autoImplicit false

namespace Xv6

open Lib

def INPUT_BUF : Nat := 128

instance : NeZero INPUT_BUF := ⟨by decide⟩

/-- `C(x)`: Control-x -/
def ctrl (x : Char) : UInt8 := UInt8.ofNat (x.toNat - '@'.toNat)

/-- `'\n'` -/
def newline : UInt8 := 10

/-- `'\r'` -/
def carriageReturn : UInt8 := 13

/-- `'\x7f'` -/
def delete : UInt8 := 127

structure Cons where
  buf : Fin INPUT_BUF → UInt8
  /-- Read index -/
  r : BitVec 32
  /-- Write index -/
  w : BitVec 32
  /-- Edit index -/
  e : BitVec 32

namespace Cons

/-- `cons.buf[i % INPUT_BUF]` -/
def index (i : BitVec 32) : Fin INPUT_BUF := Fin.ofNat INPUT_BUF i.toNat

/-- `cons.e--` -/
def erase (cons : Cons) : Cons := { cons with e := cons.e - 1 }

/-- `cons.buf[cons.e++ % INPUT_BUF] = c` -/
def store (cons : Cons) (c : UInt8) : Cons :=
  { cons with buf := Function.update cons.buf (index cons.e) c, e := cons.e + 1 }

/-- `cons.w = cons.e` -/
def commit (cons : Cons) : Cons := { cons with w := cons.e }

/-- `cons.r++` -/
def advance (cons : Cons) : Cons := { cons with r := cons.r + 1 }

/-- `cons.r--` -/
def putBack (cons : Cons) : Cons := { cons with r := cons.r - 1 }

/-- The loop of `^U`, for at most the given number of rounds. -/
def killLine : Nat → Cons → Cons
  | 0, cons => cons
  | k + 1, cons =>
    if cons.e ≠ cons.w ∧ cons.buf (index (cons.e - 1)) ≠ newline then killLine k cons.erase
    else cons

end Cons

/-! ### The loop of `consoleread` -/

/-- Why the loop of `consoleread` stops. -/
inductive LineStop where
  /-- the loop is left and the call returns -/
  | done
  /-- no input, `cons.r == cons.w` -/
  | empty
  deriving DecidableEq

/-- What a part of `consoleread` between two sleeps leaves. -/
structure LineRun where
  cons : Cons
  /-- `n`, the bytes still wanted -/
  n : Nat
  /-- the characters that `cons.r` has passed -/
  taken : List UInt8
  /-- the bytes in user memory -/
  copied : List UInt8
  failed : Bool
  stop : LineStop

/-- The loop of `consoleread` with `n` bytes to go of `target`. -/
def consolereadLoop (dst : Nat → Bool) (target : Nat) : Nat → Cons → LineRun
  | 0, cons => { cons := cons, n := 0, taken := [], copied := [], failed := false, stop := .done }
  | n + 1, cons =>
    if cons.r = cons.w then
      { cons := cons, n := n + 1, taken := [], copied := [], failed := false, stop := .empty }
    else
      let c := cons.buf (Cons.index cons.r)
      let cons' := cons.advance
      if c = ctrl 'D' then
        -- Save ^D for next time, to make sure caller gets a 0-byte result.
        if n + 1 < target then
          { cons := cons'.putBack, n := n + 1, taken := [], copied := [], failed := false
            stop := .done }
        else
          { cons := cons', n := n + 1, taken := [c], copied := [], failed := false
            stop := .done }
      else if dst (target - (n + 1)) = false then
        { cons := cons', n := n + 1, taken := [c], copied := [], failed := true, stop := .done }
      else if c = newline then
        { cons := cons', n := n, taken := [c], copied := [c], failed := false, stop := .done }
      else
        let r := consolereadLoop dst target n cons'
        { r with taken := c :: r.taken, copied := c :: r.copied }

/-! ### The processes at the console -/

/-- The only channel, `&cons.r`. -/
inductive ConsoleChan where
  | r
  deriving DecidableEq

/-- Where a process is in `console.c`. -/
inductive ConsolePlace where
  | user
  /-- in `consoleread` with `n` bytes to go of `len` -/
  | read (call : Nat) (dst : Nat → Bool) (len : Int) (n : Nat)
  | intr (c : UInt8)

inductive ConsoleCall where
  | read (dst : Nat → Bool) (len : Int)
  | intr (c : UInt8)

/-- What has happened to the input. -/
inductive ConsoleEvent where
  /-- a character has arrived -/
  | input (c : UInt8)
  /-- a reader has taken a character -/
  | took
  deriving DecidableEq

/-- A `consoleread` for `len` bytes that has returned `r`. When it returned, `pos` characters had
been taken altogether. -/
structure ConsoleRet where
  call : Nat
  len : Int
  r : Int
  pos : Nat

structure ConsoleState (n : Nat) where
  cons : Cons
  killed : Fin n → Bool
  calls : Nat
  hist : List ConsoleEvent
  taken : List (Nat × UInt8)
  copied : List (Nat × UInt8)
  rets : List ConsoleRet
  copyFailed : Bool

namespace ConsoleState

variable {n : Nat}

def outside : ConsoleCall → ConsolePlace → ConsoleState n →
    Option (ConsoleState n × ConsolePlace)
  | .read dst len, .user, s =>
    some ({ s with calls := s.calls + 1 }, .read s.calls dst len len.toNat)
  | .intr c, .user, s => some (s, .intr c)
  | _, _, _ => none

def enters : ConsolePlace → Bool
  | .user => false
  | .read _ _ _ _ | .intr _ => true

/-- `consoleintr`. The loop of `^U` stops at `cons.w`, which is `cons.e - cons.w` rounds away. -/
def consoleintr (c : UInt8) (s : ConsoleState n) :
    Section (ConsoleState n) ConsolePlace ConsoleChan :=
  let s : ConsoleState n := { s with hist := s.hist ++ [.input c] }
  let quiet (cons : Cons) : Section (ConsoleState n) ConsolePlace ConsoleChan :=
    { data := { s with cons := cons }, wakes := none, after := .leave .user }
  if c = ctrl 'P' then quiet s.cons
  else if c = ctrl 'U' then quiet (s.cons.killLine (s.cons.e - s.cons.w).toNat)
  else if c = ctrl 'H' ∨ c = delete then
    if s.cons.e ≠ s.cons.w then quiet s.cons.erase else quiet s.cons
  else if c ≠ 0 ∧ s.cons.e - s.cons.r < BitVec.ofNat 32 INPUT_BUF then
    let c := if c = carriageReturn then newline else c
    let cons := s.cons.store c
    if c = newline ∨ c = ctrl 'D' ∨ cons.e = cons.r + BitVec.ofNat 32 INPUT_BUF then
      { data := { s with cons := cons.commit }, wakes := some .r, after := .leave .user }
    else quiet cons
  else quiet s.cons

/-- Record what a call returns. -/
def ret (s : ConsoleState n) (call : Nat) (len r : Int) : ConsoleState n :=
  { s with rets := s.rets ++ [{ call := call, len := len, r := r, pos := s.taken.length }] }

/-- `consoleread`, from taking the lock to the next sleep or the return. A call for no bytes, or
for a negative number of them, returns `target - n = 0`. -/
def consoleread (p : Fin n) (call : Nat) (dst : Nat → Bool) (len : Int) (todo : Nat)
    (s : ConsoleState n) : Section (ConsoleState n) ConsolePlace ConsoleChan :=
  let r := consolereadLoop dst len.toNat todo s.cons
  let s' : ConsoleState n := { s with
    cons := r.cons
    hist := s.hist ++ List.replicate r.taken.length .took
    taken := s.taken ++ r.taken.map fun c => (call, c)
    copied := s.copied ++ r.copied.map fun c => (call, c)
    copyFailed := s.copyFailed || r.failed }
  match r.stop with
  | .done =>
    { data := s'.ret call len (len.toNat - r.n), wakes := none, after := .leave .user }
  | .empty =>
    if s.killed p = true then
      { data := s'.ret call len (-1), wakes := none, after := .leave .user }
    else
      { data := s', wakes := none, after := .sleep .r (.read call dst len r.n) }

def body (p : Fin n) (l : ConsolePlace) (s : ConsoleState n) :
    Option (Section (ConsoleState n) ConsolePlace ConsoleChan) :=
  match l with
  | .user => none
  | .read call dst len todo => some (s.consoleread p call dst len todo)
  | .intr c => some (s.consoleintr c)

/-- The console before any input. `cons` is in zeroed memory. -/
def fresh (killed : Fin n → Bool) : ConsoleState n :=
  { cons := { buf := fun _ => 0, r := 0, w := 0, e := 0 }
    killed := killed, calls := 0, hist := [], taken := [], copied := [], rets := []
    copyFailed := false }

end ConsoleState

/-- `n` processes at the console. -/
def consoleMonitor (n : Nat) :
    Monitor n (ConsoleState n) ConsolePlace ConsoleChan ConsoleCall where
  outside _ := ConsoleState.outside
  enters := ConsoleState.enters
  body := ConsoleState.body
  kill p s := { s with killed := Function.update s.killed p true }

def consoleStart {n : Nat} (killed : Fin n → Bool) :
    Monitor.State n (ConsoleState n) ConsolePlace ConsoleChan :=
  Monitor.start (ConsoleState.fresh killed) fun _ => .user

end Xv6
