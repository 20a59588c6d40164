import Xv6.Lib.Monitor
import Xv6.Lib.Ring

/-!
# `Xv6.Kernel.Uart`: output through the UART

`uartputc`, `uartstart` and `uartintr` of `uart.c` as the program of a monitor. The lock is
`uart_tx_lock`, and writers sleep on `&uart_tx_r`. The input half of `uartintr` is left out, and its
output half is a call like `uartputc`: it runs in whatever process is on the CPU, and never sleeps.

`idle` is what `LSR_TX_IDLE` answers to the reads of one call, the first one first.

`uartstart` calls `wakeup` after each byte. Here the first of these calls stands for all: nobody
can fall asleep on `&uart_tx_r` before the lock is free, so the others find nobody.

The history in `Uart` (`thr`, `done`) is written and never read: what `uartstart` has written to
`THR`, and the characters of the calls of `uartputc` that are done.
-/

set_option autoImplicit false

namespace Xv6

open Lib

def UART_TX_BUF_SIZE : Nat := 32

instance : NeZero UART_TX_BUF_SIZE := ⟨by decide⟩

structure Uart where
  /-- `uart_tx_buf`, with `uart_tx_r` for the head and `uart_tx_w` for the tail -/
  tx : Ring UInt8 64 UART_TX_BUF_SIZE
  panicked : Bool
  thr : List UInt8
  done : List UInt8

inductive UartChan where
  /-- `&uart_tx_r` -/
  | uart_tx_r
  deriving DecidableEq

inductive UartPlace where
  | user
  | putc (c : UInt8) (idle : Nat → Bool)
  /-- in the loop of `uartputc`, back from `sleep` -/
  | slept (c : UInt8) (idle : Nat → Bool)
  | intr (idle : Nat → Bool)

inductive UartCall where
  | putc (c : UInt8) (idle : Nat → Bool)
  | intr (idle : Nat → Bool)
  /-- another CPU panics -/
  | panic

namespace Uart

/-- The loop of `uartstart`, which has read the `LSR` `k` times. It sends at most what is buffered,
so `rounds` is `uart_tx_w - uart_tx_r`. -/
def startLoop (idle : Nat → Bool) : (rounds k : Nat) → Uart → Uart
  | 0, _, s => s
  | rounds + 1, k, s =>
    if s.tx.tail = s.tx.head then s
    else if idle k = false then s
    else startLoop idle rounds (k + 1) { s with tx := s.tx.pop, thr := s.thr ++ [s.tx.front] }

def uartstart (idle : Nat → Bool) (s : Uart) : Uart := startLoop idle s.tx.count 0 s

/-- A section that ends with `uartstart` and the release of the lock. -/
def started (idle : Nat → Bool) (s : Uart) : Section Uart UartPlace UartChan :=
  let s' := s.uartstart idle
  { data := s'
    wakes := if s'.tx.head = s.tx.head then none else some .uart_tx_r
    after := .leave .user }

/-- The loop of `uartputc`, up to the next sleep or the return. -/
def putLoop (c : UInt8) (idle : Nat → Bool) (s : Uart) : Section Uart UartPlace UartChan :=
  if s.tx.tail = s.tx.head + BitVec.ofNat 64 UART_TX_BUF_SIZE then
    { data := s, wakes := none, after := .sleep .uart_tx_r (.slept c idle) }
  else { s with tx := s.tx.push c, done := s.done ++ [c] }.started idle

def outside : UartCall → UartPlace → Uart → Option (Uart × UartPlace)
  | .putc c idle, .user, s => some (s, .putc c idle)
  | .intr idle, .user, s => some (s, .intr idle)
  | .panic, l, s => some ({ s with panicked := true }, l)
  | _, _, _ => none

def enters : UartPlace → Bool
  | .user => false
  | .putc _ _ | .slept _ _ | .intr _ => true

/-- After a panic `uartputc` spins with the lock. -/
def body : UartPlace → Uart → Option (Section Uart UartPlace UartChan)
  | .user, _ => none
  | .putc c idle, s => if s.panicked = true then none else some (s.putLoop c idle)
  | .slept c idle, s => some (s.putLoop c idle)
  | .intr idle, s => some (s.started idle)

end Uart

/-- `n` processes at the UART. -/
def uartMonitor (n : Nat) : Monitor n Uart UartPlace UartChan UartCall where
  outside _ := Uart.outside
  enters := Uart.enters
  body _ := Uart.body
  kill _ s := s

def uartStart (n : Nat) (uart_tx_buf : Fin UART_TX_BUF_SIZE → UInt8) :
    Monitor.State n Uart UartPlace UartChan :=
  Monitor.start
    { tx := { data := uart_tx_buf, head := 0, tail := 0 }
      panicked := false, thr := [], done := [] }
    fun _ => .user

end Xv6
