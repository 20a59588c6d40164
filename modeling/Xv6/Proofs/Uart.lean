import Xv6.Kernel.Uart

/-!
# `Xv6.Proofs.Uart`: output comes in order, and nobody waits for room that is there

`uartstart` moves bytes from the front of the ring to `THR` and leaves their order alone
(`startLoop_spec`). If it moves any, it wakes the writers. If it moves none, a full ring stays full.
-/

set_option autoImplicit false

namespace Xv6.Proofs

open Lib Uart

variable {s s' : Uart} {idle : Nat → Bool}

/-- What has been sent and what is buffered are the characters of all calls. -/
structure UartOk (s : Uart) : Prop where
  order : s.thr ++ s.tx.items = s.done
  room : s.tx.count ≤ UART_TX_BUF_SIZE

/-- The loop of `uartstart` sends characters in order, and stops when the device is busy or nothing
is left. -/
theorem startLoop_spec (idle : Nat → Bool) (h : UartOk s) (rounds k : Nat) :
    UartOk (startLoop idle rounds k s) ∧
    (startLoop idle rounds k s).tx.tail = s.tx.tail ∧
    (startLoop idle rounds k s = s ∨ (startLoop idle rounds k s).tx.count < s.tx.count) := by
  induction rounds generalizing s k with
  | zero => exact ⟨h, rfl, .inl rfl⟩
  | succ rounds ih =>
    rw [startLoop]
    by_cases hempty : s.tx.tail = s.tx.head
    · rw [if_pos hempty]
      exact ⟨h, rfl, .inl rfl⟩
    rw [if_neg hempty]
    by_cases hidle : idle k = false
    · rw [if_pos hidle]
      exact ⟨h, rfl, .inl rfl⟩
    rw [if_neg hidle]
    have hcount := Ring.count_pop (Ne.symm hempty)
    have hnext : UartOk { s with tx := s.tx.pop, thr := s.thr ++ [s.tx.front] } := by
      refine ⟨?_, by have := h.room; dsimp only; omega⟩
      dsimp only
      rw [List.append_assoc, List.singleton_append, ← Ring.items_pop (Ne.symm hempty), h.order]
    obtain ⟨hok, htail, hsent⟩ := ih hnext (k + 1)
    refine ⟨hok, htail, .inr ?_⟩
    rcases hsent with hsame | hless
    · rw [hsame]
      exact Nat.lt_of_lt_of_eq (Nat.lt_succ_self _) hcount
    · exact Nat.lt_trans hless (Nat.lt_of_lt_of_eq (Nat.lt_succ_self _) hcount)

/-- Without a `wakeup` nothing was sent. -/
theorem started_quiet (h : UartOk s) (hwakes : (s.started idle).wakes ≠ some .uart_tx_r) :
    (s.started idle).data = s := by
  unfold started at hwakes ⊢
  dsimp only at hwakes ⊢
  by_cases hhead : (s.uartstart idle).tx.head = s.tx.head
  · obtain ⟨-, htail, hsame | hless⟩ := startLoop_spec idle h s.tx.count 0
    · exact hsame
    · have hcount : (s.uartstart idle).tx.count = s.tx.count := by
        unfold Ring.count
        rw [hhead, show (s.uartstart idle).tx.tail = s.tx.tail from htail]
      exact absurd hcount (Nat.ne_of_lt hless)
  · rw [if_neg hhead] at hwakes
    exact absurd rfl hwakes

/-- A section finds the ring full, or starts the device, with a character put in if there was room.
-/
inductive UartSection (s : Uart) : Section Uart UartPlace UartChan → Prop
  | full (c : UInt8) (idle : Nat → Bool) (hfull : s.tx.count = UART_TX_BUF_SIZE) :
    UartSection s { data := s, wakes := none, after := .sleep .uart_tx_r (.slept c idle) }
  | start (s' : Uart) (idle : Nat → Bool) (hok : UartOk s')
      (hroom : s' = s ∨ s.tx.count < UART_TX_BUF_SIZE) : UartSection s (s'.started idle)

/-- `uartputc` adds its character, or sleeps if the buffer is full. -/
theorem putLoop_section (h : UartOk s) (c : UInt8) : UartSection s (s.putLoop c idle) := by
  have hfull := s.tx.count_eq_iff (k := UART_TX_BUF_SIZE) (by decide)
  unfold putLoop
  by_cases htest : s.tx.tail = s.tx.head + BitVec.ofNat 64 UART_TX_BUF_SIZE
  · rw [if_pos htest]
    exact .full c idle (hfull.mpr htest)
  · rw [if_neg htest]
    have hroom : s.tx.count < UART_TX_BUF_SIZE :=
      Nat.lt_of_le_of_ne h.room fun heq => htest (hfull.mp heq)
    have hcap : UART_TX_BUF_SIZE < 2 ^ 64 := by decide
    refine .start _ idle ⟨?_, ?_⟩ (.inr hroom) <;> dsimp only
    · rw [Ring.items_push (by decide) hcap hroom, ← List.append_assoc, h.order]
    · rw [Ring.count_push (by omega)]
      exact hroom

/-- Every critical section of the device is of this kind. -/
theorem body_section {l : UartPlace} {r : Section Uart UartPlace UartChan} (h : UartOk s)
    (hr : s.body l = some r) : UartSection s r := by
  cases l with
  | user => cases hr
  | putc c idle =>
    rw [body] at hr
    split at hr
    · cases hr
    · exact Option.some.inj hr ▸ putLoop_section h c
  | slept c idle => exact Option.some.inj hr ▸ putLoop_section h c
  | intr idle => exact Option.some.inj hr ▸ .start s idle h (.inl rfl)

theorem uartOutside_tx {k : UartCall} {l : UartPlace} {r : Uart × UartPlace}
    (hr : Uart.outside k l s = some r) : UartOk s → UartOk r.1 ∧ r.1.tx = s.tx := by
  intro h
  cases k <;> cases l <;> cases hr <;> exact ⟨⟨h.order, h.room⟩, rfl⟩

theorem uart_keeps (n : Nat) : Monitor.Keeps (uartMonitor n) fun s _ => UartOk s where
  outside h hr := (uartOutside_tx hr h).1
  body h hr := by
    cases body_section h hr with
    | full => exact h
    | start s' idle hok => exact (startLoop_spec idle hok _ _).1
  kill _ h := h

/-- A writer sleeps while the ring is full. -/
theorem uart_patient (n : Nat) : Monitor.Patient (uartMonitor n) (fun s _ => UartOk s)
    fun _ s => s.tx.count = UART_TX_BUF_SIZE where
  outside h hr hfull := by rw [(uartOutside_tx hr h).2, hfull]
  wakes {s _ _ _ c} h hr hwakes hfull := by
    cases body_section h hr with
    | full => exact hfull
    | start s' idle hok hroom =>
      cases c
      rcases hroom with rfl | hroom
      · rw [started_quiet h hwakes, hfull]
      · exact absurd hfull (Nat.ne_of_lt hroom)
  sleeps h hr hafter := by
    cases body_section h hr with
    | full _ _ hfull => exact hfull
    | start => cases hafter
  kill _ _ hfull := hfull

/-- What `uartstart` has written to `THR`, followed by the ring, are the characters of the calls of
`uartputc` that are done, in order. The ring holds at most `UART_TX_BUF_SIZE` of them, and whenever
the lock is free a process that sleeps on `&uart_tx_r` finds it full. -/
theorem uart_output_order {n : Nat} {uart_tx_buf : Fin UART_TX_BUF_SIZE → UInt8}
    {evs : List (Monitor.Event n UartCall)} {σ : Monitor.State n Uart UartPlace UartChan}
    (hrun : (uartMonitor n).run (uartStart n uart_tx_buf) evs = some σ) :
    σ.data.thr ++ σ.data.tx.items = σ.data.done ∧
    (σ.data.tx.tail - σ.data.tx.head).toNat ≤ UART_TX_BUF_SIZE ∧
    (σ.owner .main = none → ∀ p, σ.asleep p = some .uart_tx_r →
      (σ.data.tx.tail - σ.data.tx.head).toNat = UART_TX_BUF_SIZE) := by
  have hzero : (uartStart n uart_tx_buf).data.tx.count = 0 := (Ring.count_eq_zero_iff _).mpr rfl
  have hstart : UartOk (uartStart n uart_tx_buf).data :=
    ⟨by rw [Ring.items, hzero]; rfl, by rw [hzero]; exact Nat.zero_le _⟩
  have hok := (uart_keeps n).run hstart hrun
  exact ⟨hok.order, hok.room, fun hfree p hs =>
    (uart_patient n).run (uart_keeps n) hstart hrun hfree hs⟩

/-- A process writes a character while the device is idle, and then another one while it is busy. -/
def writeTwo : List (Monitor.Event 1 UartCall) :=
  let p : Fin 1 := ⟨0, Nat.one_pos⟩
  .step p (some (.putc 65 fun _ => true)) :: List.replicate 5 (.step p none) ++
    .step p (some (.putc 66 fun _ => false)) :: List.replicate 3 (.step p none)

/-- Two characters are written, and the device has taken the first. -/
theorem uart_output_order_writeTwo : ∃ σ,
    (uartMonitor 1).run (uartStart 1 fun _ => 0) writeTwo = some σ ∧
      σ.data.thr = [65] ∧ σ.data.thr ++ σ.data.tx.items = [65, 66] := by
  have hrun : (((uartMonitor 1).run (uartStart 1 fun _ => 0) writeTwo).any
      fun σ => σ.data.thr = [65] ∧ σ.data.done = [65, 66]) = true := by
    decide +kernel
  obtain ⟨σ, hσ, hfacts⟩ := (Option.any_eq_true _ _).mp hrun
  have hfacts := of_decide_eq_true hfacts
  exact ⟨σ, hσ, hfacts.1, (uart_output_order hσ).1.trans hfacts.2⟩

end Xv6.Proofs
