import Xv6.Proofs.Pipe.Loops

/-!
# `Xv6.Proofs.Pipe.Sleepers`: nobody sleeps at a pipe without a reason

A reader sleeps on `&pi->nread` while the pipe is empty and a writer may still come, and a writer
sleeps on `&pi->nwrite` while the pipe is full and a reader may still come (`PipeWaits`).
`pipe_patient` goes through the ways out of the loops: each one either leaves what a sleeper waits
for as it was, or wakes the channel.

One way out wakes nobody. `pipewrite` returns -1 without a `wakeup` when the process is killed or
the read end is closed. This is right only because both are tested before the first byte of a
section is written and cannot change before the lock is given up (`pipewriteLoop_closed`).
-/

set_option autoImplicit false

namespace Xv6.Proofs

open Lib

variable {call : Nat} {l : PipePlace} {len : Int}

/-- What a sleeper on a channel of the pipe waits for has not come. -/
def PipeWaits {n : Nat} : PipeChan → PipeState n → Prop
  | .nread, s => s.pipe.nread = s.pipe.nwrite ∧ s.pipe.writeopen = true
  | .nwrite, s => PipeFull s.pipe ∧ s.pipe.readopen = true

section Sections

variable {n : Nat} {s : PipeState n} {p : Fin n} {c : PipeChan}

/-- Only the pipe itself matters to a sleeper. -/
theorem PipeWaits.congr {s' : PipeState n} (h : PipeWaits c s) (hpipe : s'.pipe = s.pipe) :
    PipeWaits c s' := by
  cases c <;> simpa [PipeWaits, hpipe] using h

/-- `pipewrite` ends no wait without waking those who wait. -/
theorem pipewrite_wakes {src : Nat → Option UInt8} {i : Nat}
    (hwakes : (s.pipewrite p call src len i).wakes ≠ some c) (h : PipeWaits c s) :
    PipeWaits c (s.pipewrite p call src len i).data := by
  cases hstop : (pipewriteLoop src (s.killed p) (len - i).toNat i s.pipe).stop with
  | closed =>
    simp only [PipeState.pipewrite, hstop]
    exact h.congr (pipewriteLoop_closed hstop)
  | full | done =>
    simp only [PipeState.pipewrite, hstop] at hwakes ⊢
    cases c with
    | nread => exact absurd rfl hwakes
    | nwrite => exact h.congr (pipewriteLoop_full _ h.1)

/-- `pipewrite` sleeps only if the pipe is full. -/
theorem pipewrite_sleeps {src : Nat → Option UInt8} {i : Nat}
    (hafter : (s.pipewrite p call src len i).after = .sleep c l) :
    PipeWaits c (s.pipewrite p call src len i).data := by
  cases hstop : (pipewriteLoop src (s.killed p) (len - i).toNat i s.pipe).stop with
  | closed | done =>
    simp only [PipeState.pipewrite, hstop] at hafter
    cases hafter
  | full =>
    simp only [PipeState.pipewrite, hstop] at hafter ⊢
    cases hafter
    exact pipewriteLoop_stop_full hstop

/-- `piperead` ends no wait without waking those who wait. -/
theorem piperead_wakes {dst : Nat → Bool} (hwakes : (s.piperead p call dst len).wakes ≠ some c)
    (h : PipeWaits c s) : PipeWaits c (s.piperead p call dst len).data := by
  unfold PipeState.piperead at hwakes ⊢
  by_cases hempty : s.pipe.nread = s.pipe.nwrite ∧ s.pipe.writeopen = true
  · rw [if_pos hempty]
    split
    · exact h.congr rfl
    · exact h
  · rw [if_neg hempty] at hwakes
    cases c with
    | nread => exact absurd h hempty
    | nwrite => exact absurd rfl hwakes

/-- `piperead` sleeps only if the pipe is empty and may still be written to. -/
theorem piperead_sleeps {dst : Nat → Bool}
    (hafter : (s.piperead p call dst len).after = .sleep c l) :
    PipeWaits c (s.piperead p call dst len).data := by
  unfold PipeState.piperead at hafter ⊢
  by_cases hempty : s.pipe.nread = s.pipe.nwrite ∧ s.pipe.writeopen = true
  · rw [if_pos hempty] at hafter ⊢
    by_cases hkilled : s.killed p = true
    · rw [if_pos hkilled] at hafter
      cases hafter
    · rw [if_neg hkilled] at hafter ⊢
      cases hafter
      exact hempty
  · rw [if_neg hempty] at hafter
    cases hafter

/-- Closing one end changes nothing for those who wait at it. -/
theorem pipeclose_wakes {writable : Bool} (hwakes : (s.pipeclose writable).wakes ≠ some c)
    (h : PipeWaits c s) : PipeWaits c (s.pipeclose writable).data := by
  cases writable <;> cases c
  · exact h
  · exact absurd rfl hwakes
  · exact absurd rfl hwakes
  · exact h

/-- A section is one of the three functions. -/
theorem pipeBody_cases {r : Section (PipeState n) PipePlace PipeChan} (h : s.body p l = some r) :
    s.freed = false ∧
    ((∃ call src len i, l = .write call src len i ∧ r = s.pipewrite p call src len i) ∨
    (∃ call dst len, l = .read call dst len ∧ r = s.piperead p call dst len) ∨
    (∃ writable, l = .close writable ∧ r = s.pipeclose writable)) := by
  unfold PipeState.body at h
  by_cases hfreed : s.freed = true
  · rw [if_pos hfreed] at h
    cases h
  rw [if_neg hfreed] at h
  refine ⟨by simpa using hfreed, ?_⟩
  cases l with
  | user => cases h
  | write call src len i =>
    exact .inl ⟨call, src, len, i, rfl, (Option.some.inj h).symm⟩
  | read call dst len => exact .inr (.inl ⟨call, dst, len, rfl, (Option.some.inj h).symm⟩)
  | close writable => exact .inr (.inr ⟨writable, rfl, (Option.some.inj h).symm⟩)

/-- A call changes nothing in the pipe before it has the lock. -/
theorem pipeOutside_pipe {k : PipeCall} {r : PipeState n × PipePlace}
    (h : PipeState.outside k l s = some r) : r.1.pipe = s.pipe := by
  cases k <;> cases l <;> cases h <;> rfl

end Sections

/-- Every section that ends the wait of a sleeper wakes it. -/
theorem pipe_patient (n : Nat) :
    Monitor.Patient (pipeMonitor n) (fun _ _ => True) PipeWaits where
  outside _ hr h := h.congr (pipeOutside_pipe hr)
  kill _ _ h := h.congr rfl
  wakes := by
    intro s ls p r c _ hr hwakes h
    obtain ⟨-, ⟨call, src, len, i, -, rfl⟩ | ⟨call, dst, len, -, rfl⟩ | ⟨writable, -, rfl⟩⟩ :=
      pipeBody_cases hr
    · exact pipewrite_wakes hwakes h
    · exact piperead_wakes hwakes h
    · exact pipeclose_wakes hwakes h
  sleeps := by
    intro s ls p r c l _ hr hafter
    obtain ⟨-, ⟨call, src, len, i, -, rfl⟩ | ⟨call, dst, len, -, rfl⟩ | ⟨writable, -, rfl⟩⟩ :=
      pipeBody_cases hr
    · exact pipewrite_sleeps hafter
    · exact piperead_sleeps hafter
    · cases hafter

/-- Whenever `pi->lock` is free, a process that sleeps on `&pi->nread` finds the pipe empty and
the write end open, and a process that sleeps on `&pi->nwrite` finds the pipe full and the read
end open. -/
theorem no_stuck_pipe_sleeper {n : Nat} {data : Fin PIPESIZE → UInt8} {killed : Fin n → Bool}
    {evs : List (Monitor.Event n PipeCall)}
    {σ : Monitor.State n (PipeState n) PipePlace PipeChan}
    (hrun : (pipeMonitor n).run (pipeStart data killed) evs = some σ)
    (hfree : σ.owner .main = none) (p : Fin n) :
    (σ.asleep p = some .nread →
      ¬ (buffered σ.data.pipe ≠ [] ∨ σ.data.pipe.writeopen = false)) ∧
    (σ.asleep p = some .nwrite →
      ¬ ((buffered σ.data.pipe).length ≠ PIPESIZE ∨ σ.data.pipe.readopen = false)) := by
  have hkeeps : Monitor.Keeps (pipeMonitor n) fun _ _ => True :=
    ⟨fun _ _ => trivial, fun _ _ => trivial, fun _ _ => trivial⟩
  have hwaits : ∀ {c}, σ.asleep p = some c → PipeWaits c σ.data :=
    fun hs => (pipe_patient n).run hkeeps trivial hrun hfree hs
  constructor
  · intro hs
    obtain ⟨hempty, hopen⟩ := hwaits hs
    rw [← buffered_eq_nil_iff] at hempty
    simp [hempty, hopen]
  · intro hs
    obtain ⟨hfull, hopen⟩ := hwaits hs
    rw [← used_eq_PIPESIZE_iff] at hfull
    simp [length_buffered, hfull, hopen]

/-- A process reads from an empty pipe. -/
def readEmpty : List (Monitor.Event 1 PipeCall) :=
  .step 0 (some (.read (fun _ => true) 1)) :: List.replicate 6 (.step 0 none)

/-- A process reads from an empty pipe. -/
theorem no_stuck_pipe_sleeper_readEmpty :
    ∃ σ, (pipeMonitor 1).run (pipeStart (fun _ => 0) fun _ => false) readEmpty = some σ ∧
      (σ.owner .main = none ∧ σ.asleep 0 = some .nread) ∧
      ¬ (buffered σ.data.pipe ≠ [] ∨ σ.data.pipe.writeopen = false) := by
  have hrun : (((pipeMonitor 1).run (pipeStart (fun _ => 0) fun _ => false) readEmpty).any
      fun σ => σ.owner .main = none ∧ σ.asleep 0 = some .nread) = true := by
    decide +kernel
  obtain ⟨σ, hσ, hfacts⟩ := (Option.any_eq_true _ _).mp hrun
  have hfacts := of_decide_eq_true hfacts
  exact ⟨σ, hσ, hfacts, (no_stuck_pipe_sleeper hσ hfacts.1 0).1 hfacts.2⟩

end Xv6.Proofs
