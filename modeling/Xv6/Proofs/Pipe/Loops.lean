import Xv6.Kernel.Pipe
import Xv6.Lib.Ring

/-!
# `Xv6.Proofs.Pipe.Loops`: what the loops of `pipe.c` do to the buffer

A `struct pipe` is a ring with 32-bit counters (`pipeRing`), and `buffered` is the queue it stands
for. `pipewriteLoop_wrote` says that the loop of `pipewrite` appends a piece of the user's bytes
to that queue, and `pipereadLoop_took` that the loop of `piperead` takes its bytes from the front.
Both hold for every number of rounds, so also in the middle of a section.
-/

set_option autoImplicit false

namespace Xv6.Proofs

open Lib

/-- The ring of a pipe. -/
def pipeRing (pi : Pipe) : Ring UInt8 32 PIPESIZE :=
  { data := pi.data, head := pi.nread, tail := pi.nwrite }

/-- `pi->nwrite - pi->nread` -/
def used (pi : Pipe) : Nat := (pi.nwrite - pi.nread).toNat

/-- The bytes in the pipe, the oldest first. -/
def buffered (pi : Pipe) : List UInt8 := (pipeRing pi).items

/-- The test for a full pipe. -/
def PipeFull (pi : Pipe) : Prop := pi.nwrite = pi.nread + BitVec.ofNat 32 PIPESIZE

theorem length_buffered (pi : Pipe) : (buffered pi).length = used pi := by
  simp [buffered, Ring.items, Ring.count, pipeRing, used]

theorem used_eq_zero_iff (pi : Pipe) : used pi = 0 ↔ pi.nread = pi.nwrite :=
  (pipeRing pi).count_eq_zero_iff

theorem buffered_eq_nil_iff (pi : Pipe) : buffered pi = [] ↔ pi.nread = pi.nwrite := by
  rw [← used_eq_zero_iff, ← length_buffered, List.length_eq_zero_iff]

theorem used_eq_PIPESIZE_iff (pi : Pipe) : used pi = PIPESIZE ↔ PipeFull pi :=
  (pipeRing pi).count_eq_iff (by decide)

theorem used_put {pi : Pipe} (ch : UInt8) (hroom : used pi < PIPESIZE) :
    used (pi.put ch) = used pi + 1 := by
  refine Ring.count_push (r := pipeRing pi) (x := ch) ?_
  have hsize : PIPESIZE < 2 ^ 32 := by decide
  exact Nat.lt_of_le_of_lt hroom hsize

theorem buffered_put {pi : Pipe} (ch : UInt8) (hroom : used pi < PIPESIZE) :
    buffered (pi.put ch) = buffered pi ++ [ch] :=
  Ring.items_push (r := pipeRing pi) (by decide) (by decide) hroom

theorem used_advance {pi : Pipe} (hne : pi.nread ≠ pi.nwrite) :
    used pi.advance + 1 = used pi :=
  Ring.count_pop (r := pipeRing pi) hne

theorem buffered_advance {pi : Pipe} (hne : pi.nread ≠ pi.nwrite) :
    buffered pi = pi.data (Pipe.index pi.nread) :: buffered pi.advance :=
  Ring.items_pop (r := pipeRing pi) hne

/-! ### `pipewrite` -/

/-- A part of `pipewrite` that started at byte `i` appended `r.bytes`, which are the user's bytes
from `i` on. -/
structure Wrote (src : Nat → Option UInt8) (i : Nat) (pi : Pipe) (r : WriteRun) : Prop where
  i_eq : r.i = i + r.bytes.length
  bytes : r.bytes.map some = (List.range' i r.bytes.length).map src
  buffered : buffered r.pipe = buffered pi ++ r.bytes
  used : used r.pipe ≤ PIPESIZE
  readopen : r.pipe.readopen = pi.readopen
  writeopen : r.pipe.writeopen = pi.writeopen

section Write

variable {src : Nat → Option UInt8} {killed : Bool} {i : Nat} {pi : Pipe}

theorem Wrote.nothing (hused : Proofs.used pi ≤ PIPESIZE) (stop : WriteStop) :
    Wrote src i pi { pipe := pi, i := i, bytes := [], stop := stop } :=
  ⟨rfl, rfl, (List.append_nil _).symm, hused, rfl, rfl⟩

/-- A round that puts a byte into the pipe, and the rounds after it. -/
theorem Wrote.cons {ch : UInt8} {r : WriteRun} (hroom : Proofs.used pi < PIPESIZE)
    (hsrc : src i = some ch) (h : Wrote src (i + 1) (pi.put ch) r) :
    Wrote src i pi { r with bytes := ch :: r.bytes } where
  i_eq := by
    rw [h.i_eq, List.length_cons]
    omega
  bytes := by
    rw [List.map_cons, h.bytes, List.length_cons, List.range'_succ, List.map_cons, hsrc]
  buffered := by
    rw [h.buffered, buffered_put ch hroom, List.append_assoc]
    rfl
  used := h.used
  readopen := h.readopen
  writeopen := h.writeopen

/-- A pipe that passes the test of the loop has room for a byte. -/
theorem room_of_not_full (hused : used pi ≤ PIPESIZE) (hfull : ¬ PipeFull pi) :
    used pi < PIPESIZE :=
  Nat.lt_of_le_of_ne hused fun heq => hfull ((used_eq_PIPESIZE_iff pi).mp heq)

/-- One round of the loop. -/
theorem pipewriteLoop_succ (src : Nat → Option UInt8) (killed : Bool) (todo i : Nat)
    (pi : Pipe) :
    ((pi.readopen = false ∨ killed = true) ∧ pipewriteLoop src killed (todo + 1) i pi
      = { pipe := pi, i := i, bytes := [], stop := .closed }) ∨
    (¬ (pi.readopen = false ∨ killed = true) ∧
      ((PipeFull pi ∧ pipewriteLoop src killed (todo + 1) i pi
        = { pipe := pi, i := i, bytes := [], stop := .full }) ∨
      (¬ PipeFull pi ∧ src i = none ∧ pipewriteLoop src killed (todo + 1) i pi
        = { pipe := pi, i := i, bytes := [], stop := .done }) ∨
      (∃ ch, ¬ PipeFull pi ∧ src i = some ch ∧ pipewriteLoop src killed (todo + 1) i pi
        = { pipewriteLoop src killed todo (i + 1) (pi.put ch) with
            bytes := ch :: (pipewriteLoop src killed todo (i + 1) (pi.put ch)).bytes }))) := by
  by_cases hclosed : pi.readopen = false ∨ killed = true
  · exact .inl ⟨hclosed, if_pos hclosed⟩
  refine .inr ⟨hclosed, ?_⟩
  by_cases hfull : PipeFull pi
  · exact .inl ⟨hfull, (if_neg hclosed).trans (if_pos hfull)⟩
  right
  cases hsrc : src i with
  | none =>
    refine .inl ⟨hfull, rfl, (if_neg hclosed).trans ((if_neg hfull).trans ?_)⟩
    rw [hsrc]
  | some ch =>
    refine .inr ⟨ch, hfull, rfl, (if_neg hclosed).trans ((if_neg hfull).trans ?_)⟩
    rw [hsrc]

/-- The loop of `pipewrite` puts bytes into the pipe until it is full, or the copy fails. -/
theorem pipewriteLoop_wrote (todo : Nat) (hused : used pi ≤ PIPESIZE) :
    Wrote src i pi (pipewriteLoop src killed todo i pi) := by
  induction todo generalizing i pi with
  | zero => exact .nothing hused _
  | succ todo ih =>
    rcases pipewriteLoop_succ src killed todo i pi with ⟨-, heq⟩ | ⟨-, ⟨-, heq⟩ | ⟨-, -, heq⟩ |
      ⟨ch, hfull, hsrc, heq⟩⟩
    · exact heq ▸ .nothing hused _
    · exact heq ▸ .nothing hused _
    · exact heq ▸ .nothing hused _
    · have hroom := room_of_not_full hused hfull
      rw [heq]
      refine .cons hroom hsrc (ih ?_)
      rw [used_put ch hroom]
      exact hroom

/-- On a full pipe the loop stops at once. -/
theorem pipewriteLoop_full (todo : Nat) (hfull : PipeFull pi) :
    (pipewriteLoop src killed todo i pi).pipe = pi := by
  cases todo with
  | zero => rfl
  | succ todo =>
    rcases pipewriteLoop_succ src killed todo i pi with ⟨-, heq⟩ | ⟨-, ⟨-, heq⟩ | ⟨hnot, -⟩ |
      ⟨ch, hnot, -⟩⟩
    · rw [heq]
    · rw [heq]
    · exact absurd hfull hnot
    · exact absurd hfull hnot

/-- With a reader and a process that is not killed, the loop does not give up: neither changes
while it runs. -/
theorem pipewriteLoop_open (todo : Nat) (hopen : ¬ (pi.readopen = false ∨ killed = true)) :
    (pipewriteLoop src killed todo i pi).stop ≠ .closed := by
  induction todo generalizing i pi with
  | zero => nofun
  | succ todo ih =>
    rcases pipewriteLoop_succ src killed todo i pi with ⟨hclosed, -⟩ | ⟨-, ⟨-, heq⟩ |
      ⟨-, -, heq⟩ | ⟨ch, -, -, heq⟩⟩
    · exact absurd hclosed hopen
    · simp [heq]
    · simp [heq]
    · rw [heq]
      exact ih (show ¬ ((pi.put ch).readopen = false ∨ killed = true) from hopen)

/-- So it gives up only before it has written anything. -/
theorem pipewriteLoop_closed {todo : Nat}
    (h : (pipewriteLoop src killed todo i pi).stop = .closed) :
    (pipewriteLoop src killed todo i pi).pipe = pi := by
  cases todo with
  | zero => rfl
  | succ todo =>
    rcases pipewriteLoop_succ src killed todo i pi with ⟨-, heq⟩ | ⟨hopen, -⟩
    · rw [heq]
    · exact absurd h (pipewriteLoop_open _ hopen)

/-- It stops on a full pipe only while there is a reader. -/
theorem pipewriteLoop_stop_full {todo : Nat}
    (h : (pipewriteLoop src killed todo i pi).stop = .full) :
    PipeFull (pipewriteLoop src killed todo i pi).pipe ∧
      (pipewriteLoop src killed todo i pi).pipe.readopen = true := by
  induction todo generalizing i pi with
  | zero => cases h
  | succ todo ih =>
    rcases pipewriteLoop_succ src killed todo i pi with ⟨-, heq⟩ | ⟨hopen, ⟨hfull, heq⟩ |
      ⟨-, -, heq⟩ | ⟨ch, -, -, heq⟩⟩
    · simp [heq] at h
    · rw [heq]
      exact ⟨hfull, by simpa using fun hr => hopen (.inl hr)⟩
    · simp [heq] at h
    · rw [heq] at h ⊢
      exact ih h

end Write

/-! ### `piperead` -/

/-- A part of `piperead` that started at byte `i` took `r.bytes` from the front. -/
structure Took (i : Nat) (pi : Pipe) (r : ReadRun) : Prop where
  i_eq : r.i = i + r.bytes.length
  buffered : r.failed = false → buffered pi = r.bytes ++ buffered r.pipe
  used : used r.pipe ≤ PIPESIZE

/-- The loop of `piperead` takes bytes until it has enough, or the pipe is empty. -/
theorem pipereadLoop_took {dst : Nat → Bool} {i : Nat} {pi : Pipe} (todo : Nat)
    (hused : used pi ≤ PIPESIZE) : Took i pi (pipereadLoop dst todo i pi) := by
  induction todo generalizing i pi with
  | zero => exact ⟨rfl, fun _ => rfl, hused⟩
  | succ todo ih =>
    unfold pipereadLoop
    by_cases hempty : pi.nread = pi.nwrite
    · rw [if_pos hempty]
      exact ⟨rfl, fun _ => rfl, hused⟩
    rw [if_neg hempty]
    have hadv := used_advance hempty
    by_cases hdst : dst i = true
    · simp only [hdst, if_true]
      have h : Took (i + 1) pi.advance (pipereadLoop dst todo (i + 1) pi.advance) :=
        ih (by omega)
      refine ⟨?_, fun hok => ?_, h.used⟩
      · rw [h.i_eq, List.length_cons]
        omega
      · rw [buffered_advance hempty, h.buffered hok]
        rfl
    · simp only [hdst]
      exact ⟨rfl, nofun, by simp only [Bool.false_eq_true, if_false]; omega⟩

end Xv6.Proofs
