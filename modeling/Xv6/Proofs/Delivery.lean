import Xv6.Proofs.Pipe.Fifo
import Xv6.Proofs.Console.Discipline

/-!
# `Xv6.Proofs.Delivery`: reads whose copy fails

`piperead` and `consoleread` advance the read index and then copy the byte out. When the copy fails
the loop is left with the index behind the byte, and the byte is not counted in the result: the next
read starts one byte later. `read_consumes_reported_iff` says so for every read of every run. What
is consumed is what is reported exactly if every byte that the read comes to has an address that can
be written, and otherwise one byte is lost.

The bytes that a read of the console comes to end with the line, or before a `^D` (`readWanted`). A
`^D` that is taken by a read with nothing in hand is a mark and not a byte, so this is not a loss.
-/

set_option autoImplicit false

namespace Xv6.Proofs

open Lib List

/-- Of the bytes `before`, a read has consumed the `k` that it reports. -/
def Consumed (before after : List UInt8) (k : Nat) : Prop := after = before.drop k

theorem consumed_append (bytes after : List UInt8) :
    Consumed (bytes ++ after) after bytes.length :=
  drop_left.symm

/-- One byte more is gone. -/
theorem not_consumed_of_lost {before after bytes : List UInt8} {ch : UInt8}
    (h : before = bytes ++ ch :: after) : ¬ Consumed before after bytes.length := by
  intro hkept
  have hlen := congrArg List.length hkept
  rw [h, drop_left, length_cons] at hlen
  omega

/-! ### `piperead` -/

section Pipe

variable {dst : Nat → Bool} {i : Nat} {pi : Pipe}

/-- The loop of `piperead` fails exactly if a copy of a byte that it takes does. -/
theorem pipereadLoop_failed_iff (dst : Nat → Bool) (todo : Nat) :
    ∀ (i : Nat) (pi : Pipe), (pipereadLoop dst todo i pi).failed = true ↔
      ∃ k < min todo (used pi), dst (i + k) = false := by
  induction todo with
  | zero =>
    intro i pi
    rw [Nat.zero_min]
    exact iff_of_false (by simp [pipereadLoop]) (by simp)
  | succ todo ih =>
    intro i pi
    rw [pipereadLoop]
    by_cases hempty : pi.nread = pi.nwrite
    · rw [if_pos hempty, (used_eq_zero_iff pi).mpr hempty, Nat.min_zero]
      exact iff_of_false (by simp) (by simp)
    rw [if_neg hempty]
    have hadv := used_advance hempty
    by_cases hdst : dst i = true
    · simp only [hdst, if_true]
      rw [ih]
      constructor
      · rintro ⟨k, hk, hfail⟩
        exact ⟨k + 1, by omega, by rwa [Nat.add_left_comm, Nat.add_comm]⟩
      · rintro ⟨k, hk, hfail⟩
        cases k with
        | zero =>
          rw [Nat.add_zero, hdst] at hfail
          cases hfail
        | succ k => exact ⟨k, by omega, by rwa [Nat.add_right_comm]⟩
    · rw [Bool.not_eq_true] at hdst
      simp only [hdst, Bool.false_eq_true, if_false, true_iff]
      exact ⟨0, by omega, hdst⟩

/-- The byte whose copy failed is gone. -/
theorem pipereadLoop_lost (todo : Nat) :
    ∀ {i : Nat} {pi : Pipe}, (pipereadLoop dst todo i pi).failed = true →
      ∃ ch, buffered pi = (pipereadLoop dst todo i pi).bytes ++
        ch :: buffered (pipereadLoop dst todo i pi).pipe := by
  induction todo with
  | zero =>
    intro _ _ hfailed
    cases hfailed
  | succ todo ih =>
    intro i pi hfailed
    rw [pipereadLoop] at hfailed ⊢
    by_cases hempty : pi.nread = pi.nwrite
    · rw [if_pos hempty] at hfailed
      cases hfailed
    rw [if_neg hempty] at hfailed ⊢
    by_cases hdst : dst i = true
    · simp only [hdst, if_true] at hfailed ⊢
      obtain ⟨ch, hch⟩ := ih hfailed
      refine ⟨ch, ?_⟩
      rw [buffered_advance hempty, hch]
      rfl
    · simp only [hdst]
      exact ⟨_, buffered_advance hempty⟩

/-- What a `piperead` that returns `r` has consumed. -/
theorem piperead_consumed_iff {n : Nat} {s : PipeState n} (hused : used s.pipe ≤ PIPESIZE)
    {p : Fin n} {call : Nat} {len r : Int}
    (hret : (s.piperead p call dst len).data.rets = s.rets ++ [.read call len r]) (hr : 0 ≤ r) :
    Consumed (buffered s.pipe) (buffered (s.piperead p call dst len).data.pipe) r.toNat ↔
      ∀ k < ((buffered s.pipe).take len.toNat).length, dst k = true := by
  unfold PipeState.piperead at hret ⊢
  by_cases hempty : s.pipe.nread = s.pipe.nwrite ∧ s.pipe.writeopen = true
  · -- the call is killed or sleeps
    rw [if_pos hempty] at hret
    by_cases hkilled : s.killed p = true
    · rw [if_pos hkilled] at hret
      have hlast := append_cancel_left hret
      simp only [List.cons.injEq, PipeRet.read.injEq, true_and, and_true] at hlast
      omega
    · rw [if_neg hkilled] at hret
      exact absurd (self_eq_append_right.mp hret) (cons_ne_nil _ _)
  rw [if_neg hempty] at hret ⊢
  have hlast := append_cancel_left hret
  simp only [List.cons.injEq, PipeRet.read.injEq, true_and, and_true] at hlast
  have htook : Took 0 s.pipe (pipereadLoop dst len.toNat 0 s.pipe) := pipereadLoop_took _ hused
  have hlen : r.toNat = (pipereadLoop dst len.toNat 0 s.pipe).bytes.length := by
    rw [← hlast, htook.i_eq, Nat.zero_add, Int.toNat_natCast]
  have hiff := pipereadLoop_failed_iff dst len.toNat 0 s.pipe
  rw [hlen, length_take, length_buffered]
  cases hfailed : (pipereadLoop dst len.toNat 0 s.pipe).failed with
  | false =>
    refine iff_of_true ?_ fun k hk => ?_
    · show Consumed (buffered s.pipe) (buffered (pipereadLoop dst len.toNat 0 s.pipe).pipe) _
      rw [htook.buffered hfailed]
      exact consumed_append _ _
    · by_contra hdst
      have hbad := hiff.mpr ⟨k, hk, by rwa [Nat.zero_add, ← Bool.not_eq_true]⟩
      rw [hfailed] at hbad
      cases hbad
  | true =>
    obtain ⟨ch, hlost⟩ := pipereadLoop_lost len.toNat hfailed
    refine iff_of_false (not_consumed_of_lost hlost) fun hall => ?_
    obtain ⟨k, hk, hbad⟩ := hiff.mp hfailed
    rw [Nat.zero_add, hall k hk] at hbad
    cases hbad

end Pipe

/-! ### `consoleread` -/

/-- The bytes that a read for `n` bytes comes to. -/
def readWanted : Nat → List UInt8 → List UInt8
  | 0, _ => []
  | _ + 1, [] => []
  | n + 1, c :: cs =>
    if c = ctrl 'D' then [] else if c = newline then [c] else c :: readWanted n cs

section Console

variable {dst : Nat → Bool} {target : Nat}

/-- The loop of `consoleread` fails exactly if a copy of a byte that it wants does. -/
theorem consolereadLoop_failed_iff (dst : Nat → Bool) (n : Nat) :
    ∀ {cons : Cons}, n ≤ target → IndexOrder cons →
      ((consolereadLoop dst target n cons).failed = true ↔
        ∃ k < (readWanted n (unread cons)).length, dst (target - n + k) = false) := by
  induction n with
  | zero => exact fun _ _ => iff_of_false (by simp [consolereadLoop]) (by simp [readWanted])
  | succ n ih =>
    intro cons hn h
    rw [consolereadLoop]
    by_cases hempty : cons.r = cons.w
    · rw [if_pos hempty, (unread_eq_nil_iff cons).mpr hempty]
      exact iff_of_false (by simp) (by simp [readWanted])
    rw [if_neg hempty]
    obtain ⟨hadv, -, horder⟩ := h.advance hempty
    rw [hadv, readWanted]
    by_cases heof : cons.buf (Cons.index cons.r) = ctrl 'D'
    · simp only [if_pos heof]
      refine iff_of_false ?_ (by simp)
      split <;> exact Bool.false_ne_true
    simp only [if_neg heof]
    by_cases hdst : dst (target - (n + 1)) = false
    · simp only [if_pos hdst, true_iff]
      refine ⟨0, ?_, hdst⟩
      split <;> exact Nat.zero_lt_succ _
    simp only [if_neg hdst]
    by_cases hnl : cons.buf (Cons.index cons.r) = newline
    · simp only [if_pos hnl]
      refine iff_of_false Bool.false_ne_true ?_
      rintro ⟨k, hk, hbad⟩
      rw [length_singleton] at hk
      obtain rfl := Nat.lt_one_iff.mp hk
      exact hdst hbad
    simp only [if_neg hnl]
    rw [ih (Nat.le_of_succ_le hn) horder]
    have hshift : ∀ k, target - (n + 1) + (k + 1) = target - n + k := by
      intro k
      omega
    constructor
    · rintro ⟨k, hk, hbad⟩
      exact ⟨k + 1, Nat.succ_lt_succ hk, by rwa [hshift]⟩
    · rintro ⟨k, hk, hbad⟩
      cases k with
      | zero => exact absurd hbad hdst
      | succ k => exact ⟨k, Nat.lt_of_succ_lt_succ hk, by rwa [← hshift]⟩

/-- A failed copy ends the loop behind the byte. -/
theorem consolereadLoop_lost (dst : Nat → Bool) (target n : Nat) :
    ∀ cons : Cons, (consolereadLoop dst target n cons).failed = true →
      (consolereadLoop dst target n cons).stop = .done ∧
      ∃ c, c ≠ ctrl 'D' ∧ (consolereadLoop dst target n cons).taken
        = (consolereadLoop dst target n cons).copied ++ [c] := by
  induction n with
  | zero =>
    intro _ hfailed
    cases hfailed
  | succ n ih =>
    intro cons hfailed
    rw [consolereadLoop] at hfailed ⊢
    by_cases hempty : cons.r = cons.w
    · rw [if_pos hempty] at hfailed
      cases hfailed
    rw [if_neg hempty] at hfailed ⊢
    by_cases heof : cons.buf (Cons.index cons.r) = ctrl 'D'
    · simp only [if_pos heof] at hfailed
      split at hfailed <;> cases hfailed
    simp only [if_neg heof] at hfailed ⊢
    by_cases hdst : dst (target - (n + 1)) = false
    · simp only [if_pos hdst]
      exact ⟨trivial, _, heof, rfl⟩
    simp only [if_neg hdst] at hfailed ⊢
    by_cases hnl : cons.buf (Cons.index cons.r) = newline
    · simp only [if_pos hnl] at hfailed
      cases hfailed
    simp only [if_neg hnl] at hfailed ⊢
    obtain ⟨hstop, c, hc, htaken⟩ := ih _ hfailed
    exact ⟨hstop, c, hc, by rw [htaken]; rfl⟩

/-- The first character is a `^D`, and nothing else is consumed. -/
def TookEof (before after : List UInt8) : Prop := before = ctrl 'D' :: after

/-- What the last part of a `consoleread` that returns `r` has consumed. -/
theorem consoleread_consumed_iff {m : Nat} {s : ConsoleState m} {ls : Fin m → ConsolePlace}
    (h : ConsoleInv s ls) {p : Fin m} {call todo pos : Nat} {len r : Int}
    (hl : ls p = .read call dst len todo)
    (hret : (s.consoleread p call dst len todo).data.rets
      = s.rets ++ [{ call := call, len := len, r := r, pos := pos }]) (hr : 0 ≤ r) :
    (Consumed (unread s.cons) (unread (s.consoleread p call dst len todo).data.cons)
        (r.toNat - (len.toNat - todo)) ∨
      TookEof (unread s.cons) (unread (s.consoleread p call dst len todo).data.cons)) ↔
      ∀ k < (readWanted todo (unread s.cons)).length, dst (len.toNat - todo + k) = true := by
  have hcount := (h.reading p call dst len todo hl).count
  have htodo : todo ≤ len.toNat := by omega
  have hline := consolereadLoop_readLine dst htodo h.order
  have hiff := consolereadLoop_failed_iff dst todo htodo h.order
  have hlost := consolereadLoop_lost dst len.toNat todo s.cons
  unfold ConsoleState.consoleread at hret ⊢
  generalize consolereadLoop dst len.toNat todo s.cons = t at hline hiff hlost hret ⊢
  have hn := hline.count
  cases hstop : t.stop with
  | empty =>
    -- the call is killed or sleeps
    simp only [hstop] at hret
    by_cases hkilled : s.killed p = true
    · rw [if_pos hkilled] at hret
      have hlast := append_cancel_left hret
      simp only [List.cons.injEq, ConsoleRet.mk.injEq, and_true] at hlast
      omega
    · rw [if_neg hkilled] at hret
      exact absurd (self_eq_append_right.mp hret) (cons_ne_nil _ _)
  | done =>
    simp only [hstop] at hret ⊢
    have hlast := append_cancel_left hret
    simp only [List.cons.injEq, ConsoleRet.mk.injEq, and_true] at hlast
    have hk : r.toNat - (len.toNat - todo) = t.copied.length := by omega
    rw [hk]
    show (Consumed (unread s.cons) (unread t.cons) _ ∨ TookEof (unread s.cons) (unread t.cons)) ↔ _
    cases hfailed : t.failed with
    | false =>
      refine iff_of_true ?_ fun k hk => ?_
      · have hself : t.taken = t.copied →
            Consumed (unread s.cons) (unread t.cons) t.copied.length := by
          intro htaken
          rw [hline.unread, htaken]
          exact consumed_append _ _
        cases hline.ends with
        | full _ _ htaken => exact Or.inl (hself htaken)
        | line _ _ htaken => exact Or.inl (hself htaken)
        | beforeEof _ _ _ htaken => exact Or.inl (hself htaken)
        | empty _ _ htaken => exact Or.inl (hself htaken)
        | eof _ _ htaken =>
          refine Or.inr ?_
          unfold TookEof
          rw [hline.unread, htaken]
          rfl
        | failed _ hbad _ =>
          rw [hfailed] at hbad
          cases hbad
      · by_contra hdst
        have hbad := hiff.mpr ⟨k, hk, by rwa [← Bool.not_eq_true]⟩
        rw [hfailed] at hbad
        cases hbad
    | true =>
      obtain ⟨-, c, hc, htaken⟩ := hlost hfailed
      have hgone : unread s.cons = t.copied ++ c :: unread t.cons := by
        rw [hline.unread, htaken, append_assoc]
        rfl
      refine iff_of_false ?_ fun hall => ?_
      · rintro (hcons | heof)
        · exact not_consumed_of_lost hgone hcons
        · -- what is lost is not a mark
          unfold TookEof at heof
          rw [hgone] at heof
          cases hcopied : t.copied with
          | nil =>
            rw [hcopied] at heof
            exact hc (List.cons.inj heof).1
          | cons x xs =>
            rw [hcopied] at heof
            have hx := (List.cons.inj heof).1
            exact hline.noEof (hcopied ▸ hx ▸ mem_cons_self)
      · obtain ⟨k, hk, hbad⟩ := hiff.mp hfailed
        rw [hall k hk] at hbad
        cases hbad

end Console

/-! ### The result -/

/-- A read consumes what it reports exactly if no copy fails, for every read of every run. A part of
`consoleread` that follows a sleep has `todo` bytes to go, and the parts before it have consumed
what they copied. -/
theorem read_consumes_reported_iff (n : Nat) :
    (∀ data killed evs (σ : Monitor.State n (PipeState n) PipePlace PipeChan),
      (pipeMonitor n).run (pipeStart data killed) evs = some σ →
      ∀ p call dst len, σ.loc p = .read call dst len → ∀ r : Int,
        (σ.data.piperead p call dst len).data.rets = σ.data.rets ++ [.read call len r] → 0 ≤ r →
        (Consumed (buffered σ.data.pipe) (buffered (σ.data.piperead p call dst len).data.pipe)
            r.toNat ↔
          ∀ k < ((buffered σ.data.pipe).take len.toNat).length, dst k = true)) ∧
    (∀ killed evs (σ : Monitor.State n (ConsoleState n) ConsolePlace ConsoleChan),
      (consoleMonitor n).run (consoleStart killed) evs = some σ →
      ∀ p call dst len todo, σ.loc p = .read call dst len todo → ∀ (r : Int) (pos : Nat),
        (σ.data.consoleread p call dst len todo).data.rets
          = σ.data.rets ++ [{ call := call, len := len, r := r, pos := pos }] → 0 ≤ r →
        (ofCall σ.data.taken call).length = len.toNat - todo ∧
        ((Consumed (unread σ.data.cons)
            (unread (σ.data.consoleread p call dst len todo).data.cons)
            (r.toNat - (len.toNat - todo)) ∨
          TookEof (unread σ.data.cons)
            (unread (σ.data.consoleread p call dst len todo).data.cons)) ↔
          ∀ k < (readWanted todo (unread σ.data.cons)).length,
            dst (len.toNat - todo + k) = true)) := by
  constructor
  · intro data killed evs σ hrun p call dst len _ r hret hr
    have hinv : PipeInv σ.data σ.loc := (pipeInv_keeps n).run (pipeInv_fresh data killed) hrun
    exact piperead_consumed_iff hinv.used hret hr
  · intro killed evs σ hrun p call dst len todo hl r pos hret hr
    have hinv : ConsoleInv σ.data σ.loc :=
      (consoleInv_keeps n).run (consoleInv_fresh killed) hrun
    have hread := hinv.reading p call dst len todo hl
    refine ⟨?_, consoleread_consumed_iff hinv hl hret hr⟩
    have hcount := hread.count
    rw [hread.taken]
    omega

/-- A process has written two bytes and is in a read for one of them, to an address that cannot be
written. -/
def writeFault : List (Monitor.Event 1 PipeCall) :=
  let go (c : Option PipeCall) : Monitor.Event 1 PipeCall := .step (Fin.last 0) c
  [go (some (.write (fun i => some (UInt8.ofNat i)) 2))] ++ List.replicate 5 (go none) ++
    [go (some (.read (fun _ => false) 1)), go none]

/-- A process is in its read number `call` for `len` bytes. -/
def inRead (call : Nat) (len : Int) : PipePlace → Bool
  | .read call' _ len' => call' = call && len' = len
  | .user | .write _ _ _ _ | .close _ => false

/-- A byte is written to the pipe, and a read of it cannot be copied out. -/
theorem read_consumes_reported_iff_fault :
    ∃ σ dst r, (pipeMonitor 1).run (pipeStart (fun _ => 0) fun _ => false) writeFault = some σ ∧
      (σ.data.piperead (Fin.last 0) 1 dst 1).data.rets = σ.data.rets ++ [.read 1 1 r] ∧
      (Consumed (buffered σ.data.pipe)
          (buffered (σ.data.piperead (Fin.last 0) 1 dst 1).data.pipe) r.toNat ↔
        ∀ k < ((buffered σ.data.pipe).take 1).length, dst k = true) := by
  have hrun : (((pipeMonitor 1).run (pipeStart (fun _ => 0) fun _ => false) writeFault).any
      fun σ => σ.data.pipe.nread ≠ σ.data.pipe.nwrite ∧
        inRead 1 1 (σ.loc (Fin.last 0))) = true := by
    decide +kernel
  obtain ⟨σ, hσ, hfacts⟩ := (Option.any_eq_true _ _).mp hrun
  obtain ⟨hne, hplace⟩ := of_decide_eq_true hfacts
  cases hl : σ.loc (Fin.last 0) with
  | read call dst len =>
    rw [hl, inRead, Bool.and_eq_true, decide_eq_true_eq, decide_eq_true_eq] at hplace
    obtain ⟨rfl, rfl⟩ := hplace
    have hret : (σ.data.piperead (Fin.last 0) 1 dst 1).data.rets
        = σ.data.rets ++ [.read 1 1 (pipereadLoop dst 1 0 σ.data.pipe).i] := by
      unfold PipeState.piperead
      rw [if_neg fun h => hne h.1]
      rfl
    exact ⟨σ, dst, _, hσ, hret, (read_consumes_reported_iff 1).1 _ _ _ σ hσ _ 1 dst 1 hl _ hret
      (Int.natCast_nonneg _)⟩
  | user | write | close =>
    rw [hl] at hplace
    cases hplace

/-- The results of the reads, in the order of their returns. -/
def readResults (rets : List PipeRet) : List (Nat × Int) :=
  rets.filterMap fun
    | .read call _ r => some (call, r)
    | .write _ _ _ _ => none

/-- The read that fails is followed by one that does not. -/
def faultThenRead : List (Monitor.Event 1 PipeCall) :=
  let go (c : Option PipeCall) : Monitor.Event 1 PipeCall := .step (Fin.last 0) c
  writeFault ++ List.replicate 4 (go none) ++ [go (some (.read (fun _ => true) 1))] ++
    List.replicate 5 (go none)

/-- Two characters arrive and are read, first to an address that cannot be written. -/
def typedFault : List (Monitor.Event 1 ConsoleCall) :=
  let go (c : Option ConsoleCall) : Monitor.Event 1 ConsoleCall := .step (Fin.last 0) c
  [go (some (.intr 97))] ++ List.replicate 3 (go none) ++
    [go (some (.intr newline))] ++ List.replicate 5 (go none) ++
    [go (some (.read (fun _ => false) 2))] ++ List.replicate 3 (go none) ++
    [go (some (.read (fun _ => true) 2))] ++ List.replicate 3 (go none)

/-- The first read reports nothing, and the second one gets the second byte, at a pipe and at the
console. -/
theorem failed_read_loses_byte :
    (∃ σ, (pipeMonitor 1).run (pipeStart (fun _ => 0) fun _ => false) faultThenRead = some σ ∧
      σ.data.put = [(0, 0), (0, 1)] ∧ readResults σ.data.rets = [(1, 0), (2, 1)] ∧
      σ.data.got = [(2, 1)]) ∧
    ∃ σ, (consoleMonitor 1).run (consoleStart fun _ => false) typedFault = some σ ∧
      (edited σ.data.hist).out = [97, newline] ∧
      σ.data.rets.map (fun ret => (ret.call, ret.r)) = [(0, 0), (1, 1)] ∧
      σ.data.copied = [(1, newline)] := by
  have hpipe : (((pipeMonitor 1).run (pipeStart (fun _ => 0) fun _ => false) faultThenRead).any
      fun σ => σ.data.put = [(0, 0), (0, 1)] ∧ readResults σ.data.rets = [(1, 0), (2, 1)] ∧
        σ.data.got = [(2, 1)]) = true := by
    decide +kernel
  have hcons : (((consoleMonitor 1).run (consoleStart fun _ => false) typedFault).any
      fun σ => (edited σ.data.hist).out = [97, newline] ∧
        σ.data.rets.map (fun ret => (ret.call, ret.r)) = [(0, 0), (1, 1)] ∧
        σ.data.copied = [(1, newline)]) = true := by
    decide +kernel
  obtain ⟨σ, hσ, hfacts⟩ := (Option.any_eq_true _ _).mp hpipe
  obtain ⟨τ, hτ, hfacts'⟩ := (Option.any_eq_true _ _).mp hcons
  exact ⟨⟨σ, hσ, of_decide_eq_true hfacts⟩, τ, hτ, of_decide_eq_true hfacts'⟩

end Xv6.Proofs
