import Xv6.Lib.Calls
import Xv6.Proofs.Pipe.Sleepers

/-!
# `Xv6.Proofs.Pipe.Fifo`: a pipe is a queue of bytes

`PipeInv` relates the buffer to the history of the pipe. What has been taken out, followed by what
is buffered, is what has been put in. Every call in progress has a number of its own. The bytes
that `pipewrite` has put in under its number are the first `i` bytes of its caller, and `piperead`
takes nothing out before the one section in which it returns.

A failed `copyout` loses a byte that is already taken out, so the first part is about runs in which
none fails. A failed `copyin` does no harm.
-/

set_option autoImplicit false

namespace Xv6.Proofs

open Lib List
open Function (update update_eq_self update_idem update_self)

variable {i : Nat} {l : PipePlace} {src : Nat → Option UInt8}

/-! ### The history -/

/-- A call has taken exactly `k` bytes out, one right after the other. -/
def TookExactly (got : List (Nat × UInt8)) (call k : Nat) : Prop :=
  ∃ (before : List (Nat × UInt8)) (bytes : List UInt8) (after : List (Nat × UInt8)),
    got = before ++ bytes.map (fun ch => (call, ch)) ++ after ∧
    bytes.length = k ∧ ∀ x ∈ before ++ after, x.1 ≠ call

section History

variable {got : List (Nat × UInt8)} {call call' : Nat} {bytes : List UInt8}

theorem tookExactly_self (h : ∀ x ∈ got, x.1 ≠ call) :
    TookExactly (got ++ bytes.map fun ch => (call, ch)) call bytes.length :=
  ⟨got, bytes, [], by simp, rfl, by simpa using h⟩

/-- What another call takes is not counted for this one. -/
theorem TookExactly.append {k : Nat} (h : TookExactly got call k) (hne : call ≠ call') :
    TookExactly (got ++ bytes.map fun ch => (call', ch)) call k := by
  obtain ⟨before, bs, after, rfl, hlen, hother⟩ := h
  refine ⟨before, bs, after ++ bytes.map fun ch => (call', ch), by simp, hlen, ?_⟩
  intro x hx
  rw [← append_assoc, mem_append] at hx
  rcases hx with hx | hx
  · exact hother x hx
  · obtain ⟨ch, -, rfl⟩ := mem_map.mp hx
    exact Ne.symm hne

end History

/-! ### The invariant -/

/-- The number of the call that a process is in. -/
def callOf : PipePlace → Option Nat
  | .write call _ _ _ | .read call _ _ => some call
  | .user | .close _ => none

/-- What a call in progress has done. -/
def InProgress {n : Nat} (s : PipeState n) : PipePlace → Prop
  | .write call src _ i => (ofCall s.put call).map some = (List.range i).map src
  | .read call _ _ => ∀ x ∈ s.got, x.1 ≠ call
  | .user | .close _ => True

/-- What a call that has returned has done. -/
def Returned {n : Nat} (s : PipeState n) : PipeRet → Prop
  | .write call src _ r => 0 ≤ r → (ofCall s.put call).map some = (List.range r.toNat).map src
  | .read call _ r => 0 ≤ r → TookExactly s.got call r.toNat

structure PipeInv {n : Nat} (s : PipeState n) (ls : Fin n → PipePlace) : Prop where
  used : used s.pipe ≤ PIPESIZE
  fifo : s.copyFailed = false →
    s.got.map Prod.snd ++ buffered s.pipe = s.put.map Prod.snd
  putCalls : ∀ x ∈ s.put, x.1 < s.calls
  gotCalls : ∀ x ∈ s.got, x.1 < s.calls
  retCalls : ∀ r ∈ s.rets, r.call < s.calls
  numbered : ∀ p call, callOf (ls p) = some call →
    call < s.calls ∧ (∀ r ∈ s.rets, r.call ≠ call) ∧
      ∀ q, callOf (ls q) = some call → q = p
  inProgress : ∀ p, InProgress s (ls p)
  returned : ∀ r ∈ s.rets, Returned s r

/-- The invariant holds for a new pipe. -/
theorem pipeInv_fresh {n : Nat} (data : Fin PIPESIZE → UInt8) (killed : Fin n → Bool) :
    PipeInv (PipeState.fresh data killed) fun _ => .user where
  used := Nat.le_trans (Nat.le_of_eq ((used_eq_zero_iff _).mpr rfl)) (Nat.zero_le _)
  fifo _ := (buffered_eq_nil_iff _).mpr rfl
  putCalls := nofun
  gotCalls := nofun
  retCalls := nofun
  numbered := nofun
  inProgress _ := trivial
  returned := nofun

/-! ### What happens to a call

A section is taken apart: the process is taken out of its call, the history is extended under the
number of the call, and then the call returns, or the process is put back into it.
-/

/-- The number of a call that no process is in and that has not returned. -/
structure Loose {n : Nat} (s : PipeState n) (ls : Fin n → PipePlace) (call : Nat) : Prop where
  lt : call < s.calls
  ret : ∀ r ∈ s.rets, r.call ≠ call
  unowned : ∀ q, callOf (ls q) ≠ some call

section Calls

variable {n : Nat} {s : PipeState n} {ls : Fin n → PipePlace} {p : Fin n} {call : Nat}

section

variable (h : PipeInv s ls)
include h

/-- A process that leaves its call. -/
theorem PipeInv.drop (hl : callOf l = none) (hprog : InProgress s l) :
    PipeInv s (update ls p l) := by
  have hcall : ∀ q call, callOf (update ls p l q) = some call →
      callOf (ls q) = some call := by
    intro q call hq
    by_cases hqp : q = p
    · subst hqp
      simp [hl] at hq
    · simpa [hqp] using hq
  refine { h with numbered := fun q call hq => ?_, inProgress := fun q => ?_ }
  · obtain ⟨hlt, hret, huniq⟩ := h.numbered q call (hcall q call hq)
    exact ⟨hlt, hret, fun u hu => huniq u (hcall u call hu)⟩
  · by_cases hqp : q = p
    · subst hqp
      simpa using hprog
    · simpa [hqp] using h.inProgress q

theorem PipeInv.loose (hcall : callOf (ls p) = some call) (hl : callOf l = none) :
    Loose s (update ls p l) call := by
  obtain ⟨hlt, hret, huniq⟩ := h.numbered p call hcall
  refine ⟨hlt, hret, fun q hq => ?_⟩
  by_cases hqp : q = p
  · subst hqp
    simp [hl] at hq
  · exact hqp (huniq q (by simpa [hqp] using hq))

/-- A process that enters a call, or goes on with it. -/
theorem PipeInv.own (hloose : Loose s ls call) (hl : callOf l = some call)
    (hprog : InProgress s l) :
    PipeInv s (update ls p l) := by
  have hcases : ∀ q c, callOf (update ls p l q) = some c →
      (q = p ∧ c = call) ∨ (q ≠ p ∧ callOf (ls q) = some c) := by
    intro q c hq
    by_cases hqp : q = p
    · subst hqp
      rw [update_self, hl] at hq
      exact .inl ⟨rfl, (Option.some.inj hq).symm⟩
    · exact .inr ⟨hqp, by simpa [hqp] using hq⟩
  refine { h with numbered := fun q c hq => ?_, inProgress := fun q => ?_ }
  · rcases hcases q c hq with ⟨rfl, rfl⟩ | ⟨hqp, hq⟩
    · refine ⟨hloose.lt, hloose.ret, fun u hu => ?_⟩
      rcases hcases u c hu with ⟨rfl, -⟩ | ⟨-, hu⟩
      · rfl
      · exact absurd hu (hloose.unowned u)
    · obtain ⟨hlt, hret, huniq⟩ := h.numbered q c hq
      refine ⟨hlt, hret, fun u hu => ?_⟩
      rcases hcases u c hu with ⟨-, rfl⟩ | ⟨-, hu⟩
      · exact absurd hq (hloose.unowned q)
      · exact huniq u hu
  · by_cases hqp : q = p
    · subst hqp
      simpa using hprog
    · simpa [hqp] using h.inProgress q

/-- A new call gets a number that nobody has used. -/
theorem PipeInv.newCall : PipeInv { s with calls := s.calls + 1 } ls ∧
      Loose { s with calls := s.calls + 1 } ls s.calls := by
  refine ⟨⟨h.used, h.fifo, ?_, ?_, ?_, ?_, h.inProgress, h.returned⟩, ?_, ?_, ?_⟩
  · exact fun x hx => Nat.lt_succ_of_lt (h.putCalls x hx)
  · exact fun x hx => Nat.lt_succ_of_lt (h.gotCalls x hx)
  · exact fun r hr => Nat.lt_succ_of_lt (h.retCalls r hr)
  · exact fun p c hc => ⟨Nat.lt_succ_of_lt (h.numbered p c hc).1, (h.numbered p c hc).2⟩
  · exact Nat.lt_succ_self _
  · exact fun r hr => (h.retCalls r hr).ne
  · exact fun q hq => (h.numbered q _ hq).1.ne rfl

/-- A call returns. -/
theorem PipeInv.ret {r : PipeRet} (hloose : Loose s ls r.call) (hr : Returned s r) :
    PipeInv (s.ret r) ls := by
  refine ⟨h.used, h.fifo, h.putCalls, h.gotCalls, fun x hx => ?_, fun q c hq => ?_,
    h.inProgress, fun x hx => ?_⟩
  · rcases mem_append.mp hx with hx | hx
    · exact h.retCalls x hx
    · obtain rfl := mem_singleton.mp hx
      exact hloose.lt
  · obtain ⟨hlt, hret, huniq⟩ := h.numbered q c hq
    refine ⟨hlt, fun x hx => ?_, huniq⟩
    rcases mem_append.mp hx with hx | hx
    · exact hret x hx
    · obtain rfl := mem_singleton.mp hx
      exact fun heq => hloose.unowned q (heq ▸ hq)
  · rcases mem_append.mp hx with hx | hx
    · exact h.returned x hx
    · obtain rfl := mem_singleton.mp hx
      exact hr

/-- A call puts bytes into the pipe. -/
theorem PipeInv.wrote (hloose : Loose s ls call) {r : WriteRun} (hr : Wrote src i s.pipe r) :
    PipeInv { s with pipe := r.pipe, put := s.put ++ r.bytes.map fun ch => (call, ch) } ls := by
  refine ⟨hr.used, fun hok => ?_, fun x hx => ?_, h.gotCalls, h.retCalls, h.numbered,
    fun q => ?_, fun x hx => ?_⟩
  · have hsnd : ∀ bytes : List UInt8,
        (bytes.map fun ch => (call, ch)).map Prod.snd = bytes := fun bytes => by simp
    rw [map_append, hsnd, hr.buffered, ← append_assoc, h.fifo hok]
  · rcases mem_append.mp hx with hx | hx
    · exact h.putCalls x hx
    · obtain ⟨ch, -, rfl⟩ := mem_map.mp hx
      exact hloose.lt
  · -- the other calls in progress have other numbers
    have hq := h.inProgress q
    have hne := hloose.unowned q
    cases hl : ls q with
    | write call' src' len i' =>
      rw [hl] at hq hne
      simp only [InProgress]
      rw [ofCall_append_of_ne (fun heq => hne (congrArg some heq))]
      exact hq
    | read call' dst len =>
      rw [hl] at hq
      exact hq
    | user | close => trivial
  · have hx' := h.returned x hx
    have hne := hloose.ret x hx
    cases x with
    | write call' src' len r' =>
      simp only [Returned]
      rw [ofCall_append_of_ne (show call' ≠ call from hne)]
      exact hx'
    | read call' len r' => exact hx'

/-- A call takes bytes out of the pipe. -/
theorem PipeInv.took (hloose : Loose s ls call) {r : ReadRun} (hr : Took i s.pipe r) :
    PipeInv { s with
      pipe := r.pipe
      got := s.got ++ r.bytes.map fun ch => (call, ch)
      copyFailed := s.copyFailed || r.failed } ls := by
  refine ⟨hr.used, fun hok => ?_, h.putCalls, fun x hx => ?_, h.retCalls, h.numbered,
    fun q => ?_, fun x hx => ?_⟩
  · obtain ⟨hok, hokr⟩ : s.copyFailed = false ∧ r.failed = false := by simpa using hok
    have hsnd : ∀ bytes : List UInt8,
        (bytes.map fun ch => (call, ch)).map Prod.snd = bytes := fun bytes => by simp
    rw [map_append, hsnd, append_assoc, ← hr.buffered hokr, h.fifo hok]
  · rcases mem_append.mp hx with hx | hx
    · exact h.gotCalls x hx
    · obtain ⟨ch, -, rfl⟩ := mem_map.mp hx
      exact hloose.lt
  · have hq := h.inProgress q
    have hne := hloose.unowned q
    cases hl : ls q with
    | write call' src' len i' =>
      rw [hl] at hq
      exact hq
    | read call' dst len =>
      rw [hl] at hq hne
      intro x hx
      rcases mem_append.mp hx with hx | hx
      · exact hq x hx
      · obtain ⟨ch, -, rfl⟩ := mem_map.mp hx
        exact fun heq => hne (congrArg some heq.symm)
    | user | close => trivial
  · have hx' := h.returned x hx
    have hne := hloose.ret x hx
    cases x with
    | write call' src' len r' => exact hx'
    | read call' len r' => exact fun hpos => (hx' hpos).append hne

end

end Calls

/-! ### The steps -/

section Steps

variable {n : Nat} {s : PipeState n} {ls : Fin n → PipePlace} {p : Fin n} {call : Nat}

/-- The bytes of a call up to where a part of `pipewrite` has come. -/
theorem Wrote.ofCall_put {pi : Pipe} {r : WriteRun} (hr : Wrote src i pi r)
    {put : List (Nat × UInt8)} (h : (ofCall put call).map some = (List.range i).map src) :
    (ofCall (put ++ r.bytes.map fun ch => (call, ch)) call).map some
      = (List.range r.i).map src := by
  rw [ofCall_append_self, map_append, h, hr.bytes, hr.i_eq, range_add, map_append,
    List.range'_eq_map_range, map_map]

/-- `pipewrite` as a step. It puts its bytes behind all others. -/
theorem pipeInv_pipewrite {len : Int} (h : PipeInv s ls) (hl : ls p = .write call src len i) :
    PipeInv (s.pipewrite p call src len i).data
      (update ls p (s.pipewrite p call src len i).after.loc) := by
  have hprog : (ofCall s.put call).map some = (List.range i).map src := by
    have := h.inProgress p
    rwa [hl] at this
  have hr : Wrote src i s.pipe (pipewriteLoop src (s.killed p) (len - i).toNat i s.pipe) :=
    pipewriteLoop_wrote _ h.used
  have hloose : Loose s (update ls p .user) call := h.loose (by rw [hl]; rfl) rfl
  have hput := (h.drop (p := p) (l := .user) rfl trivial).wrote hloose hr
  have hloose' : Loose { s with
      pipe := (pipewriteLoop src (s.killed p) (len - i).toNat i s.pipe).pipe
      put := s.put ++ (pipewriteLoop src (s.killed p) (len - i).toNat i s.pipe).bytes.map
        fun ch => (call, ch) } (update ls p .user) call :=
    ⟨hloose.lt, hloose.ret, hloose.unowned⟩
  cases hstop : (pipewriteLoop src (s.killed p) (len - i).toNat i s.pipe).stop with
  | closed =>
    simp only [PipeState.pipewrite, hstop]
    exact hput.ret hloose' fun hr => absurd hr (by decide)
  | full =>
    simp only [PipeState.pipewrite, hstop, After.loc]
    have := hput.own (p := p) hloose' (l := .write call src len _) rfl (hr.ofCall_put hprog)
    rwa [update_idem] at this
  | done =>
    simp only [PipeState.pipewrite, hstop]
    exact hput.ret hloose' fun _ => hr.ofCall_put hprog

/-- `piperead` as a step. It takes the oldest bytes. -/
theorem pipeInv_piperead {dst : Nat → Bool} {len : Int} (h : PipeInv s ls)
    (hl : ls p = .read call dst len) :
    PipeInv (s.piperead p call dst len).data
      (update ls p (s.piperead p call dst len).after.loc) := by
  have hprog : ∀ x ∈ s.got, x.1 ≠ call := by
    have := h.inProgress p
    rwa [hl] at this
  have hloose : Loose s (update ls p .user) call := h.loose (by rw [hl]; rfl) rfl
  have hdrop : PipeInv s (update ls p .user) := h.drop rfl trivial
  unfold PipeState.piperead
  by_cases hempty : s.pipe.nread = s.pipe.nwrite ∧ s.pipe.writeopen = true
  · rw [if_pos hempty]
    by_cases hkilled : s.killed p = true
    · rw [if_pos hkilled]
      exact hdrop.ret hloose fun hr => absurd hr (by decide)
    · rw [if_neg hkilled]
      simp only [After.loc]
      rwa [← hl, update_eq_self]
  · rw [if_neg hempty]
    have hr : Took 0 s.pipe (pipereadLoop dst len.toNat 0 s.pipe) :=
      pipereadLoop_took _ h.used
    refine (hdrop.took hloose hr).ret ⟨hloose.lt, hloose.ret, hloose.unowned⟩ fun _ => ?_
    have hi : (pipereadLoop dst len.toNat 0 s.pipe).i
        = (pipereadLoop dst len.toNat 0 s.pipe).bytes.length := by
      simpa using hr.i_eq
    simp only [hi, Int.toNat_natCast]
    exact tookExactly_self hprog

/-- `pipeclose` as a step. -/
theorem pipeInv_pipeclose {writable : Bool} (h : PipeInv s ls) :
    PipeInv (s.pipeclose writable).data
      (update ls p (s.pipeclose writable).after.loc) := by
  have hdrop : PipeInv s (update ls p .user) := h.drop rfl trivial
  cases writable <;>
    exact ⟨hdrop.used, hdrop.fifo, hdrop.putCalls, hdrop.gotCalls, hdrop.retCalls,
      hdrop.numbered, hdrop.inProgress, hdrop.returned⟩

end Steps

/-- The critical sections of the pipe keep the invariant. -/
theorem pipeInv_keeps (n : Nat) : Monitor.Keeps (pipeMonitor n) PipeInv where
  kill _ h :=
    ⟨h.used, h.fifo, h.putCalls, h.gotCalls, h.retCalls, h.numbered, h.inProgress, h.returned⟩
  body := by
    intro s ls p r h hr
    obtain ⟨-, ⟨call, src, len, i, hl, rfl⟩ | ⟨call, dst, len, hl, rfl⟩ | ⟨writable, -, rfl⟩⟩ :=
      pipeBody_cases hr
    · exact pipeInv_pipewrite h hl
    · exact pipeInv_piperead h hl
    · exact pipeInv_pipeclose h
  outside := by
    intro s ls p k r h hr
    obtain ⟨hnew, hloose⟩ := h.newCall
    cases hl : ls p <;> cases k <;> simp only [pipeMonitor, hl] at hr <;> cases hr
    case user.write src len =>
      refine hnew.own hloose rfl ?_
      simp only [InProgress]
      rw [ofCall_eq_nil fun x hx => (h.putCalls x hx).ne]
      rfl
    case user.read dst len => exact hnew.own hloose rfl fun x hx => (h.gotCalls x hx).ne
    case user.close writable => exact h.drop rfl trivial

/-! ### The result -/

/-- A pipe is first in, first out, in every reachable state of a run in which no `copyout` fails.
The bytes taken out, followed by those in the buffer, are the bytes put in. The counters never
differ by more than `PIPESIZE`, in the middle of a section either. A `pipewrite` that has returned
`r` has put in exactly the first `r` bytes of its caller, and a `piperead` that has returned `r` has
taken out exactly `r` bytes, one right after the other. -/
theorem pipe_fifo {n : Nat} {data : Fin PIPESIZE → UInt8} {killed : Fin n → Bool}
    {evs : List (Monitor.Event n PipeCall)}
    {σ : Monitor.State n (PipeState n) PipePlace PipeChan}
    (hrun : (pipeMonitor n).run (pipeStart data killed) evs = some σ)
    (hcopy : σ.data.copyFailed = false) :
    σ.data.got.map Prod.snd ++ buffered σ.data.pipe = σ.data.put.map Prod.snd ∧
    (used σ.data.pipe ≤ PIPESIZE ∧
      (∀ src killed todo i, used (pipewriteLoop src killed todo i σ.data.pipe).pipe ≤ PIPESIZE) ∧
      ∀ dst todo i, used (pipereadLoop dst todo i σ.data.pipe).pipe ≤ PIPESIZE) ∧
    (∀ call src len r, .write call src len r ∈ σ.data.rets → 0 ≤ r →
      (ofCall σ.data.put call).map some = (List.range r.toNat).map src) ∧
    (∀ call len r, .read call len r ∈ σ.data.rets → 0 ≤ r →
      TookExactly σ.data.got call r.toNat) := by
  have hinv : PipeInv σ.data σ.loc :=
    (pipeInv_keeps n).run (pipeInv_fresh data killed) hrun
  refine ⟨hinv.fifo hcopy, ⟨hinv.used, ?_, ?_⟩, ?_, ?_⟩
  · exact fun src killed todo i => (pipewriteLoop_wrote todo hinv.used).used
  · exact fun dst todo i => (pipereadLoop_took todo hinv.used).used
  · exact fun call src len r hr => hinv.returned _ hr
  · exact fun call len r hr => hinv.returned _ hr

/-- A process writes three bytes and reads two. -/
def writeRead : List (Monitor.Event 1 PipeCall) :=
  let go (c : Option PipeCall) : Monitor.Event 1 PipeCall := .step (Fin.last 0) c
  [go (some (.write (fun i => some (UInt8.ofNat i)) 3))] ++ List.replicate 5 (go none) ++
    [go (some (.read (fun _ => true) 2))] ++ List.replicate 5 (go none)

/-- Three bytes are written, and a read for two of them gets the first two. -/
theorem pipe_fifo_writeRead :
    ∃ σ, (pipeMonitor 1).run (pipeStart (fun _ => 0) fun _ => false) writeRead = some σ ∧
      (σ.data.copyFailed = false ∧ σ.data.put = [(0, 0), (0, 1), (0, 2)] ∧
        σ.data.got = [(1, 0), (1, 1)]) ∧
      σ.data.got.map Prod.snd ++ buffered σ.data.pipe = σ.data.put.map Prod.snd := by
  have hrun : (((pipeMonitor 1).run (pipeStart (fun _ => 0) fun _ => false) writeRead).any
      fun σ => σ.data.copyFailed = false ∧ σ.data.put = [(0, 0), (0, 1), (0, 2)] ∧
        σ.data.got = [(1, 0), (1, 1)]) = true := by
    decide +kernel
  obtain ⟨σ, hσ, hfacts⟩ := (Option.any_eq_true _ _).mp hrun
  have hfacts := of_decide_eq_true hfacts
  exact ⟨σ, hσ, hfacts, (pipe_fifo hσ hfacts.1).1⟩

end Xv6.Proofs
