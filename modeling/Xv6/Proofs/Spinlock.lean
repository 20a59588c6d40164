import Mathlib.Data.BitVec
import Mathlib.Logic.Relation
import Xv6.Kernel.Spinlock

/-!
# `Xv6.Proofs.Spinlock`: interrupts come back as they were

`noff` and `intena` belong to the CPU, but a thread that is switched away from takes `intena` along
in `sched`, and is switched to with `noff` at 1, where it left it. So `noff` is the depth of the
running thread and `intena` is what the thread found at its outermost `push_off` (`Nest`).

Both are kept modulo 2^32 only. At a depth of 2^31 `noff` is negative and `pop_off` panics, so a
thread that went so deep does not come back (`RightFor`).
-/

set_option autoImplicit false

namespace Xv6.Proofs

open Spin
open Function (update update_self update_of_ne)

variable {s s' : State} {p : Slot} {op : Op} {d : Nat} {e e' : Option Bool} {i old : Bool}

/-- The value `i` of `intena` is right for a thread at depth `d` that found `e` at the outermost
`push_off`. -/
def RightFor (d : Nat) (e : Option Bool) (i : Bool) : Prop :=
  (d ≠ 0 → d < 2 ^ 31 → ∀ b, e = some b → i = b) ∧ (2 ^ 32 < d → i = false)

theorem ofNat_eq_zero_iff : BitVec.ofNat 32 d = 0 ↔ d % 2 ^ 32 = 0 := by
  rw [← BitVec.toNat_inj, BitVec.toNat_ofNat]
  rfl

/-- `push_off` saves the state of the interrupts when it is the outermost. -/
theorem RightFor.push (h : RightFor d e i) (hoff : d ≠ 0 → old = false)
    (he : ∀ b, e' = some b → if d = 0 then b = old else e = some b) :
    RightFor (d + 1) e' (if BitVec.ofNat 32 d = 0 then old else i) := by
  rw [if_congr ofNat_eq_zero_iff rfl rfl]
  refine ⟨fun _ hlt b hb => ?_, fun hlt => ?_⟩
  · have hb' := he b hb
    by_cases hd : d = 0
    · rw [if_pos hd] at hb'
      rw [if_pos (by omega), hb']
    · rw [if_neg hd] at hb'
      rw [if_neg (by omega), h.1 hd (by omega) b hb']
  · split
    · exact hoff (by omega)
    · exact h.2 (by omega)

/-- A `pop_off` that does not panic. -/
theorem pos_of_not_slt (h : ¬ (BitVec.ofNat 32 d).slt 1 = true) :
    0 < d % 2 ^ 32 ∧ d % 2 ^ 32 < 2 ^ 31 := by
  rw [BitVec.slt, decide_eq_true_iff, BitVec.toInt_eq_toNat_cond, BitVec.toNat_ofNat] at h
  have hone : (1 : BitVec 32).toInt = 1 := rfl
  rw [hone] at h
  split at h <;> omega

theorem RightFor.pop (h : RightFor d e i) (hpos : 0 < d % 2 ^ 32 ∧ d % 2 ^ 32 < 2 ^ 31) :
    RightFor (d - 1) e i :=
  ⟨fun _ hlt => h.1 (by omega) (by omega), fun hlt => h.2 (by omega)⟩

/-! ### The invariant -/

structure Nest (s : State) : Prop where
  noff : s.cpu.noff = BitVec.ofNat 32 (s.depth s.cpu.proc)
  off : s.depth s.cpu.proc ≠ 0 → s.cpu.intr = false
  intena : RightFor (s.depth s.cpu.proc) (s.cpu.proc.bind s.entry) s.cpu.intena
  /-- the processes that do not run are in `sched` or before their start -/
  away : ∀ p, s.cpu.proc ≠ some p → BitVec.ofNat 32 (s.depth (some p)) = 1 ∧
    ∀ now, RightFor (s.depth (some p)) (s.entry p) ((s.context p).intena now)

/-- The scheduler is between its `acquire` and its `release` when a process runs. -/
structure Nested (s : State) : Prop extends Nest s where
  holds : s.pc.holds = true → s.depth none = 1
  running : s.cpu.proc ≠ none → s.pc.holds = true

/-- What is asked of the scheduler, and of a process before its start. -/
theorem rightFor_none (hd : d ≤ 2 ^ 32) : RightFor d none i :=
  ⟨fun _ _ b hb => (by cases hb), fun hlt => by omega⟩

theorem nested_start (intr : Bool) : Nested (start intr) where
  noff := rfl
  off h := absurd rfl h
  intena := rightFor_none (Nat.zero_le _)
  away p _ := ⟨rfl, fun now => rightFor_none (Nat.one_le_two_pow)⟩
  holds h := by cases h
  running h := absurd rfl h

/-- `push_off` turns the interrupts off and counts one level more. -/
theorem Nest.push (h : Nest s) : Nest (push_off s) where
  noff := by
    simp only [push_off, update_self, h.noff, BitVec.ofNat_add]
    rfl
  off _ := rfl
  intena := by
    simp only [push_off, update_self, h.noff]
    refine h.intena.push h.off fun b hb => ?_
    cases hp : s.cpu.proc with
    | none => rw [hp] at hb; cases hb
    | some p =>
      rw [hp] at hb
      simp only [Option.bind_some, true_and] at hb
      split at hb
      · rw [if_pos ‹_›]
        exact (Option.some.inj hb).symm
      · rw [if_neg ‹_›]
        exact hb
  away p hp := by
    have hp' : s.cpu.proc ≠ some p := hp
    simp only [push_off, update_of_ne hp'.symm, hp', false_and, if_false]
    exact h.away p hp

/-- The state after a `pop_off`. -/
def popped (s : State) : State :=
  { s with
    cpu := { s.cpu with
      noff := s.cpu.noff - 1, intr := decide (s.cpu.noff - 1 = 0) && s.cpu.intena }
    depth := update s.depth s.cpu.proc (s.depth s.cpu.proc - 1) }

/-- `pop_off` counts one level less, and restores the interrupts when none is left. -/
theorem Nest.pop (h : Nest s) (hslt : ¬ s.cpu.noff.slt 1 = true) : Nest (popped s) := by
  rw [h.noff] at hslt
  have hpos := pos_of_not_slt hslt
  have hpred : s.cpu.noff - 1 = BitVec.ofNat 32 (s.depth s.cpu.proc - 1) := by
    rw [h.noff, ← BitVec.toNat_inj, BitVec.toNat_sub, BitVec.toNat_ofNat, BitVec.toNat_ofNat]
    have hone : (1 : BitVec 32).toNat = 1 := rfl
    omega
  refine ⟨?_, fun hd => ?_, ?_, fun p hp => ?_⟩ <;> dsimp only [popped] at *
  · rw [update_self, hpred]
  · rw [update_self] at hd
    by_cases hzero : s.cpu.noff - 1 = 0
    · -- a depth of 2^32 + 1: the `push_off` after the overflow has found interrupts off
      rw [hpred, ofNat_eq_zero_iff] at hzero
      rw [h.intena.2 (by omega), Bool.and_false]
    · rw [decide_eq_false hzero, Bool.false_and]
  · rw [update_self]
    exact h.intena.pop hpos
  · rw [update_of_ne (Ne.symm hp)]
    exact h.away p hp

/-! ### What a step can do -/

inductive Moved (s : State) : Op → State → Prop
  | push {op : Op} (l : Lock → Spinlock) : Moved s op { push_off s with lock := l }
  | pop {op : Op} (l : Lock → Spinlock) (hslt : ¬ s.cpu.noff.slt 1 = true) :
    Moved s op { popped s with lock := l }
  | set {op : Op} (intr : Bool) (st : Slot → ProcState)
      (h : intr = true → s.cpu.intr = true ∨ s.depth s.cpu.proc = 0) :
    Moved s op { s with cpu := { s.cpu with intr := intr }, state := st }
  | alloc (p : Slot) (st : Slot → ProcState) (hp : s.cpu.proc ≠ some p) :
    Moved s (.allocproc p) { s with
      state := st, context := update s.context p .forkret
      depth := update s.depth (some p) 1, entry := update s.entry p none }
  | sched {op : Op} (p : Slot) (hp : s.cpu.proc = some p) (hnoff : s.cpu.noff = 1)
      (hintr : s.cpu.intr = false) :
    Moved s op { s with
      context := update s.context p (.sched s.cpu.intena), cpu := { s.cpu with proc := none } }

theorem acquire_moved {lk : Lock} (h : acquire lk s = some s') :
    ∃ l, s' = { push_off s with lock := l } := by
  unfold acquire at h
  dsimp only at h
  split at h
  · cases h
  · exact ⟨_, (Option.some.inj h).symm⟩

theorem pop_off_moved {l : Lock → Spinlock} (h : pop_off { s with lock := l } = some s') :
    ¬ s.cpu.noff.slt 1 = true ∧ s' = { popped s with lock := l } := by
  unfold pop_off at h
  split at h
  · cases h
  · exact ⟨(not_or.mp ‹_›).2, (Option.some.inj h).symm⟩

theorem release_moved {lk : Lock} (h : release lk s = some s') :
    ∃ l, ¬ s.cpu.noff.slt 1 = true ∧ s' = { popped s with lock := l } := by
  unfold release at h
  split at h
  · exact ⟨_, pop_off_moved h⟩
  · cases h

theorem sched_moved (h : sched s = some s') : Moved s op s' := by
  unfold sched at h
  split at h
  · cases h
  · split at h
    · rename_i p hp hguard
      cases h
      exact .sched p hp hguard.2.1 hguard.2.2.2
    · cases h

/-- Every step of a thread is one of the moves. -/
theorem threadStep_moved (h : threadStep s op = some s') : Moved s op s' := by
  cases op with
  | push_off => exact Option.some.inj h ▸ .push s.lock
  | pop_off =>
    obtain ⟨hslt, rfl⟩ := pop_off_moved (l := s.lock) h
    exact .pop _ hslt
  | acquire lk =>
    obtain ⟨l, rfl⟩ := acquire_moved h
    exact .push l
  | release lk =>
    obtain ⟨l, hslt, rfl⟩ := release_moved h
    exact .pop l hslt
  | intrOn =>
    simp only [threadStep] at h
    split at h
    · exact Option.some.inj h ▸ .set true s.state fun _ => .inr ‹_›
    · cases h
  | intrOff => exact Option.some.inj h ▸ .set false s.state fun hon => absurd hon (by decide)
  | setState p st =>
    cases h
    exact .set s.cpu.intr _ .inl
  | allocproc p =>
    simp only [threadStep] at h
    split at h
    · cases h
    · exact Option.some.inj h ▸ .alloc p _ ‹_›
  | sched => exact sched_moved h
  | scheduler => cases h

/-- Every move keeps the count with the depth of the thread that runs. -/
theorem Moved.nest (hm : Moved s op s') (h : Nest s)
    (hsched : s.cpu.proc ≠ none → s.depth none = 1) : Nest s' := by
  cases hm with
  | push l => exact ⟨h.push.noff, h.push.off, h.push.intena, h.push.away⟩
  | pop l hslt =>
    have hpop := h.pop hslt
    exact ⟨hpop.noff, hpop.off, hpop.intena, hpop.away⟩
  | set intr st hon =>
    refine ⟨h.noff, fun hd => Bool.eq_false_iff.mpr fun heq => ?_, h.intena, h.away⟩
    rcases hon heq with hintr | hzero
    · rw [h.off hd] at hintr
      cases hintr
    · exact hd hzero
  | alloc p st hp =>
    refine ⟨?_, fun hd => ?_, ?_, fun q hq => ?_⟩ <;> dsimp only at *
    · rw [update_of_ne hp, h.noff]
    · rw [update_of_ne hp] at hd
      exact h.off hd
    · rw [update_of_ne hp]
      refine ⟨fun h0 hlt b hb => h.intena.1 h0 hlt b ?_, h.intena.2⟩
      cases hproc : s.cpu.proc with
      | none => rw [hproc] at hb; cases hb
      | some r =>
        have hrp : r ≠ p := fun heq => hp (hproc.trans (congrArg some heq))
        rw [hproc, Option.bind_some, update_of_ne hrp] at hb
        exact hb
    · by_cases hqp : q = p
      · rw [hqp, update_self, update_self, update_self]
        exact ⟨rfl, fun now => rightFor_none Nat.one_le_two_pow⟩
      · rw [update_of_ne fun heq => hqp (Option.some.inj heq), update_of_ne hqp, update_of_ne hqp]
        exact h.away q hq
  | sched p hp hnoff hintr =>
    have hone := hsched (hp ▸ Option.some_ne_none p)
    refine ⟨?_, fun _ => hintr, ?_, fun q _ => ?_⟩ <;> dsimp only at *
    · rw [hone, hnoff]
      rfl
    · rw [hone]
      exact rightFor_none Nat.one_le_two_pow
    · by_cases hqp : q = p
      · rw [hqp, update_self, ← hnoff, h.noff, hp]
        refine ⟨rfl, fun now => ?_⟩
        have hintena := h.intena
        rw [hp] at hintena
        exact hintena
      · rw [update_of_ne hqp]
        exact h.away q fun heq => hqp (Option.some.inj (heq.symm.trans hp))

/-- A step of a thread leaves the scheduler alone. -/
theorem Moved.frame (hm : Moved s op s') : s'.pc = s.pc ∧
    (s.cpu.proc ≠ none → s'.depth none = s.depth none) ∧
    (s'.cpu.proc ≠ none → s.cpu.proc ≠ none) := by
  cases hm with
  | push l | pop l => exact ⟨rfl, fun hp => update_of_ne (Ne.symm hp) _ _, id⟩
  | set => exact ⟨rfl, fun _ => rfl, id⟩
  | alloc p => exact ⟨rfl, fun _ => update_of_ne (Option.some_ne_none p).symm 1 _, id⟩
  | sched => exact ⟨rfl, fun _ => rfl, fun hp => absurd rfl hp⟩

/-- What a step does to the depth of process `p`. -/
inductive Effect (p : Slot) (op : Op) (s s' : State) : Prop
  | same (hd : s'.depth (some p) = s.depth (some p)) (he : s'.entry p = s.entry p)
  | push (hd : s'.depth (some p) = s.depth (some p) + 1)
      (he : s'.entry p = if s.depth (some p) = 0 then some s.cpu.intr else s.entry p)
  | pop (hp : s.cpu.proc = some p) (hd : s'.depth (some p) = s.depth (some p) - 1)
      (he : s'.entry p = s.entry p)
      (hintr : s'.cpu.intr = (decide (s.cpu.noff - 1 = 0) && s.cpu.intena))
  | alloc (hop : op = .allocproc p) (hp : s.cpu.proc ≠ some p) (hd : s'.depth (some p) = 1)

/-- What a move does to the depth of one process. -/
theorem Moved.effect (hm : Moved s op s') : Effect p op s s' := by
  cases hm with
  | push l =>
    by_cases hp : s.cpu.proc = some p
    · refine .push ?_ ?_ <;> simp [push_off, hp]
    · refine .same ?_ ?_ <;> simp [push_off, hp, update_of_ne (Ne.symm hp)]
  | pop l =>
    by_cases hp : s.cpu.proc = some p
    · exact .pop hp (by simp [popped, hp]) rfl rfl
    · exact .same (update_of_ne (Ne.symm hp) _ _) rfl
  | set | sched => exact .same rfl rfl
  | alloc q _ hq =>
    by_cases hpq : p = q
    · subst hpq
      exact .alloc rfl hq (update_self _ 1 _)
    · have hne : some p ≠ some q := fun heq => hpq (Option.some.inj heq)
      exact .same (update_of_ne hne 1 _) (update_of_ne hpq none s.entry)

/-- The scheduler leaves the depths of the processes alone. -/
theorem scheduler_nested (h : Nested s) (hnone : s.cpu.proc = none) (hs : scheduler s = some s') :
    Nested s' ∧ s'.entry = s.entry ∧ ∀ p, s'.depth (some p) = s.depth (some p) := by
  unfold scheduler at hs
  split at hs
  · rename_i hpc
    split at hs
    · rename_i hd
      cases hs
      rw [← hnone] at hd
      have hm : Moved s .intrOn _ := .set true s.state fun _ => .inr hd
      have hset := hm.nest h.toNest fun hp => absurd hnone hp
      exact ⟨⟨⟨hset.noff, hset.off, hset.intena, hset.away⟩, fun hh => (by cases hh),
        fun hp => absurd hnone hp⟩, rfl, fun _ => rfl⟩
    · cases hs
  · rename_i p hpc
    split at hs
    · rename_i hd
      obtain ⟨r, hr, rfl⟩ := Option.map_eq_some_iff.mp hs
      obtain ⟨l, rfl⟩ := acquire_moved hr
      have hpush := h.toNest.push
      have hnest : Nest { push_off s with lock := l, pc := .test p } :=
        ⟨hpush.noff, hpush.off, hpush.intena, hpush.away⟩
      refine ⟨⟨hnest, fun _ => ?_, fun hp => absurd hnone hp⟩, ?_, fun q => ?_⟩
      · simp [push_off, hnone, hd]
      · simp [push_off, hnone]
      · simp [push_off, hnone]
    · cases hs
  · rename_i p hpc
    have hone := h.holds (by rw [hpc]; rfl)
    split at hs
    · cases hs
      have haway := h.away p (hnone ▸ (Option.some_ne_none p).symm)
      refine ⟨⟨⟨?_, fun _ => ?_, ?_, fun q hq => ?_⟩, fun _ => hone, fun _ => rfl⟩, rfl,
        fun _ => rfl⟩ <;> dsimp only [resume] at *
      · rw [h.noff, hnone, hone, haway.1]
        rfl
      · exact h.off (by rw [hnone, hone]; decide)
      · exact haway.2 _
      · exact h.away q (hnone ▸ (Option.some_ne_none q).symm)
    · cases hs
      exact ⟨⟨⟨h.noff, h.off, h.intena, h.away⟩, fun _ => hone, fun hp => absurd hnone hp⟩, rfl,
        fun _ => rfl⟩
  · rename_i p hpc
    obtain ⟨r, hr, rfl⟩ := Option.map_eq_some_iff.mp hs
    obtain ⟨l, hslt, rfl⟩ := release_moved hr
    have hpop := h.toNest.pop hslt
    refine ⟨⟨⟨hpop.noff, hpop.off, hpop.intena, hpop.away⟩, fun hh => ?_,
      fun hp => absurd hnone hp⟩, rfl, fun q => ?_⟩
    · dsimp only at hh
      split at hh <;> cases hh
    · simp [popped, hnone]

/-- The scheduler does a step of its own, or a thread does one while the scheduler is outside its
lock or waits for the process. -/
theorem step_moved (h : step s op = some s') : s.cpu.proc = none ∧ scheduler s = some s' ∨
    Moved s op s' ∧ (s.pc.holds = true → s.cpu.proc ≠ none) := by
  unfold step at h
  split at h
  · exact .inl ⟨‹_›, h⟩
  · split at h
    · cases h
    · exact .inr ⟨threadStep_moved h, fun hh => absurd hh ‹_›⟩
  · rename_i hp
    exact .inr ⟨threadStep_moved h, fun _ => hp ▸ Option.some_ne_none _⟩

/-- Every step keeps the invariant. -/
theorem step_nested (h : Nested s) (hs : step s op = some s') : Nested s' := by
  rcases step_moved hs with ⟨hnone, hs⟩ | ⟨hm, hfree⟩
  · exact (scheduler_nested h hnone hs).1
  · obtain ⟨hpc, hdepth, hproc⟩ := hm.frame
    refine ⟨hm.nest h.toNest fun hp => h.holds (h.running hp), fun hh => ?_, fun hp => ?_⟩
    · rw [hpc] at hh
      rw [hdepth (hfree hh), h.holds hh]
    · rw [hpc]
      exact h.running (hproc hp)

theorem step_effect (h : Nested s) (hs : step s op = some s') : Effect p op s s' := by
  rcases step_moved hs with ⟨hnone, hs⟩ | ⟨hm, -⟩
  · obtain ⟨-, hentry, hdepth⟩ := scheduler_nested h hnone hs
    exact .same (hdepth p) (congrFun hentry p)
  · exact hm.effect

/-! ### Whole runs -/

/-- The states of one CPU, from the start of `scheduler` on. -/
def Reached (s : State) : Prop :=
  ∃ intr, Relation.ReflTransGen (fun s s' => ∃ op, step s op = some s') (start intr) s

theorem Reached.nested (h : Reached s) : Nested s := by
  obtain ⟨intr, hrun⟩ := h
  induction hrun with
  | refl => exact nested_start intr
  | tail _ hstep ih => exact step_nested ih hstep.choose_spec

/-- A step after which process `p`, if it is still the same one, has a `push_off` to undo. -/
def Within (p : Slot) (s s' : State) : Prop :=
  ∃ op, op ≠ .allocproc p ∧ step s op = some s' ∧ s'.depth (some p) ≠ 0

/-- Inside a critical section the state of the interrupts at its start stays recorded. -/
theorem within_entry (h : Nested s) (hd : s.depth (some p) ≠ 0)
    (hrun : Relation.ReflTransGen (Within p) s s') :
    Nested s' ∧ s'.depth (some p) ≠ 0 ∧ s'.entry p = s.entry p := by
  induction hrun with
  | refl => exact ⟨h, hd, rfl⟩
  | tail _ hstep ih =>
    obtain ⟨op, hop, hs, hd'⟩ := hstep
    refine ⟨step_nested ih.1 hs, hd', .trans ?_ ih.2.2⟩
    cases step_effect ih.1 hs with
    | same _ he | pop _ _ he => exact he
    | push _ he => rw [he, if_neg ih.2.1]
    | alloc heq => exact absurd heq hop

/-- Interrupts are off while `noff` is positive. A process that undoes its outermost `push_off`
finds them as they were before it, whatever ran in between. -/
theorem interrupt_nesting {s₁ s₂ : State} {op' : Op} (hs : Reached s) :
    (0 < s.cpu.noff.toInt → s.cpu.intr = false) ∧
    (s.cpu.proc = some p → s.depth (some p) = 0 →
      step s op = some s₁ → s₁.depth (some p) = 1 →
      Relation.ReflTransGen (Within p) s₁ s₂ →
      step s₂ op' = some s' → s'.depth (some p) = 0 →
      s'.cpu.intr = s.cpu.intr) := by
  have h := hs.nested
  refine ⟨fun hpos => h.off fun hzero => ?_, fun hp hzero hpush hone hrun hpop hback => ?_⟩
  · rw [h.noff, hzero] at hpos
    exact absurd hpos (by decide)
  have hentry : s₁.entry p = some s.cpu.intr := by
    cases step_effect h hpush with
    | push _ he => rw [he, if_pos hzero]
    | same hd | pop _ hd => omega
    | alloc _ hne => exact absurd hp hne
  obtain ⟨h₂, hd, hkept⟩ := within_entry (step_nested h hpush) (by omega) hrun
  cases step_effect (p := p) h₂ hpop with
  | same hd' | push hd' | alloc _ _ hd' => omega
  | pop hp' hd' _ hintr =>
    have hone : s₂.depth s₂.cpu.proc = 1 := by rw [hp']; omega
    have hintena := h₂.intena.1 (by omega) (by omega) s.cpu.intr (by
      rw [hp', Option.bind_some, hkept, hentry])
    rw [hintr, h₂.noff, hone, hintena]
    rfl

/-- Some steps, after each of which `p` has a `push_off` to undo. -/
def runWithin (p : Slot) : List Op → State → Option State
  | [], s => some s
  | op :: ops, s =>
    (step s op).bind fun s' => if s'.depth (some p) = 0 then none else runWithin p ops s'

/-- The steps of a run inside a critical section, one by one. -/
theorem within_of_runWithin (ops : List Op) : ∀ {s}, runWithin p ops s = some s' →
    (∀ op ∈ ops, op ≠ .allocproc p) → Relation.ReflTransGen (Within p) s s' := by
  induction ops with
  | nil =>
    rintro s ⟨⟩ -
    exact .refl
  | cons op ops ih =>
    intro s hrun hops
    obtain ⟨s₁, hstep, hrun⟩ := Option.bind_eq_some_iff.mp hrun
    split at hrun
    · cases hrun
    · rename_i hd
      exact .head ⟨op, hops op List.mem_cons_self, hstep, hd⟩
        (ih hrun fun op' hop' => hops op' (List.mem_cons_of_mem _ hop'))

/-- The first process takes its lock and gives up the CPU. The second one runs, takes its lock and
gives up the CPU as well, and the scheduler goes through all slots before it finds the first one
again, which then releases its lock. -/
theorem interrupt_nesting_other_runs : ∃ s s₁ t s₂ s', Reached s ∧
    s.cpu.proc = some initproc ∧ s.cpu.intr = true ∧
    step s (.acquire (.proc initproc)) = some s₁ ∧
    Relation.ReflTransGen (Within initproc) s₁ t ∧ t.cpu.proc = some initproc.next ∧
    Relation.ReflTransGen (Within initproc) t s₂ ∧
    step s₂ (.release (.proc initproc)) = some s' ∧ s'.cpu.intr = s.cpu.intr := by
  obtain ⟨s, hs, hp, hd, hon, s₁, hpush, hone, hcheck⟩ : ∃ s, Reached s ∧
      s.cpu.proc = some initproc ∧ s.depth (some initproc) = 0 ∧ s.cpu.intr = true ∧
      ∃ s₁, step s (.acquire (.proc initproc)) = some s₁ ∧ s₁.depth (some initproc) = 1 ∧
      ((runWithin initproc [.setState initproc .runnable, .sched, .scheduler, .scheduler,
          .scheduler] s₁).any fun t => t.cpu.proc == some initproc.next &&
        (runWithin initproc ([.release (.proc initproc.next), .acquire (.proc initproc.next),
          .setState initproc.next .sleeping, .sched] ++ List.replicate 94 .scheduler) t).any
          fun s₂ => (step s₂ (.release (.proc initproc))).any
            fun s' => s'.depth (some initproc) == 0) = true := by
    have hup : Relation.ReflTransGen (fun s s' => ∃ op, step s op = some s') (start true) _ :=
      (((((Relation.ReflTransGen.single ⟨.scheduler, rfl⟩).tail
        ⟨.setState initproc .runnable, rfl⟩).tail ⟨.setState initproc.next .runnable, rfl⟩
        ).tail ⟨.scheduler, rfl⟩).tail ⟨.scheduler, rfl⟩).tail ⟨.release (.proc initproc), rfl⟩
    exact ⟨_, ⟨true, hup⟩, rfl, rfl, rfl, _, rfl, rfl, by decide +kernel⟩
  simp only [Option.any_eq_true, Bool.and_eq_true, beq_iff_eq] at hcheck
  obtain ⟨t, hfirst, ht, s₂, hsecond, s', hpop, hback⟩ := hcheck
  have hbefore := within_of_runWithin _ hfirst (by simp)
  have hafter := within_of_runWithin _ hsecond (by simp)
  exact ⟨s, s₁, t, s₂, s', hs, hp, hon, hpush, hbefore, ht, hafter, hpop,
    (interrupt_nesting hs).2 hp hd hpush hone (hbefore.trans hafter) hpop hback⟩

end Xv6.Proofs
