import Xv6.Kernel.LogSleep
import Xv6.Proofs.Log.Ops
import Mathlib.Algebra.BigOperators.Group.Finset.Piecewise
import Mathlib.Algebra.Order.BigOperators.Group.Finset
import Mathlib.Data.Fintype.Basic
import Mathlib.Tactic.Abel

/-!
# `Xv6.Proofs.Log.Progress`: nobody waits for the log without a reason

`LogInv` relates `struct log` to the processes at it: `outstanding` counts the operations, and
`committing` is set exactly while one process is in `commit`. From it `end_op` never finds
`committing` set, and between transactions the log is empty.

`begin_op` sleeps while a commit is running or the room is reserved. `log_patient` says that
every section that can make the test true wakes the sleepers: an operation that ends, and the
end of a commit. `commit` also resets `lh.n` without the lock, but only while `committing` is
set. So `Lib.Monitor.Patient.run` gives that a process asleep on `&log` could not be admitted.
-/

set_option autoImplicit false

namespace Xv6.Proofs

open Lib
open Function (update update_of_ne update_self)

/-! ### Counting operations -/

/-- The process is between `begin_op` and `end_op`. -/
def opWeight : LogPlace → Int
  | .active | .logWrite _ | .endOp => 1
  | _ => 0

/-- The process is in the part of `end_op` that commits. -/
def inCommit : LogPlace → Bool
  | .commit | .committed => true
  | _ => false

theorem opWeight_nonneg (l : LogPlace) : 0 ≤ opWeight l := by
  cases l <;> simp [opWeight]

/-- The number of operations that have begun and not ended. -/
def opsIn {n : Nat} (ls : Fin n → LogPlace) : Int := ∑ p, opWeight (ls p)

/-- One process moves, and the number of operations changes by its weight. -/
theorem opsIn_update {n : Nat} (ls : Fin n → LogPlace) (p : Fin n) (l : LogPlace) :
    opsIn (update ls p l) = opsIn ls - opWeight (ls p) + opWeight l := by
  have hcomp : (fun q => opWeight (update ls p l q))
      = update (fun q => opWeight (ls q)) p (opWeight l) := Function.comp_update opWeight ls p l
  have hself : (fun q => opWeight (ls q))
      = update (fun q => opWeight (ls q)) p (opWeight (ls p)) := by simp
  unfold opsIn
  rw [hcomp, Finset.sum_update_of_mem (Finset.mem_univ p)]
  conv_rhs => rw [hself, Finset.sum_update_of_mem (Finset.mem_univ p)]
  abel

theorem opWeight_le_opsIn {n : Nat} (ls : Fin n → LogPlace) (p : Fin n) :
    opWeight (ls p) ≤ opsIn ls :=
  Finset.single_le_sum (f := fun q => opWeight (ls q)) (fun _ _ => opWeight_nonneg _)
    (Finset.mem_univ p)

/-! ### The invariant -/

/-- `struct log` and the processes at it. -/
structure LogInv {n : Nat} (log : Log) (ls : Fin n → LogPlace) : Prop where
  outstanding : log.outstanding = opsIn ls
  commits : ∀ p, inCommit (ls p) = true → log.committing = true
  unique : ∀ p q, inCommit (ls p) = true → inCommit (ls q) = true → p = q
  committing : log.committing = true → log.outstanding = 0
  committed : ∀ p, ls p = .committed → log.lh.n = 0
  nonneg : 0 ≤ log.lh.n
  clean : log.outstanding = 0 → log.committing = false → log.lh.n = 0

section Inv

variable {n : Nat} {log : Log} {ls : Fin n → LogPlace} {p : Fin n}

/-- An operation is counted, so no commit is running. -/
theorem LogInv.outstanding_pos (h : LogInv log ls) (hp : opWeight (ls p) = 1) :
    0 < log.outstanding := by
  have hle := opWeight_le_opsIn ls p
  rw [← h.outstanding, hp] at hle
  omega

theorem LogInv.not_committing (h : LogInv log ls) (hp : opWeight (ls p) = 1) :
    log.committing = false := by
  have hpos := h.outstanding_pos hp
  by_contra hc
  have := h.committing (by simpa using hc)
  omega

/-- While no commit is running, no process is in `commit`. -/
theorem LogInv.no_committer (h : LogInv log ls) (hc : log.committing = false) (q : Fin n) :
    inCommit (ls q) = false := by
  by_contra hq
  have := h.commits q (by simpa using hq)
  rw [hc] at this
  cases this

/-- A step that leaves the log alone. -/
theorem LogInv.place (h : LogInv log ls) {l : LogPlace} (hw : opWeight l = opWeight (ls p))
    (hl : inCommit l = false) : LogInv log (update ls p l) := by
  obtain ⟨hout, hcommits, hunique, hcommitting, hcommitted, hn, hclean⟩ := h
  constructor <;> grind [opsIn_update, inCommit]

/-- A step inside an operation or at its ends, while no commit is running. -/
theorem LogInv.atLock (h : LogInv log ls) {log' : Log} {l : LogPlace}
    (hc : log.committing = false) (hl : inCommit l = log'.committing)
    (hout : log'.outstanding = log.outstanding - opWeight (ls p) + opWeight l)
    (hcommitting : log'.committing = true → log'.outstanding = 0 ∧ l = .commit)
    (hn : 0 ≤ log'.lh.n)
    (hclean : log'.outstanding = 0 → log'.committing = false → log'.lh.n = 0) :
    LogInv log' (update ls p l) := by
  have hnone := h.no_committer hc
  have hops := h.outstanding
  constructor <;> grind [opsIn_update, inCommit]

end Inv

/-! ### The steps -/

/-- What happens outside the lock keeps the invariant. -/
theorem logInv_outside {n : Nat} {log : Log} {ls : Fin n → LogPlace} {p : Fin n} {k : LogCall}
    {r : Log × LogPlace} (h : LogInv log ls) (hr : Log.outside k (ls p) log = some r) :
    LogInv r.1 (update ls p r.2) := by
  cases hl : ls p <;> cases k <;> rw [hl] at hr <;> cases hr
  case commit.commit =>
    have hc : log.committing = true := h.commits p (by rw [hl]; rfl)
    have hn : log.commitDone.lh.n = 0 := by
      have := h.nonneg
      unfold Log.commitDone
      split
      · rfl
      · omega
    have hsame : log.commitDone.outstanding = log.outstanding ∧
        log.commitDone.committing = log.committing := by
      unfold Log.commitDone
      split <;> exact ⟨rfl, rfl⟩
    have hsum : opsIn (update ls p .committed) = opsIn ls := by
      rw [opsIn_update, hl]
      simp [opWeight]
    obtain ⟨hops, hcommits, hunique, hcommitting, -, -, -⟩ := h
    constructor <;> grind [inCommit]
  all_goals exact h.place (by rw [hl]; rfl) rfl

/-- What a critical section can do. -/
theorem logBody_cases {l : LogPlace} {log : Log} {r : Section Log LogPlace Unit}
    (h : Log.body l log = some r) :
    (l = .beginOp ∧ log.beginOp = none ∧
      r = { data := log, wakes := none, after := .sleep () .beginOp }) ∨
    (∃ log', l = .beginOp ∧ log.beginOp = some log' ∧
      r = { data := log', wakes := none, after := .leave .active }) ∨
    (∃ b log' added, l = .logWrite b ∧ log.logWrite b = .ok (log', added) ∧
      r = { data := log', wakes := none, after := .leave .active }) ∨
    (∃ log', l = .endOp ∧ log.endOp = .ok (log', true) ∧
      r = { data := log', wakes := none, after := .leave .commit }) ∨
    (∃ log', l = .endOp ∧ log.endOp = .ok (log', false) ∧
      r = { data := log', wakes := some (), after := .leave .idle }) ∨
    (l = .committed ∧
      r = { data := log.endCommit, wakes := some (), after := .leave .idle }) := by
  cases l with
  | beginOp => cases hb : log.beginOp <;> grind [Log.body]
  | logWrite b => rcases hb : log.logWrite b with e | ⟨log', added⟩ <;> grind [Log.body]
  | endOp => rcases hb : log.endOp with e | ⟨log', _ | _⟩ <;> grind [Log.body]
  | _ => grind [Log.body]

/-- The critical sections keep the invariant. -/
theorem logInv_body {n : Nat} {log : Log} {ls : Fin n → LogPlace} {p : Fin n}
    {r : Section Log LogPlace Unit} (h : LogInv log ls) (hr : Log.body (ls p) log = some r) :
    LogInv r.data (update ls p r.after.loc) := by
  have hops : 0 ≤ log.outstanding :=
    h.outstanding ▸ Finset.sum_nonneg fun _ _ => opWeight_nonneg _
  rcases logBody_cases hr with ⟨hl, -, rfl⟩ | ⟨log', hl, hb, rfl⟩ | ⟨b, log', added, hl, hb, rfl⟩ |
    ⟨log', hl, hb, rfl⟩ | ⟨log', hl, hb, rfl⟩ | ⟨hl, rfl⟩
  · exact h.place (by rw [hl]; rfl) rfl
  · obtain ⟨hc, -, rfl⟩ := beginOp_some hb
    refine h.atLock hc hc.symm ?_ ?_ h.nonneg ?_
    · rw [hl]
      simp [opWeight, After.loc]
    · exact fun hc' => absurd hc' (by simp [hc])
    · exact fun hout _ => absurd hout (by simp only; omega)
  · -- the operation stays outstanding, so nothing is asked of `lh.n`
    have hw : opWeight (ls p) = 1 := by rw [hl]; rfl
    have hpos := h.outstanding_pos hw
    have hc := h.not_committing hw
    obtain ⟨-, ⟨-, -, rfl⟩ | ⟨-, -, rfl⟩⟩ := logWrite_ok hb h.nonneg
    · exact h.place (by rw [hl]; rfl) rfl
    · refine h.atLock hc hc.symm ?_ ?_ ?_ ?_
      · rw [hl]
        simp [opWeight, After.loc]
      · exact fun hc' => absurd hc' (by simp [hc])
      · have := h.nonneg
        simp only
        omega
      · exact fun hout _ => absurd hout (by simp only; omega)
  · obtain ⟨hc, hdone, rfl⟩ := endOp_ok hb
    have hzero : log.outstanding - 1 = 0 := by simpa using hdone.symm
    refine h.atLock hc rfl ?_ (fun _ => ⟨hzero, rfl⟩) h.nonneg nofun
    rw [hl]
    simp [opWeight, After.loc]
  · obtain ⟨hc, hdone, rfl⟩ := endOp_ok hb
    have hne : log.outstanding - 1 ≠ 0 := by simpa using hdone.symm
    refine h.atLock hc rfl ?_ nofun h.nonneg fun hout => absurd hout hne
    rw [hl]
    simp [opWeight, After.loc]
  · -- the only process in `commit` leaves it, with an empty log
    have hself : inCommit (ls p) = true := by rw [hl]; rfl
    have hsum : opsIn (update ls p .idle) = opsIn ls := by
      rw [opsIn_update, hl]
      simp [opWeight]
    obtain ⟨hops, hcommits, hunique, hcommitting, hcommitted, hn, hclean⟩ := h
    constructor <;> grind [inCommit, After.loc, Log.endCommit]

theorem logInv_keeps (n : Nat) : Monitor.Keeps (logMonitor n) LogInv where
  outside := logInv_outside
  body := logInv_body
  kill _ h := h

/-- The invariant holds after `initlog`. -/
theorem logInv_start (n dev : Nat) (sb : LogLayout) (block : Nat → Nat) :
    LogInv (Log.afterInit dev sb block) fun _ : Fin n => .idle where
  outstanding := by simp [Log.afterInit, opsIn, opWeight]
  commits := nofun
  unique := nofun
  committing := nofun
  committed := nofun
  nonneg := Int.le_refl _
  clean := fun _ _ => rfl

/-! ### Sleepers -/

/-- A process has to wait in `begin_op`. -/
def LogWaits (log : Log) : Prop := log.beginOp = none

theorem logWaits_iff (log : Log) :
    LogWaits log ↔
      ¬ (log.committing = false ∧
        log.lh.n + (log.outstanding + 1) * MAXOPBLOCKS ≤ LOGSIZE) := by
  unfold LogWaits Log.beginOp
  by_cases hc : log.committing = true
  · simp [hc]
  · by_cases hn : log.lh.n + (log.outstanding + 1) * MAXOPBLOCKS > LOGSIZE
    · simp [hc, hn]
    · simp [hc, hn, Int.not_lt.mp hn]

/-- A section that does not wake up `&log` makes the test of `begin_op` no easier. -/
theorem log_patient (n : Nat) :
    Monitor.Patient (logMonitor n) LogInv fun _ log => LogWaits log where
  kill _ _ hw := hw
  outside := by
    intro log ls p k r _ h hr hw
    simp only [logMonitor] at hr
    cases hl : ls p <;> cases k <;> rw [hl] at hr <;> cases hr
    case commit.commit =>
      -- `lh.n` is reset while `committing` is set
      have hc : log.committing = true := h.commits p (by rw [hl]; rfl)
      rw [logWaits_iff]
      rintro ⟨hc', -⟩
      revert hc'
      unfold Log.commitDone
      split <;> simp [Log.setN, hc]
    all_goals exact hw
  wakes := by
    intro log ls p r _ h hr hwakes hw
    rcases logBody_cases hr with ⟨-, -, rfl⟩ | ⟨log', -, hb, rfl⟩ |
      ⟨b, log', added, -, hb, rfl⟩ | ⟨log', -, hb, rfl⟩ | ⟨log', -, hb, rfl⟩ | ⟨-, rfl⟩
    · exact hw
    · -- nobody can wait where an operation is admitted
      cases hb.symm.trans hw
    · obtain ⟨-, ⟨-, -, rfl⟩ | ⟨-, -, rfl⟩⟩ := logWrite_ok hb h.nonneg
      · exact hw
      · rw [logWaits_iff] at hw ⊢
        rintro ⟨hc, hroom⟩
        exact hw ⟨hc, by simp only at hroom; omega⟩
    · obtain ⟨-, -, rfl⟩ := endOp_ok hb
      rw [logWaits_iff]
      rintro ⟨hc, -⟩
      cases hc
    · exact absurd rfl hwakes
    · exact absurd rfl hwakes
  sleeps := by
    intro log ls p r _ l h hr hafter
    rcases logBody_cases hr with ⟨-, hb, rfl⟩ | ⟨log', -, hb, rfl⟩ |
      ⟨b, log', added, -, hb, rfl⟩ | ⟨log', -, hb, rfl⟩ | ⟨log', -, hb, rfl⟩ | ⟨-, rfl⟩
    · exact hb
    all_goals cases hafter

/-! ### The result -/

/-- The log makes progress. Whenever `log.lock` is free, a commit runs only with no operation
outstanding, the log is empty between transactions, and no process sleeps on `&log` that
`begin_op` would admit. So `begin_op` admits a process that finds neither an operation nor a
commit, and `end_op` never finds a commit running. -/
theorem log_progress {n dev : Nat} {sb : LogLayout} {block : Nat → Nat}
    {evs : List (Monitor.Event n LogCall)} {σ : Monitor.State n Log LogPlace Unit}
    (hrun : (logMonitor n).run (logStart n (Log.afterInit dev sb block)) evs = some σ) :
    (σ.owner .main = none →
      (σ.data.committing = true → σ.data.outstanding = 0) ∧
      (σ.data.outstanding = 0 → σ.data.committing = false → σ.data.lh.n = 0) ∧
      ∀ p, σ.asleep p = some () →
        ¬ (σ.data.committing = false ∧
          σ.data.lh.n + (σ.data.outstanding + 1) * MAXOPBLOCKS ≤ LOGSIZE)) ∧
    (∀ p, σ.pc p = .inside .beginOp → σ.data.outstanding = 0 → σ.data.committing = false →
      σ.data.beginOp = some { σ.data with outstanding := 1 }) ∧
    (∀ p, σ.pc p = .inside .endOp → ∀ e, σ.data.endOp ≠ .error e) := by
  have hinv : LogInv σ.data σ.loc :=
    (logInv_keeps n).run (logInv_start n dev sb block) hrun
  refine ⟨fun hfree => ⟨hinv.committing, hinv.clean, fun p hs => ?_⟩, ?_, ?_⟩
  · rw [← logWaits_iff]
    exact (log_patient n).run (logInv_keeps n) (logInv_start n dev sb block) hrun hfree hs
  · intro p _ hout hc
    have hn := hinv.clean hout hc
    simp [Log.beginOp, hc, hn, hout, MAXOPBLOCKS, LOGSIZE]
  · intro p hpc e
    have hw : opWeight (σ.loc p) = 1 := by
      rw [Monitor.State.loc, hpc]
      rfl
    have hc := hinv.not_committing hw
    unfold Log.endOp
    simp only [hc, Bool.false_eq_true, if_false]
    split <;> simp

/-- Process 0 ends its operation and is about to commit; process 1 calls `begin_op`. -/
def waitForCommit : List (Monitor.Event 2 LogCall) :=
  let go (p : Fin 2) (k : Nat) : List (Monitor.Event 2 LogCall) := List.replicate k (.step p none)
  [.step 0 (some .beginOp)] ++ go 0 3 ++ [.step 0 (some .endOp)] ++ go 0 3 ++
    [.step 1 (some .beginOp)] ++ go 1 6

/-- One process commits, and the other one sleeps in `begin_op`. -/
theorem log_progress_waitForCommit :
    ∃ σ, (logMonitor 2).run (logStart 2 (Log.afterInit ROOTDEV ⟨LOGSIZE, 2⟩ fun _ => 0))
        waitForCommit = some σ ∧
      (σ.owner .main = none ∧ σ.asleep 1 = some () ∧ σ.data.committing = true) ∧
      σ.data.outstanding = 0 ∧
      ¬ (σ.data.committing = false ∧
        σ.data.lh.n + (σ.data.outstanding + 1) * MAXOPBLOCKS ≤ LOGSIZE) := by
  have hrun : (((logMonitor 2).run (logStart 2 (Log.afterInit ROOTDEV ⟨LOGSIZE, 2⟩ fun _ => 0))
      waitForCommit).any fun σ =>
        σ.owner .main = none ∧ σ.asleep 1 = some () ∧ σ.data.committing = true) = true := by
    decide +kernel
  obtain ⟨σ, hσ, hfacts⟩ := (Option.any_eq_true _ _).mp hrun
  have hfacts := of_decide_eq_true hfacts
  obtain ⟨hout, -, hsleep⟩ := (log_progress hσ).1 hfacts.1
  exact ⟨σ, hσ, hfacts, hout hfacts.2.2, hsleep 1 hfacts.2.1⟩

end Xv6.Proofs
