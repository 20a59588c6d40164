import Xv6.Proofs.Proc.Run

/-!
# `Xv6.Proofs.Proc.LockOrder`: spinlocks are taken in one order

`wait_lock` comes before the locks of processes, of which a thread takes one at a time, and
`pid_lock` comes last.
-/

set_option autoImplicit false

namespace Xv6

def LockId.rank : LockId → Nat
  | .wait => 0
  | .proc _ => 1
  | .pid => 2

/-- The next step of a thread, apart from `swtch`. -/
def Machine.instr {n : Nat} (m : Machine n) (t : Thread n) (c : Choice n) : Option Instr :=
  match t with
  | .proc p => procInstr m.tab p c (m.pc t)
  | .cpu _ => cpuInstr m.tab c (m.pc t)

/-- Thread `t` is about to take lock `l`. -/
def Machine.Takes {n : Nat} (m : Machine n) (t : Thread n) (l : LockId) : Prop :=
  ∃ c next, m.instr t c = some (.acquire l next)

namespace Proofs

variable {n : Nat} {m : Machine n} {t : Thread n} {c : Choice n} {k l : LockId} {next pc : Pc}

theorem wakeInstr_rank {tab : Table} {self : Option Slot} (hk : k ∈ pcLocks self pc)
    (h : wakeInstr tab self pc = some (.acquire l next)) : k.rank < l.rank := by
  cases pc <;> simp only [wakeInstr, reduceCtorEq, Option.some.injEq] at h
  case wake j chan cont =>
    split at h <;> (try split at h) <;> cases h
    cases cont <;> simp_all [pcLocks, contLocks, LockId.rank]

/-- Every thread takes its locks in ascending order. -/
theorem instr_rank (h : m.instr t c = some (.acquire l next)) (hk : Holds m.pc t k) :
    k.rank < l.rank := by
  unfold Holds at hk
  cases t with
  | proc p =>
    simp only [Machine.instr] at h
    cases hpc : m.pc (.proc p) <;> rw [hpc] at h hk <;>
      simp only [procInstr, userInstr, sleepInstr, killInstr, forkInstr, exitInstr, waitInstr,
        Option.none_or, Option.or_none] at h
    case wake => exact wakeInstr_rank hk h
    all_goals (try split at h) <;> (try split at h) <;> cases h <;>
      simp_all [pcLocks, LockId.rank]
  | cpu d =>
    simp only [Machine.instr, cpuInstr] at h
    split at h
    · split at h <;> cases h
      simp_all [pcLocks]
    · split at h <;> cases h
    · cases h
    · exact wakeInstr_rank hk h

/-- Threads do not wait for each other in a cycle, nor one for itself. None releases a lock that it
does not hold, and a process enters `sched` with its own lock and no other. So `acquire` and
`release` do not panic, and `sched` does not for its locks. -/
theorem spinlocks_no_deadlock {acts : List (Thread n × Choice n)}
    (hrun : (Machine.boot n).run acts = some m) :
    (∀ t, ¬ Relation.TransGen (fun t u => ∃ l, m.Takes t l ∧ m.owner l = some u) t t) ∧
    (∀ t c l next, m.instr t c = some (.release l next) → m.owner l = some t) ∧
    ∀ p r, m.pc (.proc p) = .sched r → ∀ l, m.owner l = some (.proc p) ↔ l = .proc p := by
  have hsync := (machineInv_run (machineInv_boot n) hrun).sync
  have hrank : ∀ {t l k}, m.Takes t l → Holds m.pc t k → k.rank < l.rank := by
    rintro t l k ⟨c, next, h⟩ hk
    exact instr_rank h hk
  refine ⟨hsync.no_cycle hrank, fun t c l next h => ?_, fun p r hpc l => ?_⟩
  · refine (hsync t l).mpr ?_
    cases t with
    | proc p => exact (procInstr_wellLocked h).1
    | cpu d => exact (cpuInstr_wellLocked h).1
  · rw [hsync]
    simp [Holds, hpc, pcLocks, threadSlot, ownLock]

/-- The scheduler runs `initproc`, which yields. -/
def yieldOnce : List (Thread 1 × Choice 1) :=
  let cpu : Thread 1 := .cpu (Fin.last 0)
  let init : Thread 1 := .proc initproc
  [(cpu, .go), (cpu, .go), (init, .go), (init, .yield), (init, .go), (init, .go)]

/-- A process that yields holds its own lock only. -/
theorem spinlocks_no_deadlock_yieldOnce :
    ∃ m, (Machine.boot 1).run yieldOnce = some m ∧
      ∀ l, m.owner l = some (.proc initproc) ↔ l = .proc initproc := by
  obtain ⟨m, hm, hpc⟩ : ∃ m, (Machine.boot 1).run yieldOnce = some m ∧
      m.pc (.proc initproc) = .sched (some .yielded) := ⟨_, rfl, rfl⟩
  exact ⟨m, hm, (spinlocks_no_deadlock hm).2.2 initproc _ hpc⟩

end Proofs

end Xv6
