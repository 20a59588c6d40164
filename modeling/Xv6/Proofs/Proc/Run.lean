import Xv6.Proofs.Proc.Steps

/-!
# `Xv6.Proofs.Proc.Run`: the invariant of the machine

`procInstr_wellLocked` checks the locks of the whole program: every step of a process takes
and gives back exactly the locks by which `pcLocks` of its two program counters differ. The
invariant `MachineInv` is then kept by every step of every thread.
-/

set_option autoImplicit false

namespace Xv6.Proofs

open Function (update)
open Lib

variable {tab : Table} {pc : Pc} {ins : Instr} {n : Nat} {p : Slot} {fails : Bool}

variable {c : Choice n} {d : Fin n} {i : Slot} {m m' : Machine n} {next old slotPc : Pc}
  {self : Option Slot} {t : Thread n} {tab' : Table}

/-! ### The program and its locks -/

/-- A step takes and gives back the locks by which the program counters differ. -/
def WellLocked (self : Option Slot) (pc : Pc) : Instr → Prop
  | .acquire l next => ∀ k, k ∈ pcLocks self next ↔ k = l ∨ k ∈ pcLocks self pc
  | .release l next =>
    l ∈ pcLocks self pc ∧ ∀ k, k ∈ pcLocks self next ↔ k ≠ l ∧ k ∈ pcLocks self pc
  | .set _ next => pcLocks self next = pcLocks self pc
  | .setSlot _ i slotPc next =>
    pcLocks self next = pcLocks self pc ∧ pcLocks (some i) slotPc = []

theorem contLocks_pc (self : Option Slot) (c : Cont) : pcLocks self c.pc = contLocks c := by
  cases c <;> rfl

theorem proc_not_mem_contLocks (j : Slot) (c : Cont) : .proc j ∉ contLocks c := by
  cases c <;> simp [contLocks]

theorem wakeInstr_wellLocked (h : wakeInstr tab self pc = some ins) : WellLocked self pc ins := by
  cases pc <;> simp only [wakeInstr, reduceCtorEq] at h <;>
    grind [WellLocked, pcLocks, contLocks_pc, proc_not_mem_contLocks]

theorem userInstr_wellLocked (h : userInstr tab p c = some ins) :
    WellLocked (some p) .user ins := by
  cases c <;> grind [userInstr, WellLocked, pcLocks, contLocks]

theorem sleepInstr_wellLocked
    (h : sleepInstr tab p pc = some ins) : WellLocked (some p) pc ins := by
  cases pc <;> simp only [sleepInstr, reduceCtorEq] at h
  case back k => cases k <;> grind [WellLocked, pcLocks, ownLock]
  case awake w => cases w <;> grind [WellLocked, pcLocks, ownLock]
  all_goals grind [WellLocked, pcLocks, ownLock]

theorem killInstr_wellLocked (h : killInstr tab pc = some ins) : WellLocked self pc ins := by
  cases pc <;> simp only [killInstr, reduceCtorEq] at h <;>
    grind [WellLocked, pcLocks]

theorem forkInstr_wellLocked
    (h : forkInstr tab p fails pc = some ins) : WellLocked (some p) pc ins := by
  cases pc <;> simp only [forkInstr, reduceCtorEq] at h <;>
    grind [WellLocked, pcLocks]

theorem exitInstr_wellLocked
    (h : exitInstr tab p pc = some ins) : WellLocked (some p) pc ins := by
  cases pc <;> simp only [exitInstr, reduceCtorEq] at h <;>
    grind [WellLocked, pcLocks, contLocks, ownLock]

theorem waitInstr_wellLocked
    (h : waitInstr tab p fails pc = some ins) : WellLocked (some p) pc ins := by
  cases pc <;> simp only [waitInstr, reduceCtorEq] at h <;>
    grind [WellLocked, pcLocks, ownLock]

/-- Every step of a process fits its locks. -/
theorem procInstr_wellLocked (h : procInstr tab p c pc = some ins) :
    WellLocked (some p) pc ins := by
  unfold procInstr at h
  split at h
  · exact userInstr_wellLocked h
  · simp only [Option.or_eq_some_iff] at h
    rcases h with h | ⟨-, h | ⟨-, h | ⟨-, h | ⟨-, h | ⟨-, h⟩⟩⟩⟩⟩
    · exact sleepInstr_wellLocked h
    · exact wakeInstr_wellLocked h
    · exact killInstr_wellLocked h
    · exact forkInstr_wellLocked h
    · exact exitInstr_wellLocked h
    · exact waitInstr_wellLocked h

/-- Every step of a scheduler fits its locks. -/
theorem cpuInstr_wellLocked (h : cpuInstr tab c pc = some ins) : WellLocked none pc ins := by
  unfold cpuInstr at h
  split at h <;> grind [WellLocked, pcLocks, contLocks, wakeInstr_wellLocked]

/-! ### The steps of a process -/

/-- The table after a step. -/
def insTab (tab : Table) : Instr → Table
  | .acquire _ _ => tab
  | .release _ _ => tab
  | .set tab' _ => tab'
  | .setSlot tab' _ _ _ => tab'

/-- The program counters of the processes after a step of process `p`. -/
def insPcs (pc : Slot → Pc) (p : Slot) : Instr → Slot → Pc
  | .acquire _ next => update pc p next
  | .release _ next => update pc p next
  | .set _ next => update pc p next
  | .setSlot _ i slotPc next => update (update pc p next) i slotPc

/-- A process moves on within a stage. -/
theorem TableInv.keep {pc : Slot → Pc} (h : TableInv tab pc) (hpc : pc p = old)
    (hmode : pcMode next = pcMode old) (hfork : pcFork next = pcFork old)
    (hexit : pcExit next = pcExit old) (hwait : pcWait next = none ∨ pcWait next = pcWait old) :
    TableInv tab (update pc p next) := by
  subst hpc
  refine h.move (hmode ▸ h.mode p) (Or.inl hmode) (hfork ▸ h.fork p) (by rw [hfork])
    (hexit ▸ h.exit p) fun np hnp => ?_
  rcases hwait with hw | hw
  · rw [hw] at hnp
    cases hnp
  · exact h.wait p np (hw ▸ hnp)

/-- A process moves on within a stage and changes the states of live processes. -/
theorem TableInv.keepSame {pc : Slot → Pc} (h : TableInv tab pc) (hs : SameProcs tab tab')
    (hpc : pc p = old) (hmode : pcMode next = pcMode old) (hfork : pcFork next = pcFork old)
    (hexit : pcExit next = pcExit old) (hwait : pcWait next = none ∨ pcWait next = pcWait old) :
    TableInv tab' (update pc p next) :=
  (hs.tableInv h).keep hpc hmode hfork hexit hwait

theorem sameProcs_refl (tab : Table) : SameProcs tab tab :=
  ⟨fun _ => Or.inl rfl, fun _ => rfl, fun _ => rfl, fun _ => rfl, rfl, rfl, rfl, rfl⟩

/-- Changing the state of a live process, what it sleeps on and whether it is killed. -/
theorem sameProcs_upd {q : Proc} (hstate : q.state = (tab.proc i).state ∨
      (ProcState.Live (tab.proc i).state ∧ ProcState.Live q.state))
    (hparent : q.parent = (tab.proc i).parent) (hpid : q.pid = (tab.proc i).pid)
    (hx : q.xstate = (tab.proc i).xstate) : SameProcs tab (tab.upd i q) := by
  refine ⟨fun j => ?_, upd_kept _ hparent, upd_kept _ hpid, upd_kept _ hx, rfl, rfl, rfl, rfl⟩
  by_cases hj : j = i
  · rw [hj, upd_proc, if_pos rfl]
    exact hstate
  · rw [upd_proc, if_neg hj]
    exact Or.inl rfl

theorem sameProcs_wake (tab : Table) (j : Slot) (chan : Option Chan) :
    SameProcs tab (tab.wake j chan) := by
  unfold Table.wake
  simp only
  split
  · rename_i hsleep
    refine sameProcs_upd (Or.inr ⟨?_, Or.inr (Or.inl rfl)⟩) rfl rfl rfl
    rw [hsleep.1]
    exact Or.inl rfl
  · exact sameProcs_refl tab

theorem sameProcs_kill (tab : Table) (i : Slot) : SameProcs tab (tab.kill i) := by
  unfold Table.kill
  refine sameProcs_upd ?_ rfl rfl rfl
  by_cases hsleep : (tab.proc i).state = .sleeping
  · refine Or.inr ⟨Or.inl hsleep, ?_⟩
    simp [hsleep, ProcState.Live]
  · exact Or.inl (if_neg hsleep)

/-- The steps of `wakeup` change the states of sleeping processes only. -/
theorem wakeInstr_same (h : wakeInstr tab self pc = some ins) : SameProcs tab (insTab tab ins) := by
  unfold wakeInstr at h
  split at h <;> grind [insTab, sameProcs_refl, sameProcs_wake]

/-- The steps of `wakeup` keep the invariant of the table. -/
theorem wakeInstr_table {pc : Slot → Pc} (h : TableInv tab pc)
    (hins : wakeInstr tab (some p) (pc p) = some ins) :
    TableInv (insTab tab ins) (insPcs pc p ins) := by
  cases hpc : pc p <;> rw [hpc] at hins <;> simp only [wakeInstr, reduceCtorEq] at hins
  case wake j chan c =>
    split at hins
    · split at hins <;> cases hins <;> exact h.keep hpc rfl rfl rfl (Or.inl rfl)
    · cases hins
      show TableInv tab (update pc p c.pc)
      cases c <;> exact h.keep hpc rfl rfl rfl (Or.inl rfl)
  case wakeCheck j chan c =>
    cases hins
    exact h.keepSame (sameProcs_wake tab j chan) hpc rfl rfl rfl (Or.inl rfl)
  case wakeRel j chan c =>
    cases hins
    exact h.keep hpc rfl rfl rfl (Or.inl rfl)

/-- The steps of `kill` keep the invariant of the table. -/
theorem killInstr_table {pc : Slot → Pc} (h : TableInv tab pc)
    (hins : killInstr tab (pc p) = some ins) :
    TableInv (insTab tab ins) (insPcs pc p ins) := by
  cases hpc : pc p <;> rw [hpc] at hins <;> simp only [killInstr, reduceCtorEq] at hins
  case kill i pid =>
    split at hins <;> cases hins <;> exact h.keep hpc rfl rfl rfl (Or.inl rfl)
  case killCheck i pid =>
    split at hins
    · cases hins
      exact h.keepSame (sameProcs_kill tab i) hpc rfl rfl rfl (Or.inl rfl)
    · cases hins
      exact h.keep hpc rfl rfl rfl (Or.inl rfl)
  case killRel i pid found =>
    cases hins
    cases found <;> exact h.keep hpc rfl rfl rfl (Or.inl rfl)

/-- The calls that a process makes keep the invariant of the table. -/
theorem userInstr_table {pc : Slot → Pc} (h : TableInv tab pc) (hpc : pc p = .user)
    (hins : userInstr tab p c = some ins) : TableInv (insTab tab ins) (insPcs pc p ins) := by
  cases c <;> simp only [userInstr, reduceCtorEq] at hins
  case exit status =>
    split at hins
    · cases hins
    · rename_i hp
      cases hins
      exact h.exitCall hpc hp
  case trap =>
    cases hins
    have hs : SameProcs tab (tab.upd p { tab.proc p with killed := true }) :=
      sameProcs_upd (Or.inl rfl) rfl rfl rfl
    exact h.keepSame hs hpc rfl rfl rfl (Or.inl rfl)
  all_goals
    cases hins
    exact h.keep hpc rfl rfl rfl (Or.inl rfl)

/-- The steps of `yield` and `sleep` keep the invariant of the table. -/
theorem sleepInstr_table {pc : Slot → Pc} (h : TableInv tab pc)
    (hins : sleepInstr tab p (pc p) = some ins) :
    TableInv (insTab tab ins) (insPcs pc p ins) := by
  -- the process itself is live whenever it changes its own state
  have hset : ∀ {q : Proc} {next : Pc}, pcMode (pc p) = .active → pcFork (pc p) = .none →
      pcExit (pc p) = .none → pcMode next = .active → pcFork next = .none → pcExit next = .none →
      pcWait next = none → (q.state = (tab.proc p).state ∨ ProcState.Live q.state) →
      q.parent = (tab.proc p).parent → q.pid = (tab.proc p).pid →
      q.xstate = (tab.proc p).xstate → TableInv (tab.upd p q) (update pc p next) := by
    intro q next h1 h2 h3 h4 h5 h6 h7 hst hpar hpid hx
    refine h.keepSame (sameProcs_upd ?_ hpar hpid hx) rfl (h4.trans h1.symm) (h5.trans h2.symm)
      (h6.trans h3.symm) (Or.inl h7)
    exact hst.imp_right fun hlive => ⟨h.live_of_active h1, hlive⟩
  cases hpc : pc p <;> rw [hpc] at hins hset <;> simp only [sleepInstr, reduceCtorEq] at hins
  case back k =>
    cases k <;> cases hins
    · exact h.keep hpc rfl rfl rfl (Or.inl rfl)
    · exact h.keep hpc rfl rfl rfl (Or.inl rfl)
    · exact hset rfl rfl rfl rfl rfl rfl rfl (Or.inl rfl) rfl rfl rfl
  case awake w =>
    cases w <;> cases hins <;> exact h.keep hpc rfl rfl rfl (Or.inl rfl)
  case yieldSet =>
    cases hins
    exact hset rfl rfl rfl rfl rfl rfl rfl (Or.inr (Or.inr (Or.inl rfl))) rfl rfl rfl
  case sleepSet a =>
    cases hins
    exact hset rfl rfl rfl rfl rfl rfl rfl (Or.inr (Or.inl rfl)) rfl rfl rfl
  all_goals
    cases hins
    exact h.keep hpc rfl rfl rfl (Or.inl rfl)

/-- The steps of `fork`. Only one process can be about to take a slot. -/
theorem forkInstr_table {pc : Slot → Pc} (h : TableInv tab pc)
    (honly : ∀ np q, pcFork (pc p) = .found np → q ≠ p → pcFork (pc q) ≠ .found np)
    (hins : forkInstr tab p fails (pc p) = some ins) :
    TableInv (insTab tab ins) (insPcs pc p ins) := by
  cases hpc : pc p <;> rw [hpc] at hins honly <;> simp only [forkInstr, reduceCtorEq] at hins
  case alloc i =>
    split at hins <;> cases hins <;> exact h.keep hpc rfl rfl rfl (Or.inl rfl)
  case allocCheck np =>
    split at hins
    · rename_i hfree
      cases hins
      have hlive := h.mode p
      have hexit := h.exit p
      rw [hpc] at hlive hexit
      exact h.move hlive (Or.inl (by rw [hpc]; rfl)) hfree (by rw [hpc]; rfl) hexit nofun
    · cases hins
      exact h.keep hpc rfl rfl rfl (Or.inl rfl)
  case pidNext np =>
    cases hins
    have hs : SameProcs tab { tab with nextpid := tab.nextpid + 1 } :=
      ⟨fun _ => Or.inl rfl, fun _ => rfl, fun _ => rfl, fun _ => rfl, rfl, rfl, rfl, rfl⟩
    exact h.keepSame hs hpc rfl rfl rfl (Or.inl rfl)
  case allocUsed np pid =>
    cases hins
    exact h.alloc hpc fun q => honly np q rfl
  case forkCopy np =>
    split at hins
    · cases hins
      exact h.forkFail hpc
    · cases hins
      exact h.forkMade hpc
  case forkParent np pid =>
    cases hins
    exact h.setParent hpc
  case forkRun np pid =>
    cases hins
    exact h.forkRun hpc
  case forkRet np pid =>
    cases hins
    exact h.forkRet hpc
  all_goals
    cases hins
    exact h.keep hpc rfl rfl rfl (Or.inl rfl)

/-- The steps of `exit`. -/
theorem exitInstr_table {pc : Slot → Pc} (h : TableInv tab pc)
    (hins : exitInstr tab p (pc p) = some ins) :
    TableInv (insTab tab ins) (insPcs pc p ins) := by
  have hmode := h.mode p
  have hexit := h.exit p
  cases hpc : pc p <;> rw [hpc] at hins hmode hexit <;>
    simp only [exitInstr, reduceCtorEq] at hins
  case exitWait status =>
    cases hins
    refine h.move hmode (Or.inl (by rw [hpc]; rfl)) trivial (by rw [hpc]; rfl) ?_ nofun
    exact ⟨hexit.1, hexit.2, fun j hj => absurd hj (Nat.not_lt_zero _)⟩
  case reparent status i =>
    split at hins
    · rename_i hi
      split at hins
      · rename_i hchild
        cases hins
        have hpc' : pc p = .reparent status ((⟨i, hi⟩ : Slot) : Nat) := hpc
        exact h.reparent hpc' ⟨rfl, rfl, rfl, rfl⟩ hchild
      · rename_i hchild
        cases hins
        refine h.move hmode (Or.inl (by rw [hpc]; rfl)) trivial (by rw [hpc]; rfl) ?_ nofun
        refine ⟨hexit.1, hexit.2.1, fun j hj => ?_⟩
        by_cases hji : (j : Nat) = i
        · have : j = ⟨i, hi⟩ := Fin.ext hji
          rw [this]
          exact hchild
        · exact hexit.2.2 j (by omega)
    · rename_i hi
      cases hins
      refine h.move hmode (Or.inl (by rw [hpc]; rfl)) trivial (by rw [hpc]; rfl) ?_ nofun
      exact ⟨hexit.1, hexit.2.1, fun j => hexit.2.2 j (by have := j.isLt; omega)⟩
  case exitSet status =>
    cases hins
    exact h.exitSet hpc
  all_goals
    cases hins
    exact h.keep hpc rfl rfl rfl (Or.inl rfl)

/-- The steps of `wait`. -/
theorem waitInstr_table {pc : Slot → Pc} (h : TableInv tab pc)
    (hins : waitInstr tab p fails (pc p) = some ins) :
    TableInv (insTab tab ins) (insPcs pc p ins) := by
  have hmode := h.mode p
  have hexit := h.exit p
  cases hpc : pc p <;> rw [hpc] at hins hmode hexit <;>
    simp only [waitInstr, reduceCtorEq] at hins
  case waitScan addr i havekids =>
    split at hins
    · split at hins
      · rename_i hchild
        cases hins
        refine h.move hmode (Or.inl (by rw [hpc]; rfl)) trivial (by rw [hpc]; rfl) hexit ?_
        rintro np hnp
        cases hnp
        exact hchild
      · cases hins
        exact h.keep hpc rfl rfl rfl (Or.inl rfl)
    · split at hins <;> cases hins <;> exact h.keep hpc rfl rfl rfl (Or.inl rfl)
  case waitChild addr np =>
    cases hins
    exact h.keep hpc rfl rfl rfl (Or.inr rfl)
  case waitCheck addr np =>
    split at hins
    · rename_i hzombie
      split at hins
      · cases hins
        exact h.keep hpc rfl rfl rfl (Or.inl rfl)
      · cases hins
        refine h.reap hpc hzombie ?_ _
        intro v hv
        split at hv
        · cases hv
        · exact (Option.some.inj hv).symm
    · cases hins
      exact h.keep hpc rfl rfl rfl (Or.inl rfl)
  case waitSleepSet addr =>
    cases hins
    have hs : SameProcs tab (tab.upd p { tab.proc p with
        chan := some (.proc p), state := .sleeping }) :=
      sameProcs_upd (Or.inr ⟨hmode, Or.inl rfl⟩) rfl rfl rfl
    exact h.keepSame hs hpc rfl rfl rfl (Or.inl rfl)
  all_goals
    cases hins
    exact h.keep hpc rfl rfl rfl (Or.inl rfl)

/-! ### The machine -/

/-- The invariant of the machine. -/
structure MachineInv {n : Nat} (m : Machine n) : Prop where
  sync : Sync m.owner (Holds m.pc)
  table : TableInv m.tab fun p => m.pc (.proc p)

/-- A process about to take a slot holds its lock. -/
theorem found_locks {np : Slot} (h : pcFork pc = .found np) (self : Option Slot) :
    .proc np ∈ pcLocks self pc := by
  cases pc <;> first | (cases h; simp [pcLocks]) | cases h

theorem MachineInv.found_unique (h : MachineInv m) {q np : Slot}
    (hp : pcFork (m.pc (.proc p)) = .found np) (hq : q ≠ p) :
    pcFork (m.pc (.proc q)) ≠ .found np := by
  intro hc
  have := h.sync.exclusive (found_locks hp (some p)) (found_locks hc (some q))
  injection this with this
  exact hq this.symm

/-- The step of a process keeps the table right. -/
theorem procInstr_table (h : MachineInv m)
    (hins : procInstr m.tab p c (m.pc (.proc p)) = some ins) :
    TableInv (insTab m.tab ins) (insPcs (fun q => m.pc (.proc q)) p ins) := by
  unfold procInstr at hins
  split at hins
  · rename_i hpc
    exact userInstr_table h.table hpc hins
  · simp only [Option.or_eq_some_iff] at hins
    rcases hins with hins | ⟨-, hins | ⟨-, hins | ⟨-, hins | ⟨-, hins | ⟨-, hins⟩⟩⟩⟩⟩
    · exact sleepInstr_table h.table hins
    · exact wakeInstr_table h.table hins
    · exact killInstr_table h.table hins
    · exact forkInstr_table h.table (fun np q hf hq => h.found_unique hf hq) hins
    · exact exitInstr_table h.table hins
    · exact waitInstr_table h.table hins

/-- `wait` tears down the thread of a zombie only. -/
theorem waitInstr_setSlot (h : waitInstr tab p fails pc = some (.setSlot tab' i slotPc next)) :
    (∃ addr, pc = .waitCheck addr i) ∧ (tab.proc i).state = .zombie := by
  cases pc <;> grind [waitInstr]

/-- Threads are set up and torn down by `fork` and by `wait` only. -/
theorem setSlot_cases (h : procInstr tab p c pc = some (.setSlot tab' i slotPc next)) :
    pc = .forkCopy i ∨ ((∃ addr, pc = .waitCheck addr i) ∧ (tab.proc i).state = .zombie) := by
  unfold procInstr at h
  split at h
  · unfold userInstr at h
    split at h <;> (try split at h) <;> cases h
  · simp only [Option.or_eq_some_iff] at h
    rcases h with h | ⟨-, h | ⟨-, h | ⟨-, h | ⟨-, h | ⟨-, h⟩⟩⟩⟩⟩
    · unfold sleepInstr at h
      split at h <;> cases h
    · unfold wakeInstr at h
      split at h <;> (try split at h) <;> (try split at h) <;> cases h
    · unfold killInstr at h
      split at h <;> (try split at h) <;> cases h
    · unfold forkInstr at h
      split at h <;> (try split at h) <;> cases h <;> exact Or.inl rfl
    · unfold exitInstr at h
      split at h <;> (try split at h) <;> (try dsimp only at h) <;> (try split at h) <;> cases h
    · exact Or.inr (waitInstr_setSlot h)

/-- A process whose thread is set up or torn down holds no lock. -/
theorem setSlot_free (h : MachineInv m)
    (hins : procInstr m.tab p c (m.pc (.proc p)) = some (.setSlot tab i slotPc next)) :
    i ≠ p ∧ pcLocks (some i) (m.pc (.proc i)) = [] := by
  rcases setSlot_cases hins with hpc | ⟨⟨addr, hpc⟩, hzombie⟩
  · have hok := h.table.fork p
    rw [hpc] at hok
    have hidle : m.pc (.proc i) = .idle := pcMode_idle hok.2.1
    refine ⟨?_, by rw [hidle]; rfl⟩
    rintro rfl
    rw [hpc] at hidle
    cases hidle
  · have hlive : ProcState.Live (m.tab.proc p).state :=
      h.table.live_of_active (by rw [hpc]; rfl)
    have hne : i ≠ p := by
      rintro rfl
      exact (Live.ne hlive).2.2 hzombie
    refine ⟨hne, ?_⟩
    -- the zombie has left its last section: the waiting process is inside that lock
    have hmine : Holds m.pc (.proc p) (.proc i) := by simp [Holds, hpc, pcLocks]
    have hout : ¬ Holds m.pc (.proc i) (.proc i) := by
      intro hc
      have := h.sync.exclusive hc hmine
      injection this with this
      exact hne this
    have hm := h.table.mode i
    rw [hzombie] at hm
    cases hpci : m.pc (.proc i) with
    | zombie => rfl
    | exitRel => exact absurd (by simp [Holds, hpci, pcLocks, ownLock, threadSlot]) hout
    | sched k => exact absurd (by simp [Holds, hpci, pcLocks, ownLock, threadSlot]) hout
    | off k => rw [hpci] at hm; cases k <;> simp [pcMode, ModeOk, ProcState.Live] at hm
    | _ => rw [hpci] at hm; simp [pcMode, ModeOk, ProcState.Live] at hm

theorem holds_update (pc : Thread n → Pc) (t u : Thread n) (next : Pc) (l : LockId) :
    Holds (update pc t next) u l ↔
      if u = t then l ∈ pcLocks (threadSlot t) next else Holds pc u l := by
  unfold Holds
  by_cases hu : u = t
  · subst hu
    simp
  · simp [hu]

/-- Carrying out a well locked step keeps the owners right. -/
theorem sync_exec (h : Sync m.owner (Holds m.pc)) (hw : WellLocked (threadSlot t) (m.pc t) ins)
    (hslot : ∀ tab i slotPc next, ins = .setSlot tab i slotPc next →
      t ≠ .proc i ∧ pcLocks (some i) (m.pc (.proc i)) = []) (hexec : m.exec t ins = some m') :
    Sync m'.owner (Holds m'.pc) := by
  cases ins with
  | acquire l next =>
    simp only [Machine.exec, Option.ite_none_right_eq_some] at hexec
    obtain ⟨hfree, hexec⟩ := hexec
    cases hexec
    refine h.acquire hfree (fun k => ?_) (fun u hu k => ?_)
    · rw [holds_update, if_pos rfl]
      exact hw k
    · rw [holds_update, if_neg hu]
  | release l next =>
    cases hexec
    refine h.release hw.1 (fun k => ?_) (fun u hu k => ?_)
    · rw [holds_update, if_pos rfl]
      exact hw.2 k
    · rw [holds_update, if_neg hu]
  | set tab next =>
    cases hexec
    refine h.congr fun u k => ?_
    rw [holds_update]
    split
    · rename_i hu
      subst hu
      show _ ∈ pcLocks _ next ↔ _
      rw [show pcLocks _ next = pcLocks _ (m.pc u) from hw]
      rfl
    · exact Iff.rfl
  | setSlot tab i slotPc next =>
    cases hexec
    obtain ⟨hne, hfree⟩ := hslot tab i slotPc next rfl
    refine h.congr fun u k => ?_
    rw [holds_update, holds_update]
    by_cases hi : u = .proc i
    · subst hi
      rw [if_pos rfl]
      unfold Holds
      show k ∈ pcLocks (some i) slotPc ↔ k ∈ pcLocks (some i) (m.pc (.proc i))
      rw [hw.2, hfree]
    · rw [if_neg hi]
      split
      · rename_i hu
        subst hu
        rw [hw.1]
        rfl
      · exact Iff.rfl

/-- The program counters of the processes after a step. -/
theorem proc_pcs_update (pc : Thread n → Pc) (p : Slot) (next : Pc) :
    (fun q => update pc (.proc p) next (.proc q)) = update (fun q => pc (.proc q)) p next := by
  funext q
  by_cases hq : q = p
  · subst hq
    simp
  · have : (Thread.proc q : Thread n) ≠ .proc p := fun hc => hq (by injection hc)
    rw [Function.update_of_ne this, Function.update_of_ne hq]

theorem cpu_pcs_update (pc : Thread n → Pc) (c : Fin n) (next : Pc) :
    (fun q => update pc (.cpu c) next (.proc q)) = fun q => pc (.proc q) := by
  funext q
  exact Function.update_of_ne (by simp) _ _

/-- Carrying out a step of a process. -/
theorem exec_proc (hexec : m.exec (.proc p) ins = some m') :
    m'.tab = insTab m.tab ins ∧
      (fun q => m'.pc (.proc q)) = insPcs (fun q => m.pc (.proc q)) p ins := by
  cases ins with
  | acquire l next =>
    simp only [Machine.exec, Option.ite_none_right_eq_some] at hexec
    obtain ⟨-, hexec⟩ := hexec
    cases hexec
    exact ⟨rfl, proc_pcs_update m.pc p next⟩
  | release l next =>
    cases hexec
    exact ⟨rfl, proc_pcs_update m.pc p next⟩
  | set tab next =>
    cases hexec
    exact ⟨rfl, proc_pcs_update m.pc p next⟩
  | setSlot tab i slotPc next =>
    cases hexec
    refine ⟨rfl, ?_⟩
    show (fun q => update (update m.pc (.proc p) next) (.proc i) slotPc (.proc q)) = _
    rw [proc_pcs_update, proc_pcs_update]
    rfl

/-- A step of a process keeps the invariant. -/
theorem MachineInv.proc (h : MachineInv m)
    (hstep : (procInstr m.tab p c (m.pc (.proc p))).bind (m.exec (.proc p)) = some m') :
    MachineInv m' := by
  obtain ⟨ins, hins, hexec⟩ := Option.bind_eq_some_iff.mp hstep
  refine ⟨sync_exec (t := .proc p) h.sync (procInstr_wellLocked hins) ?_ hexec, ?_⟩
  · rintro tab i slotPc next rfl
    obtain ⟨hne, hfree⟩ := setSlot_free h hins
    exact ⟨fun hc => hne (by injection hc with hc; exact hc.symm), hfree⟩
  · obtain ⟨htab, hpcs⟩ := exec_proc hexec
    rw [htab, hpcs]
    exact procInstr_table h hins

/-- A scheduler changes the table in `wakeup` only. -/
theorem cpuInstr_same (h : cpuInstr tab c pc = some ins) : SameProcs tab (insTab tab ins) := by
  unfold cpuInstr at h
  split at h <;> grind [insTab, sameProcs_refl, wakeInstr_same]

theorem cpuInstr_ne_setSlot : cpuInstr tab c pc ≠ some (.setSlot tab' i slotPc next) := by
  intro h
  unfold cpuInstr wakeInstr at h
  split at h <;> grind

/-- Carrying out a step of a scheduler. -/
theorem exec_cpu (hins : ∀ tab i slotPc next, ins ≠ .setSlot tab i slotPc next)
    (hexec : m.exec (.cpu d) ins = some m') :
    m'.tab = insTab m.tab ins ∧ (fun q => m'.pc (.proc q)) = fun q => m.pc (.proc q) := by
  cases ins with
  | acquire l next =>
    simp only [Machine.exec, Option.ite_none_right_eq_some] at hexec
    obtain ⟨-, hexec⟩ := hexec
    cases hexec
    exact ⟨rfl, cpu_pcs_update m.pc d next⟩
  | release l next =>
    cases hexec
    exact ⟨rfl, cpu_pcs_update m.pc d next⟩
  | set tab next =>
    cases hexec
    exact ⟨rfl, cpu_pcs_update m.pc d next⟩
  | setSlot tab i slotPc next => exact absurd rfl (hins tab i slotPc next)

/-- A step of a scheduler keeps the invariant. -/
theorem MachineInv.cpu (h : MachineInv m)
    (hstep : (cpuInstr m.tab c (m.pc (.cpu d))).bind (m.exec (.cpu d)) = some m') :
    MachineInv m' := by
  obtain ⟨ins, hins, hexec⟩ := Option.bind_eq_some_iff.mp hstep
  have hset : ∀ tab i slotPc next, ins ≠ .setSlot tab i slotPc next := by
    rintro tab i slotPc next rfl
    exact cpuInstr_ne_setSlot hins
  refine ⟨sync_exec (t := .cpu d) h.sync (cpuInstr_wellLocked hins)
    (fun tab i slotPc next hc => absurd hc (hset tab i slotPc next)) hexec, ?_⟩
  obtain ⟨htab, hpcs⟩ := exec_cpu hset hexec
  rw [htab, hpcs]
  exact (cpuInstr_same hins).tableInv h.table

/-- `swtch` to the scheduler. -/
theorem MachineInv.swtchOut (h : MachineInv m) {k : Option Resume} (hpc : m.pc (.proc p) = .sched k)
    (hcpu : m.pc (.cpu d) = .running p)
    (hnext : (k = none ∧ next = .zombie) ∨ ∃ r, k = some r ∧ next = .off r) :
    MachineInv (m.swtchOut p d next) := by
  have hlocks : ∀ self, pcLocks self next = [] := by
    intro self
    rcases hnext with ⟨-, rfl⟩ | ⟨r, -, rfl⟩ <;> rfl
  constructor
  · -- the scheduler of the CPU goes on with the lock of the process
    refine h.sync.handoff (t := .proc p) (u := .cpu d) (l := .proc p) (by simp) ?_ ?_ ?_ ?_
    · simp [Holds, hpc, pcLocks, ownLock, threadSlot]
    · intro l
      show Holds (update (update m.pc (.proc p) next) (.cpu d) (.scanRel p)) (.proc p) l ↔ _
      rw [holds_update, if_neg (by simp), holds_update, if_pos rfl, hlocks]
      simp [Holds, hpc, pcLocks, ownLock, threadSlot]
    · intro l
      show Holds (update (update m.pc (.proc p) next) (.cpu d) (.scanRel p)) (.cpu d) l ↔ _
      rw [holds_update, if_pos rfl]
      simp [Holds, hcpu, pcLocks]
    · intro u hu hu' l
      show Holds (update (update m.pc (.proc p) next) (.cpu d) (.scanRel p)) u l ↔ _
      rw [holds_update, if_neg hu', holds_update, if_neg hu]
  · show TableInv m.tab fun q =>
      update (update m.pc (.proc p) next) (.cpu d) (.scanRel p) (.proc q)
    rw [cpu_pcs_update, proc_pcs_update]
    have hmode := h.table.mode p
    have hexit := h.table.exit p
    rw [hpc] at hmode hexit
    rcases hnext with ⟨rfl, rfl⟩ | ⟨r, rfl, rfl⟩
    · exact h.table.keep hpc rfl rfl rfl (Or.inl rfl)
    · have hlive : ProcState.Live (m.tab.proc p).state := hmode
      refine h.table.move ?_ (Or.inr (Live.ne hlive).2.1) trivial (by rw [hpc]; rfl) hexit nofun
      cases r with
      | first => exact Or.inl hlive
      | yielded => exact hlive
      | slept w => exact hlive

/-- `swtch` to a process. -/
theorem MachineInv.swtchIn (h : MachineInv m) {k : Resume} (hcpu : m.pc (.cpu d) = .scanCheck p)
    (hpc : m.pc (.proc p) = .off k) (hready : (m.tab.proc p).state = .runnable) :
    MachineInv (m.swtchIn p d k) := by
  constructor
  · refine h.sync.handoff (t := .cpu d) (u := .proc p) (l := .proc p) (by simp) ?_ ?_ ?_ ?_
    · simp [Holds, hcpu, pcLocks]
    · intro l
      show Holds (update (update m.pc (.proc p) (.back k)) (.cpu d) (.running p)) (.cpu d) l ↔ _
      rw [holds_update, if_pos rfl]
      simp [Holds, hcpu, pcLocks]
    · intro l
      show Holds (update (update m.pc (.proc p) (.back k)) (.cpu d) (.running p)) (.proc p) l ↔ _
      rw [holds_update, if_neg (by simp), holds_update, if_pos rfl]
      simp [Holds, hpc, pcLocks, ownLock, threadSlot]
    · intro u hu hu' l
      show Holds (update (update m.pc (.proc p) (.back k)) (.cpu d) (.running p)) u l ↔ _
      rw [holds_update, if_neg hu, holds_update, if_neg hu']
  · show TableInv (m.tab.upd p { m.tab.proc p with state := .running })
      fun q => update (update m.pc (.proc p) (.back k)) (.cpu d) (.running p) (.proc q)
    rw [cpu_pcs_update, proc_pcs_update]
    have hs : SameProcs m.tab (m.tab.upd p { m.tab.proc p with state := .running }) :=
      sameProcs_upd (Or.inr ⟨Or.inr (Or.inl hready), Or.inr (Or.inr rfl)⟩) rfl rfl rfl
    have h' := hs.tableInv h.table
    have hexit := h'.exit p
    have hrun : ((m.tab.upd p { m.tab.proc p with state := .running }).proc p).state
        = .running := by simp
    simp only [hpc] at hexit
    refine h'.move ?_ (Or.inr ?_) trivial ?_ hexit nofun
    · rw [hrun]
      exact Or.inr (Or.inr rfl)
    · rw [hrun]
      simp
    · simp only [hpc]
      rfl

/-- What a step can be. -/
theorem step_cases (hstep : m.step t c = some m') :
    (∃ p, t = .proc p ∧
      (procInstr m.tab p c (m.pc (.proc p))).bind (m.exec (.proc p)) = some m') ∨
    (∃ d, t = .cpu d ∧ (cpuInstr m.tab c (m.pc (.cpu d))).bind (m.exec (.cpu d)) = some m') ∨
    (∃ p d k next, m.pc (.proc p) = .sched k ∧ m.pc (.cpu d) = .running p ∧
      ((k = none ∧ next = .zombie) ∨ ∃ r, k = some r ∧ next = .off r) ∧
      m' = m.swtchOut p d next) ∨
    ∃ p d k, m.pc (.cpu d) = .scanCheck p ∧ m.pc (.proc p) = .off k ∧
      (m.tab.proc p).state = .runnable ∧ m' = m.swtchIn p d k := by
  cases t with
  | proc p =>
    simp only [Machine.step] at hstep
    split at hstep
    · rename_i k d hpc
      split at hstep
      · rename_i q hcpu
        split at hstep
        · rename_i hq
          subst hq
          cases hstep
          refine Or.inr (Or.inr (Or.inl ⟨q, d, k, _, hpc, hcpu, ?_, rfl⟩))
          cases k with
          | none => exact Or.inl ⟨rfl, rfl⟩
          | some r => exact Or.inr ⟨r, rfl, rfl⟩
        · cases hstep
      · cases hstep
    · exact Or.inl ⟨p, rfl, hstep⟩
  | cpu d =>
    simp only [Machine.step] at hstep
    split at hstep
    · rename_i i hcpu
      split at hstep
      · rename_i hready
        split at hstep
        · rename_i k hpc
          cases hstep
          exact Or.inr (Or.inr (Or.inr ⟨i, d, k, hcpu, hpc, hready, rfl⟩))
        · cases hstep
      · rw [← hcpu] at hstep
        exact Or.inr (Or.inl ⟨d, rfl, hstep⟩)
    · exact Or.inr (Or.inl ⟨d, rfl, hstep⟩)

/-- Every step keeps the invariant. -/
theorem machineInv_step (h : MachineInv m) (hstep : m.step t c = some m') : MachineInv m' := by
  rcases step_cases hstep with ⟨p, -, hp⟩ | ⟨d, -, hd⟩ | ⟨p, d, k, next, hpc, hcpu, hnext, rfl⟩ |
    ⟨p, d, k, hcpu, hpc, hready, rfl⟩
  · exact h.proc hp
  · exact h.cpu hd
  · exact h.swtchOut hpc hcpu hnext
  · exact h.swtchIn hcpu hpc hready

/-- The machine after boot. -/
theorem machineInv_boot (n : Nat) : MachineInv (Machine.boot n) := by
  have hpc : ∀ p : Slot, (Machine.boot n).pc (.proc p)
      = if p = initproc then .off .first else .idle := fun _ => rfl
  have hproc : ∀ p : Slot, p ≠ initproc →
      ((Machine.boot n).tab.proc p).state = .unused := by
    intro p hp
    show (if p = initproc then _ else _ : Proc).state = _
    rw [if_neg hp]
  have hinit : ((Machine.boot n).tab.proc initproc).state = .runnable := rfl
  have hparent : ∀ p : Slot, ((Machine.boot n).tab.proc p).parent = none := by
    intro p
    show (if p = initproc then _ else _ : Proc).parent = _
    split <;> rfl
  have hstage : ∀ p : Slot, pcFork ((Machine.boot n).pc (.proc p)) = .none ∧
      pcExit ((Machine.boot n).pc (.proc p)) = .none ∧
      pcWait ((Machine.boot n).pc (.proc p)) = none := by
    intro p
    rw [hpc]
    split <;> exact ⟨rfl, rfl, rfl⟩
  constructor
  · intro t l
    constructor
    · intro hc
      cases hc
    · intro hc
      unfold Holds at hc
      cases t with
      | proc p =>
        rw [hpc] at hc
        split at hc <;> cases hc
      | cpu c => cases hc
  · constructor
    case mode =>
      intro p
      by_cases hp : p = initproc
      · rw [hpc, if_pos hp, hp, hinit]
        exact Or.inl (Or.inr (Or.inl rfl))
      · rw [hpc, if_neg hp]
        exact Or.inl (hproc p hp)
    case orphan => exact fun i _ => hparent i
    case parent => intro i q hq; rw [hparent] at hq; cases hq
    case linked => exact fun i hi hst => absurd (hproc i hi) hst
    case init => exact ⟨Or.inr (Or.inl rfl), rfl⟩
    case fork => intro p; simp only [hstage]; trivial
    case forkUniq => intro p q np hp; simp only [hstage] at hp; cases hp
    case exit => intro p; simp only [hstage]; exact fun _ v => List.not_mem_nil
    case wait => intro p np hp; simp only [hstage] at hp; cases hp
    case genLt => exact fun i _ => Nat.zero_lt_one
    case genInj =>
      intro i j hi hj _
      have hi' : i = initproc := by_contra fun hc => hi (hproc i hc)
      have hj' : j = initproc := by_contra fun hc => hj (hproc j hc)
      rw [hi', hj']
    case below => exact nofun
    case forker => intro i q hq; rw [hparent] at hq; cases hq
    case forked => exact nofun
    case forkedBy => intro i hi hst; exact absurd (hproc i hi) hst
    case waited => exact nofun
    case lawful => trivial

/-- The invariant holds along every run. -/
theorem machineInv_run {acts : List (Thread n × Choice n)} (h : MachineInv m)
    (hrun : m.run acts = some m') : MachineInv m' := by
  induction acts generalizing m with
  | nil =>
    cases hrun
    exact h
  | cons a acts ih =>
    obtain ⟨m₁, hstep, hrest⟩ := Option.bind_eq_some_iff.mp hrun
    exact ih (machineInv_step h hstep) hrest

end Xv6.Proofs
