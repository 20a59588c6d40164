import Xv6.Proofs.Proc.Run

/-!
# `Xv6.Proofs.Proc.Writes`: what a step writes into the process table

All steps of all threads in one list (`TableWrite`). Most of them leave the table alone or change an
entry in use. What is left are the steps that mark a process, hand out a pid, take or free a slot,
or add to the history.
-/

set_option autoImplicit false

namespace Xv6.Proofs

variable {n : Nat} {m m' : Machine n} {p : Slot} {c : Choice n} {t : Thread n} {ins : Instr}

theorem MachineInv.not_unused (h : MachineInv m) (hpc : pcMode (m.pc (.proc p)) = .active) :
    (m.tab.proc p).state ≠ .unused := (Live.ne (h.table.live_of_active hpc)).1

/-- What a step of thread `t` writes. -/
inductive TableWrite (m : Machine n) (c : Choice n) : Thread n → Table → Prop
  | same {t : Thread n} : TableWrite m c t m.tab
  /-- the entry keeps its pid and its mark, and that of a zombie its status too -/
  | entry {t : Thread n} (j : Slot) (q : Proc) (forker : Slot → Nat)
      (hused : (m.tab.proc j).state ≠ .unused) (hst : q.state ≠ .unused)
      (hkilled : q.killed = (m.tab.proc j).killed) (hpid : q.pid = (m.tab.proc j).pid)
      (hzombie : (m.tab.proc j).state = .zombie →
        q.state = .zombie ∧ q.xstate = (m.tab.proc j).xstate) :
    TableWrite m c t { m.tab.upd j q with forker := forker }
  | trap {p : Slot} (hpc : m.pc (.proc p) = .user) (hc : c = .trap) :
    TableWrite m c (.proc p) (m.tab.upd p { m.tab.proc p with killed := true })
  | kill {p : Slot} (j : Slot) (hpc : m.pc (.proc p) = .killCheck j (m.tab.proc j).pid) :
    TableWrite m c (.proc p) (m.tab.kill j)
  | pidNext {p : Slot} (np : Slot) (hpc : m.pc (.proc p) = .pidNext np) :
    TableWrite m c (.proc p) { m.tab with nextpid := m.tab.nextpid + 1 }
  | alloc {p : Slot} (np : Slot) (pid : CInt) (hpc : m.pc (.proc p) = .allocUsed np pid)
      (hfree : (m.tab.proc np).state = .unused) : TableWrite m c (.proc p) (m.tab.alloc np pid)
  | free {p : Slot} (np : Slot) (hused : (m.tab.proc np).state = .used) :
    TableWrite m c (.proc p) (m.tab.freeproc np)
  | reap {p : Slot} (addr : Nat) (np : Slot) (hpc : m.pc (.proc p) = .waitCheck addr np)
      (hcopied : ¬ (addr ≠ 0 ∧ c.fails = true)) :
    TableWrite m c (.proc p) ((m.tab.freeproc np).log (.waited (m.tab.gen p) (m.tab.gen np)
      (m.tab.proc np).pid (if addr = 0 then none else some (m.tab.proc np).xstate)))
  | exited {p : Slot} (status : CInt) :
    TableWrite m c (.proc p) (m.tab.log (.exited (m.tab.gen p) status))
  | forked {p : Slot} (np : Slot) (hused : (m.tab.proc np).state ≠ .unused) :
    TableWrite m c (.proc p) (m.tab.log (.forked (m.tab.gen p) (m.tab.gen np) (m.tab.proc np).pid))

/-- A process that runs writes its own entry. -/
theorem TableWrite.own (h : MachineInv m) (hpc : pcMode (m.pc (.proc p)) = .active) {q : Proc}
    (hst : q.state ≠ .unused) (hkilled : q.killed = (m.tab.proc p).killed)
    (hpid : q.pid = (m.tab.proc p).pid) : TableWrite m c t (m.tab.upd p q) := by
  have hne := Live.ne (h.table.live_of_active hpc)
  exact .entry p q m.tab.forker hne.1 hst hkilled hpid fun hz => absurd hz hne.2.2

theorem TableWrite.wake (j : Slot) (chan : Option Chan) : TableWrite m c t (m.tab.wake j chan) := by
  unfold Table.wake
  dsimp only
  split
  · rename_i hsleep
    refine .entry j _ m.tab.forker ?_ (fun hst => by cases hst) rfl rfl fun hz => ?_
    · rw [hsleep.1]
      exact fun hst => by cases hst
    · rw [hsleep.1] at hz
      cases hz
  · exact .same

theorem wakeInstr_writes {self : Option Slot} {pc : Pc} (h : wakeInstr m.tab self pc = some ins) :
    TableWrite m c t (insTab m.tab ins) := by
  unfold wakeInstr at h
  split at h
  · split at h
    · split at h <;> cases h <;> exact .same
    · cases h
      exact .same
  · cases h
    exact .wake _ _
  · cases h
    exact .same
  · cases h

theorem userInstr_writes (hpc : m.pc (.proc p) = .user) (hins : userInstr m.tab p c = some ins) :
    TableWrite m c (.proc p) (insTab m.tab ins) := by
  cases c <;> simp only [userInstr, reduceCtorEq] at hins
  case exit status =>
    split at hins <;> cases hins
    exact .exited status
  case trap =>
    cases hins
    exact .trap hpc rfl
  all_goals
    cases hins
    exact .same

/-- Every step of a process is one of these writes. -/
theorem procInstr_writes (h : MachineInv m)
    (hins : procInstr m.tab p c (m.pc (.proc p)) = some ins) :
    TableWrite m c (.proc p) (insTab m.tab ins) := by
  have hfork := h.table.fork p
  have hown {q : Proc} (hmode : pcMode (m.pc (.proc p)) = .active) :
      q.state ≠ .unused → q.killed = (m.tab.proc p).killed → q.pid = (m.tab.proc p).pid →
        TableWrite m c (.proc p) (m.tab.upd p q) := .own h hmode
  -- the slot of a `fork` is `USED` until it runs
  have hslot {np : Slot} {q : Proc} (f : Slot → Nat) (hst : (m.tab.proc np).state = .used) :
      q.state ≠ .unused → q.killed = (m.tab.proc np).killed → q.pid = (m.tab.proc np).pid →
        TableWrite m c (.proc p) { m.tab.upd np q with forker := f } := fun hq hk hpid =>
    .entry np q f (hst ▸ fun hc => by cases hc) hq hk hpid fun hz => by rw [hst] at hz; cases hz
  cases hpc : m.pc (.proc p) <;> rw [hpc] at hins hfork hown <;>
    simp only [procInstr, sleepInstr, wakeInstr, killInstr, forkInstr, exitInstr, waitInstr,
      Option.none_or, Option.or_none, Option.some.injEq, reduceCtorEq] at hins
  case user => exact userInstr_writes hpc hins
  case back k =>
    cases k <;> cases hins
    · exact .same
    · exact .same
    · exact hown rfl (h.not_unused (by rw [hpc]; rfl)) rfl rfl
  case awake w => cases w <;> cases hins <;> exact .same
  case yieldSet | sleepSet | exitSet | waitSleepSet =>
    subst hins
    exact hown rfl (fun hst => by cases hst) rfl rfl
  case wakeCheck j chan _ =>
    subst hins
    exact .wake j chan
  case killCheck j pid =>
    split at hins <;> cases hins
    · rename_i hpid
      exact .kill j (hpid ▸ hpc)
    · exact .same
  case pidNext np =>
    subst hins
    exact .pidNext np hpc
  case allocUsed np pid =>
    subst hins
    exact .alloc np pid hpc hfork
  case forkCopy np =>
    split at hins <;> cases hins
    · exact .free np hfork.1
    · exact .same
  case forkParent np pid =>
    subst hins
    exact hslot _ hfork.1 (hfork.1 ▸ fun hst => by cases hst) rfl rfl
  case forkRun np pid =>
    subst hins
    exact hslot m.tab.forker hfork.1 (fun hst => by cases hst) rfl rfl
  case forkRet np pid =>
    subst hins
    obtain ⟨hst, -, rfl, -⟩ := hfork
    exact .forked np hst
  case reparent status j =>
    split at hins
    · split at hins <;> cases hins
      · rename_i hj hparent
        -- a slot with a parent is not free
        have hst : (m.tab.proc ⟨j, hj⟩).state ≠ .unused := fun hun => by
          rw [h.table.orphan _ hun] at hparent
          cases hparent
        exact .entry _ _ m.tab.forker hst hst rfl rfl fun hz => ⟨hz, rfl⟩
      · exact .same
    · cases hins
      exact .same
  case waitCheck addr np =>
    split at hins
    · split at hins <;> cases hins
      · exact .same
      · exact .reap addr np hpc ‹_›
    · cases hins
      exact .same
  case wake => split at hins <;> (try split at hins) <;> cases hins <;> exact .same
  case kill | alloc | allocCheck => split at hins <;> cases hins <;> exact .same
  case waitScan => split at hins <;> split at hins <;> cases hins <;> exact .same
  all_goals
    subst hins
    exact .same

/-- Every step of every thread is one of these writes. -/
theorem step_writes (h : MachineInv m) (hstep : m.step t c = some m') :
    TableWrite m c t m'.tab := by
  rcases step_cases hstep with ⟨p, rfl, hp⟩ | ⟨d, -, hd⟩ | ⟨p, d, k, next, -, -, -, rfl⟩ |
    ⟨p, d, k, -, -, hready, rfl⟩
  · obtain ⟨ins, hins, hexec⟩ := Option.bind_eq_some_iff.mp hp
    rw [(exec_proc hexec).1]
    exact procInstr_writes h hins
  · obtain ⟨ins, hins, hexec⟩ := Option.bind_eq_some_iff.mp hd
    have hset : ∀ tab j slotPc next, ins ≠ .setSlot tab j slotPc next := by
      rintro tab j slotPc next rfl
      exact cpuInstr_ne_setSlot hins
    rw [(exec_cpu hset hexec).1]
    unfold cpuInstr at hins
    split at hins
    · split at hins <;> cases hins <;> exact .same
    · split at hins <;> cases hins
      exact .same
    · cases hins
      exact .same
    · exact wakeInstr_writes hins
  · exact .same
  · refine .entry p _ m.tab.forker ?_ (fun hst => by cases hst) rfl rfl fun hz => ?_
    · rw [hready]
      exact fun hst => by cases hst
    · rw [hready] at hz
      cases hz

end Xv6.Proofs
