import Xv6.Proofs.Proc.Killed
import Mathlib.Data.BitVec

/-!
# `Xv6.Proofs.Proc.Pids`: process ids

`allocpid` hands out the values of `nextpid` one after the other, and nothing looks at the pids in
use. As long as `nextpid` stays a positive `int`, all pids that have been handed out are smaller, so
they are positive and different (`pids_unique`). `PidInv` says this of the slots and of the pids on
their way from `allocpid` to the slot.

Rounds of `fork`, `exit` and `wait` run through all values of `nextpid` (`exists_forked`). Then
`fork` returns a negative pid, and later one that is in use (`pids_wrap`).
-/

set_option autoImplicit false

namespace Xv6.Proofs

open Function (update update_eq_self update_idem update_of_ne update_self)
open List
open Lib

variable {n : Nat}

variable {acts : List (Thread n × Choice n)} {t : Thread n}

/-- The largest `int`. -/
def INT_MAX : CInt := BitVec.ofNat 32 (2 ^ 31 - 1)

/-- No two processes have the same pid. -/
def PidsUnique (tab : Table) : Prop :=
  ∀ i j, (tab.proc i).state ≠ .unused → (tab.proc j).state ≠ .unused →
    (tab.proc i).pid = (tab.proc j).pid → i = j

/-- Every `fork` that succeeded has returned a positive value. -/
def ForksPositive (tab : Table) : Prop :=
  ∀ g child pid, Event.forked g child pid ∈ tab.events → 0 < pid.toInt

/-- The next step is the increment of `nextpid`. -/
def takesPid : Pc → Bool
  | .pidNext _ => true
  | _ => false

/-- The step of thread `t` does not increment `nextpid` beyond the largest `int`. -/
def NoOverflow (m : Machine n) (t : Thread n) : Prop :=
  takesPid (m.pc t) = true → m.tab.nextpid ≠ INT_MAX

instance (m : Machine n) (t : Thread n) : Decidable (NoOverflow m t) :=
  inferInstanceAs (Decidable (_ → _))

/-! ### The invariant -/

/-- The pid that a process has got from `allocpid` for a slot that is still free. -/
def pcPid : Pc → Option CInt
  | .pidRel _ pid => some pid
  | .allocUsed _ pid => some pid
  | _ => none

/-- The pid has been handed out. -/
def Given (tab : Table) (pid : CInt) : Prop := 0 < pid.toNat ∧ pid.toNat < tab.nextpid.toNat

/-- All pids have been handed out, each of them once. -/
structure PidInv (tab : Table) (pc : Slot → Pc) : Prop where
  next : 0 < tab.nextpid.toNat ∧ tab.nextpid.toNat < 2 ^ 31
  used : ∀ i, (tab.proc i).state ≠ .unused → Given tab (tab.proc i).pid
  unique : PidsUnique tab
  held : ∀ p pid, pcPid (pc p) = some pid → Given tab pid
  fresh : ∀ p pid, pcPid (pc p) = some pid → ∀ i, (tab.proc i).state ≠ .unused →
    (tab.proc i).pid ≠ pid
  heldUnique : ∀ p q pid, pcPid (pc p) = some pid → pcPid (pc q) = some pid → p = q
  forks : ForksPositive tab

section Steps

variable {tab tab' : Table} {pc pc' : Slot → Pc}

theorem toInt_pos_of_given (h : PidInv tab pc) {pid : CInt} (hpid : Given tab pid) :
    0 < pid.toInt := by
  have hnext := h.next.2
  have hlt := hpid.2
  rw [BitVec.toInt_eq_toNat_of_lt (by omega)]
  exact_mod_cast hpid.1

/-- The step makes no new process, and `fork` returns the pid of a process that is there. -/
structure PidsKept (tab tab' : Table) : Prop where
  next : tab'.nextpid = tab.nextpid
  slot : ∀ i, (tab'.proc i).state ≠ .unused →
    (tab.proc i).state ≠ .unused ∧ (tab'.proc i).pid = (tab.proc i).pid
  forked : ∀ g child pid, Event.forked g child pid ∈ tab'.events →
    Event.forked g child pid ∈ tab.events ∨
      ∃ i, (tab.proc i).state ≠ .unused ∧ (tab.proc i).pid = pid

theorem pidsKept_refl (tab : Table) : PidsKept tab tab :=
  ⟨rfl, fun _ h => ⟨h, rfl⟩, fun _ _ _ h => .inl h⟩

theorem pidsKept_upd {i : Slot} {q : Proc} (hst : (tab.proc i).state ≠ .unused)
    (hpid : q.pid = (tab.proc i).pid) : PidsKept tab (tab.upd i q) := by
  refine ⟨rfl, fun j hj => ?_, fun _ _ _ h => .inl h⟩
  rw [upd_proc] at hj ⊢
  split at hj
  · rename_i heq
    rw [if_pos heq, heq]
    exact ⟨hst, hpid⟩
  · rename_i hne
    rw [if_neg hne]
    exact ⟨hj, rfl⟩

theorem pidsKept_freeproc (tab : Table) (i : Slot) : PidsKept tab (tab.freeproc i) := by
  refine ⟨rfl, fun j hj => ?_, fun _ _ _ h => .inl h⟩
  unfold Table.freeproc at hj ⊢
  rw [upd_proc] at hj ⊢
  split at hj
  · exact absurd rfl hj
  · rename_i hne
    rw [if_neg hne]
    exact ⟨hj, rfl⟩

theorem SameProcs.pidsKept (h : SameProcs tab tab') (hnext : tab'.nextpid = tab.nextpid) :
    PidsKept tab tab' where
  next := hnext
  slot i hi := ⟨fun hun => hi ((h.state_iff i not_live_unused).mpr hun), h.pid i⟩
  forked _ _ _ he := .inl (h.events ▸ he)

/-- A step that hands out no pid. -/
theorem PidInv.kept (h : PidInv tab pc) (hk : PidsKept tab tab')
    (hpc : ∀ q pid, pcPid (pc' q) = some pid → pcPid (pc q) = some pid) : PidInv tab' pc' where
  next := hk.next ▸ h.next
  used i hi := by
    obtain ⟨hst, hpid⟩ := hk.slot i hi
    unfold Given
    rw [hpid, hk.next]
    exact h.used i hst
  unique i j hi hj heq := by
    obtain ⟨hi, hpi⟩ := hk.slot i hi
    obtain ⟨hj, hpj⟩ := hk.slot j hj
    exact h.unique i j hi hj (hpi.symm.trans (heq.trans hpj))
  held p pid hp := by
    unfold Given
    rw [hk.next]
    exact h.held p pid (hpc p pid hp)
  fresh p pid hp i hi := by
    obtain ⟨hst, hpid⟩ := hk.slot i hi
    rw [hpid]
    exact h.fresh p pid (hpc p pid hp) i hst
  heldUnique p q pid hp hq := h.heldUnique p q pid (hpc p pid hp) (hpc q pid hq)
  forks g child pid he := by
    rcases hk.forked g child pid he with he | ⟨i, hst, rfl⟩
    · exact h.forks g child pid he
    · exact toInt_pos_of_given h (h.used i hst)

/-- `allocpid`. -/
theorem PidInv.next_pid (h : PidInv tab pc) {p np : Slot} (hmax : tab.nextpid ≠ INT_MAX) :
    PidInv { tab with nextpid := tab.nextpid + 1 } (update pc p (.pidRel np tab.nextpid)) := by
  have hnext := h.next
  have hne : tab.nextpid.toNat ≠ 2 ^ 31 - 1 := fun heq => hmax (BitVec.eq_of_toNat_eq heq)
  have hadd : (tab.nextpid + 1).toNat = tab.nextpid.toNat + 1 := by
    rw [BitVec.toNat_add]
    show (tab.nextpid.toNat + 1) % 2 ^ 32 = _
    rw [Nat.mod_eq_of_lt (by omega)]
  have hgiven : ∀ pid, Given tab pid → Given { tab with nextpid := tab.nextpid + 1 } pid :=
    fun pid hpid => ⟨hpid.1, show pid.toNat < (tab.nextpid + 1).toNat by have := hpid.2; omega⟩
  -- a pid that is on its way was handed out before, or is the new one
  have hpcs : ∀ q pid, pcPid (update pc p (.pidRel np tab.nextpid) q) = some pid →
      (q = p ∧ pid = tab.nextpid) ∨ (q ≠ p ∧ pcPid (pc q) = some pid) := by
    intro q pid hq
    by_cases hqp : q = p
    · rw [hqp, update_self] at hq
      exact .inl ⟨hqp, (Option.some.inj hq).symm⟩
    · rw [update_of_ne hqp] at hq
      exact .inr ⟨hqp, hq⟩
  have hold : ∀ pid, Given tab pid → pid ≠ tab.nextpid := by
    rintro pid hpid rfl
    exact Nat.lt_irrefl _ hpid.2
  refine ⟨⟨?_, ?_⟩, fun i hi => hgiven _ (h.used i hi), h.unique, fun q pid hq => ?_,
    fun q pid hq i hi => ?_, fun q r pid hq hr => ?_, h.forks⟩
  · show 0 < (tab.nextpid + 1).toNat
    omega
  · show (tab.nextpid + 1).toNat < 2 ^ 31
    omega
  · rcases hpcs q pid hq with ⟨-, rfl⟩ | ⟨-, hq⟩
    · exact ⟨hnext.1, show _ < (tab.nextpid + 1).toNat by omega⟩
    · exact hgiven pid (h.held q pid hq)
  · rcases hpcs q pid hq with ⟨-, rfl⟩ | ⟨-, hq⟩
    · exact hold _ (h.used i hi)
    · exact h.fresh q pid hq i hi
  · rcases hpcs q pid hq with ⟨hqp, hpid⟩ | ⟨-, hq⟩ <;>
      rcases hpcs r pid hr with ⟨hrp, hpid'⟩ | ⟨-, hr⟩
    · rw [hqp, hrp]
    · exact absurd hpid (hold pid (h.held r pid hr))
    · exact absurd hpid' (hold pid (h.held q pid hq))
    · exact h.heldUnique q r pid hq hr

/-- The slot gets its pid. -/
theorem PidInv.alloc (h : PidInv tab pc) {p np : Slot} {pid : CInt}
    (hpc : pc p = .allocUsed np pid) : PidInv (tab.alloc np pid) (update pc p (.forkCopy np)) := by
  have hp : pcPid (pc p) = some pid := by rw [hpc]; rfl
  have hproc : ∀ i, (tab.alloc np pid).proc i
      = if i = np then { tab.proc np with pid := pid, state := .used } else tab.proc i :=
    fun i => upd_proc tab np i _
  have hpcs : ∀ q pid', pcPid (update pc p (.forkCopy np) q) = some pid' →
      q ≠ p ∧ pcPid (pc q) = some pid' := by
    intro q pid' hq
    by_cases hqp : q = p
    · rw [hqp, update_self] at hq
      cases hq
    · rw [update_of_ne hqp] at hq
      exact ⟨hqp, hq⟩
  refine ⟨h.next, fun i hi => ?_, fun i j hi hj heq => ?_,
    fun q pid' hq => h.held q pid' (hpcs q pid' hq).2, fun q pid' hq i hi => ?_,
    fun q r pid' hq hr => h.heldUnique q r pid' (hpcs q pid' hq).2 (hpcs r pid' hr).2, h.forks⟩
  · rw [hproc] at hi ⊢
    split at hi
    · rename_i heq
      rw [if_pos heq]
      exact h.held p pid hp
    · rename_i hne
      rw [if_neg hne]
      exact h.used i hi
  · rw [hproc, hproc] at heq
    rw [hproc] at hi hj
    by_cases hin : i = np <;> by_cases hjn : j = np
    · rw [hin, hjn]
    · rw [if_pos hin, if_neg hjn] at heq
      rw [if_neg hjn] at hj
      exact absurd heq.symm (h.fresh p pid hp j hj)
    · rw [if_neg hin, if_pos hjn] at heq
      rw [if_neg hin] at hi
      exact absurd heq (h.fresh p pid hp i hi)
    · rw [if_neg hin, if_neg hjn] at heq
      rw [if_neg hin] at hi
      rw [if_neg hjn] at hj
      exact h.unique i j hi hj heq
  · obtain ⟨hqp, hq⟩ := hpcs q pid' hq
    rw [hproc] at hi ⊢
    split at hi
    · rename_i heq
      rw [if_pos heq]
      rintro rfl
      exact hqp (h.heldUnique q p _ hq hp)
    · rename_i hne
      rw [if_neg hne]
      exact h.fresh q pid' hq i hi

end Steps

/-! ### The steps -/

/-- The step puts no new pid on its way. -/
def SamePids (pc : Pc) : Instr → Prop
  | .acquire _ next => pcPid next = none ∨ pcPid next = pcPid pc
  | .release _ next => pcPid next = none ∨ pcPid next = pcPid pc
  | .set _ next => pcPid next = none ∨ pcPid next = pcPid pc
  | .setSlot _ _ slotPc next => pcPid slotPc = none ∧ pcPid next = none

/-- No process carries a pid after the step that it did not carry before. -/
theorem SamePids.insPcs {pc : Slot → Pc} {p : Slot} {ins : Instr} (h : SamePids (pc p) ins) :
    ∀ q pid, pcPid (insPcs pc p ins q) = some pid → pcPid (pc q) = some pid := by
  -- the program counter of the process
  have hnext : ∀ next, (pcPid next = none ∨ pcPid next = pcPid (pc p)) →
      ∀ q pid, pcPid (update pc p next q) = some pid → pcPid (pc q) = some pid := by
    intro next hnext q pid hq
    by_cases hqp : q = p
    · rw [hqp, update_self] at hq
      rcases hnext with hn | hn <;> rw [hn] at hq
      · cases hq
      · rw [hqp, hq]
    · rwa [update_of_ne hqp] at hq
  cases ins with
  | acquire l next => exact hnext next h
  | release l next => exact hnext next h
  | set tab next => exact hnext next h
  | setSlot tab i slotPc next =>
    intro q pid hq
    replace hq : pcPid (update (update pc p next) i slotPc q) = some pid := hq
    by_cases hqi : q = i
    · rw [hqi, update_self, h.1] at hq
      cases hq
    · rw [update_of_ne hqi] at hq
      exact hnext next (.inl h.2) q pid hq

section

variable {m : Machine n} {p : Slot} {c : Choice n} {ins : Instr}

/-- Only `allocpid` hands out a pid. -/
theorem procInstr_samePids {tab : Table} {pc : Pc} (hins : procInstr tab p c pc = some ins) :
    (∃ np, pc = .pidNext np) ∨ SamePids pc ins := by
  cases pc <;> simp only [procInstr, sleepInstr, wakeInstr, killInstr, forkInstr, exitInstr,
    waitInstr, Option.none_or, Option.or_none, Option.some.injEq, reduceCtorEq] at hins
  case pidNext np => exact .inl ⟨np, rfl⟩
  all_goals right
  case pidRel =>
    subst hins
    exact .inr rfl
  case user => cases c <;> simp only [userInstr, reduceCtorEq] at hins <;> (try split at hins) <;>
    cases hins <;> exact .inl rfl
  case wake _ _ c =>
    split at hins <;> (try split at hins) <;> cases hins
    · exact .inl rfl
    · exact .inl rfl
    · exact .inl (by cases c <;> rfl)
  case killRel _ _ found =>
    subst hins
    exact .inl (by cases found <;> rfl)
  case back k => cases k <;> cases hins <;> exact .inl rfl
  case awake w => cases w <;> cases hins <;> exact .inl rfl
  case forkCopy => split at hins <;> cases hins <;> exact ⟨rfl, rfl⟩
  case waitCheck =>
    split at hins <;> (try split at hins) <;> cases hins
    · exact .inl rfl
    · exact ⟨rfl, rfl⟩
    · exact .inl rfl
  case kill | killCheck | alloc | allocCheck => split at hins <;> cases hins <;> exact .inl rfl
  case reparent => split at hins <;> (try split at hins) <;> cases hins <;> exact .inl rfl
  case waitScan => split at hins <;> split at hins <;> cases hins <;> exact .inl rfl
  all_goals
    subst hins
    exact .inl rfl

/-- What a step that hands out no pid writes. -/
theorem TableWrite.pidsKept {tab' : Table} (hwrote : TableWrite m c t tab') (h : MachineInv m) :
    (∃ p np, t = .proc p ∧ m.pc (.proc p) = .pidNext np) ∨
      (∃ p np pid, t = .proc p ∧ m.pc (.proc p) = .allocUsed np pid) ∨ PidsKept m.tab tab' := by
  cases hwrote
  case pidNext p np hpc => exact .inl ⟨p, np, rfl, hpc⟩
  case alloc p np pid hpc _ => exact .inr (.inl ⟨p, np, pid, rfl, hpc⟩)
  all_goals refine .inr (.inr ?_)
  case same => exact pidsKept_refl _
  case entry j q _ hused _ _ hpid _ =>
    have hupd := pidsKept_upd hused hpid
    exact ⟨hupd.next, hupd.slot, hupd.forked⟩
  case trap p hpc _ => exact pidsKept_upd (h.not_unused (by rw [hpc]; rfl)) rfl
  case kill j _ => exact (sameProcs_kill m.tab j).pidsKept rfl
  case free np _ => exact pidsKept_freeproc _ np
  case reap p addr np _ _ =>
    have hfree := pidsKept_freeproc m.tab np
    refine ⟨hfree.next, hfree.slot, fun g child pid he => ?_⟩
    exact .inl ((mem_cons.mp he).resolve_left fun h => by cases h)
  case exited =>
    refine ⟨rfl, fun _ h => ⟨h, rfl⟩, fun _ _ _ he => .inl ?_⟩
    exact (mem_cons.mp he).resolve_left fun h => by cases h
  case forked p np hused =>
    refine ⟨rfl, fun _ h => ⟨h, rfl⟩, fun g child pid' he => ?_⟩
    rcases mem_cons.mp he with he | he
    · cases he
      exact .inr ⟨np, hused, rfl⟩
    · exact .inl he

/-- Every step that does not overflow `nextpid` keeps the pids below it and apart. -/
theorem pidInv_step {m' : Machine n} (h : MachineInv m) (hp : PidInv m.tab fun q => m.pc (.proc q))
    (hno : NoOverflow m t) (hstep : m.step t c = some m') :
    PidInv m'.tab fun q => m'.pc (.proc q) := by
  rcases step_cases hstep with ⟨p, rfl, hproc⟩ | ⟨d, rfl, hcpu⟩ |
    ⟨p, d, k, next, -, -, hnext, rfl⟩ | ⟨p, d, k, -, -, hready, rfl⟩
  · obtain ⟨ins, hins, hexec⟩ := Option.bind_eq_some_iff.mp hproc
    obtain ⟨htab, hpcs⟩ := exec_proc hexec
    rw [htab, hpcs]
    rcases (procInstr_writes h hins).pidsKept h with
      ⟨_, np, ⟨⟩, hpc⟩ | ⟨_, np, pid, ⟨⟩, hpc⟩ | hkept
    · rw [hpc] at hins
      cases hins
      exact hp.next_pid (hno (by rw [hpc]; rfl))
    · rw [hpc] at hins
      cases hins
      exact hp.alloc hpc
    · rcases procInstr_samePids hins with ⟨np, hpc⟩ | hsame
      · rw [hpc] at hins
        cases hins
        exact hp.next_pid (hno (by rw [hpc]; rfl))
      · have hpcs : SamePids ((fun q => m.pc (.proc q)) p) ins := hsame
        exact hp.kept hkept hpcs.insPcs
  · obtain ⟨ins, hins, hexec⟩ := Option.bind_eq_some_iff.mp hcpu
    have hset : ∀ tab j slotPc next, ins ≠ .setSlot tab j slotPc next := by
      rintro tab j slotPc next rfl
      exact cpuInstr_ne_setSlot hins
    obtain ⟨htab, hpcs⟩ := exec_cpu hset hexec
    rw [hpcs]
    rcases (step_writes h hstep).pidsKept h with ⟨_, _, ht, -⟩ | ⟨_, _, _, ht, -⟩ | hkept
    · cases ht
    · cases ht
    · exact hp.kept hkept fun _ _ hq => hq
  · -- the processes are switched, and none of them is in `allocproc`
    refine hp.kept (pidsKept_refl _) fun q pid hq => ?_
    unfold Machine.swtchOut at hq
    dsimp only at hq
    rw [update_of_ne (fun h => by cases h)] at hq
    by_cases hqp : q = p
    · rw [hqp, update_self] at hq
      rcases hnext with ⟨-, rfl⟩ | ⟨r, -, rfl⟩ <;> cases hq
    · rwa [update_of_ne fun h => hqp (by injection h)] at hq
  · have hst : (m.tab.proc p).state ≠ .unused := by
      rw [hready]
      exact fun h => by cases h
    refine hp.kept (pidsKept_upd hst rfl) fun q pid hq => ?_
    unfold Machine.swtchIn at hq
    dsimp only at hq
    rw [update_of_ne (fun h => by cases h)] at hq
    by_cases hqp : q = p
    · rw [hqp, update_self] at hq
      cases hq
    · rwa [update_of_ne fun h => hqp (by injection h)] at hq

end

/-! ### Runs -/

/-- The pids at the start. -/
theorem pidInv_boot (n : Nat) :
    PidInv (Machine.boot n).tab fun q => (Machine.boot n).pc (.proc q) := by
  have hnone : ∀ q, pcPid ((Machine.boot n).pc (.proc q)) = none := by
    intro q
    show pcPid (if q = initproc then _ else _) = none
    split <;> rfl
  have hinit : ∀ i, ((Machine.boot n).tab.proc i).state ≠ .unused → i = initproc := by
    intro i hi
    by_contra hne
    refine hi ?_
    show (if i = initproc then _ else _ : Proc).state = _
    rw [if_neg hne]
  have hnext : (Machine.boot n).tab.nextpid = 2 := rfl
  refine ⟨by rw [hnext]; decide, fun i hi => ?_, fun i j hi hj _ => by rw [hinit i hi, hinit j hj],
    fun q pid hq => ?_, fun q pid hq => ?_, fun q _ pid hq => ?_, fun _ _ _ he => ?_⟩
  · rw [hinit i hi]
    exact ⟨Nat.zero_lt_one, Nat.one_lt_two⟩
  · rw [hnone] at hq
    cases hq
  · rw [hnone] at hq
    cases hq
  · rw [hnone] at hq
    cases hq
  · cases he

/-- The pids along a run that does not overflow `nextpid`. -/
theorem pidInv_run : ∀ {m m' : Machine n}, MachineInv m →
    PidInv m.tab (fun q => m.pc (.proc q)) → StepsOk NoOverflow m acts →
    m.run acts = some m' → PidInv m'.tab fun q => m'.pc (.proc q) := by
  induction acts with
  | nil =>
    intro m m' _ hp _ hrun
    cases hrun
    exact hp
  | cons a acts ih =>
    intro m m' h hp hok hrun
    obtain ⟨m₁, hstep, hrest⟩ := Option.bind_eq_some_iff.mp hrun
    exact ih (machineInv_step h hstep) (pidInv_step h hp hok.1 hstep) (hok.2 m₁ hstep) hrest

/-- As long as `nextpid` does not overflow, the pids of all processes are different, and `fork`
returns positive values. -/
theorem pids_unique {acts : List (Thread n × Choice n)} {m : Machine n}
    (hrun : (Machine.boot n).run acts = some m)
    (hok : StepsOk NoOverflow (Machine.boot n) acts) : PidsUnique m.tab ∧ ForksPositive m.tab := by
  have hp := pidInv_run (machineInv_boot n) (pidInv_boot n) hok hrun
  exact ⟨hp.unique, hp.forks⟩

/-- The first process runs. -/
def initRuns : List (Thread 1 × Choice 1) :=
  List.replicate 2 (.cpu (Fin.last 0), .go) ++ [(.proc initproc, .go)]

/-- It calls `fork`. -/
def callFork : List (Thread 1 × Choice 1) :=
  (.proc initproc, .fork) :: List.replicate 18 (.proc initproc, .go)

/-- The first process runs and calls `fork`. -/
def forkOnce : List (Thread 1 × Choice 1) := initRuns ++ callFork

/-- The first process forks once. -/
theorem pids_unique_forkOnce : ∃ m, (Machine.boot 1).run forkOnce = some m ∧
    m.tab.events = [.forked 0 1 2] ∧ PidsUnique m.tab ∧ ForksPositive m.tab := by
  have hok : StepsOk NoOverflow (Machine.boot 1) forkOnce := by decide +kernel
  have hrun : (((Machine.boot 1).run forkOnce).any fun m => m.tab.events = [.forked 0 1 2])
      = true := by decide +kernel
  obtain ⟨m, hm, hevents⟩ := (Option.any_eq_true _ _).mp hrun
  exact ⟨m, hm, of_decide_eq_true hevents, pids_unique hm hok⟩

/-! ### The overflow

The machine looks at a pid only in `kill`. So two machines that differ in their pids only take the
same steps, and one round of `fork`, `exit` and `wait` shows what any number of them does.
-/

/-- The pid on its way from `nextpid` to the slot and to the caller of `fork` is greater by `d`.
What `wait` returns may be anything. -/
def PcShift (d : CInt) : Pc → Pc → Prop
  | .pidRel np pid, pc' => pc' = .pidRel np (pid + d)
  | .allocUsed np pid, pc' => pc' = .allocUsed np (pid + d)
  | .forkRel np pid, pc' => pc' = .forkRel np (pid + d)
  | .forkWait np pid, pc' => pc' = .forkWait np (pid + d)
  | .forkParent np pid, pc' => pc' = .forkParent np (pid + d)
  | .forkRelWait np pid, pc' => pc' = .forkRelWait np (pid + d)
  | .forkLock np pid, pc' => pc' = .forkLock np (pid + d)
  | .forkRun np pid, pc' => pc' = .forkRun np (pid + d)
  | .forkDone np pid, pc' => pc' = .forkDone np (pid + d)
  | .forkRet np pid, pc' => pc' = .forkRet np (pid + d)
  | .waitRel np _, pc' => ∃ ret, pc' = .waitRel np ret
  | .waitRet _, pc' => ∃ ret, pc' = .waitRet ret
  | pc, pc' => pc' = pc

/-- The pid of slot `i`, if it has one, is greater by `d`, except that of the first process. -/
structure ProcShift (d : CInt) (i : Slot) (q q' : Proc) : Prop where
  same : q' = { q with pid := q'.pid }
  pid : q.pid ≠ 0 → q'.pid = q.pid + if i = initproc then 0 else d

/-- All pids are greater by `d`. -/
structure TabShift (d : CInt) (tab tab' : Table) : Prop where
  next : tab'.nextpid = tab.nextpid + d
  proc : ∀ i, ProcShift d i (tab.proc i) (tab'.proc i)
  forked : ∀ g child pid, Event.forked g child pid ∈ tab.events →
    ∃ g' child', Event.forked g' child' (pid + d) ∈ tab'.events

inductive InstrShift (d : CInt) : Instr → Instr → Prop
  | acquire {l : LockId} {next next' : Pc} (hnext : PcShift d next next') :
      InstrShift d (.acquire l next) (.acquire l next')
  | release {l : LockId} {next next' : Pc} (hnext : PcShift d next next') :
      InstrShift d (.release l next) (.release l next')
  | set {tab tab' : Table} {next next' : Pc} (htab : TabShift d tab tab')
      (hnext : PcShift d next next') : InstrShift d (.set tab next) (.set tab' next')
  | setSlot {tab tab' : Table} {i : Slot} {slotPc next next' : Pc} (htab : TabShift d tab tab')
      (hslot : PcShift d slotPc slotPc) (hnext : PcShift d next next') :
      InstrShift d (.setSlot tab i slotPc next) (.setSlot tab' i slotPc next')

/-- The same machine with other pids. -/
structure Shifted (d : CInt) (m m' : Machine n) : Prop where
  tab : TabShift d m.tab m'.tab
  owner : m'.owner = m.owner
  pc : ∀ t, PcShift d (m.pc t) (m'.pc t)

/-- The step does not compare pids, and a pid that is given to a slot is not 0 and not that of the
first process. -/
def plain (m : Machine n) : Thread n → Bool
  | .proc p =>
    match m.pc (.proc p) with
    | .killCheck _ _ => false
    | .allocUsed np _ => np ≠ initproc
    | .forkCopy np => np ≠ initproc ∧ (m.tab.proc np).pid ≠ 0
    | _ => true
  | .cpu e =>
    match m.pc (.cpu e) with
    | .scan _ | .scanCheck _ | .scanRel _ => true
    | _ => false

section

variable {d : CInt} {tab tab' : Table} {p : Slot} {c : Choice n} {pc pc' : Pc} {ins : Instr}

theorem TabShift.upd (h : TabShift d tab tab') {i : Slot} {q q' : Proc} (hq : ProcShift d i q q') :
    TabShift d (tab.upd i q) (tab'.upd i q') := by
  refine ⟨h.next, fun j => ?_, h.forked⟩
  rw [upd_proc, upd_proc]
  split
  · rename_i hj
    exact hj ▸ hq
  · exact h.proc j

/-- The histories are the same up to the shift of the pids. -/
theorem TabShift.log (h : TabShift d tab tab') {e e' : Event}
    (he : ∀ g child pid, e = .forked g child pid → ∃ g' child', e' = .forked g' child' (pid + d)) :
    TabShift d (tab.log e) (tab'.log e') := by
  refine ⟨h.next, h.proc, fun g child pid hmem => ?_⟩
  rcases mem_cons.mp hmem with heq | hmem
  · obtain ⟨g', child', rfl⟩ := he g child pid heq.symm
    exact ⟨g', child', mem_cons_self⟩
  · obtain ⟨g', child', hmem'⟩ := h.forked g child pid hmem
    exact ⟨g', child', mem_cons_of_mem _ hmem'⟩

theorem TabShift.freeproc (h : TabShift d tab tab') (i : Slot) :
    TabShift d (tab.freeproc i) (tab'.freeproc i) :=
  h.upd ⟨rfl, fun hne => absurd rfl hne⟩

/-- A slot is taken with a pid that is shifted. -/
theorem TabShift.alloc (h : TabShift d tab tab') {np : Slot} (hnp : np ≠ initproc) (pid : CInt) :
    TabShift d (tab.alloc np pid) (tab'.alloc np (pid + d)) := by
  have hupd : TabShift d (tab.upd np { tab.proc np with pid := pid, state := .used })
      (tab'.upd np { tab'.proc np with pid := pid + d, state := .used }) :=
    h.upd ⟨by rw [(h.proc np).same], fun _ => by rw [if_neg hnp]⟩
  exact ⟨hupd.next, hupd.proc, hupd.forked⟩

/-- `wakeup` does not look at pids. -/
theorem TabShift.wake (h : TabShift d tab tab') (j : Slot) (chan : Option Chan) :
    TabShift d (tab.wake j chan) (tab'.wake j chan) := by
  have hsleeps : ((tab'.proc j).state = .sleeping ∧ (tab'.proc j).chan = chan)
      ↔ ((tab.proc j).state = .sleeping ∧ (tab.proc j).chan = chan) := by rw [(h.proc j).same]
  unfold Table.wake
  dsimp only
  split
  · rw [if_pos (hsleeps.mpr ‹_›)]
    exact h.upd ⟨by rw [(h.proc j).same], (h.proc j).pid⟩
  · rw [if_neg (hsleeps.not.mpr ‹_›)]
    exact h

/-- Tests of the table have the same outcome, since none of them is about a pid. -/
theorem procInstr_shift (h : TabShift d tab tab') (hpc : PcShift d pc pc')
    (hkill : ∀ i pid, pc ≠ .killCheck i pid)
    (halloc : ∀ np pid, pc = .allocUsed np pid → np ≠ initproc)
    (hcopy : ∀ np, pc = .forkCopy np → np ≠ initproc ∧ (tab.proc np).pid ≠ 0)
    (hins : procInstr tab p c pc = some ins) :
    ∃ ins', procInstr tab' p c pc' = some ins' ∧ InstrShift d ins ins' := by
  have hstate : ∀ i, (tab'.proc i).state = (tab.proc i).state := fun i => by rw [(h.proc i).same]
  have hparent : ∀ i, (tab'.proc i).parent = (tab.proc i).parent :=
    fun i => by rw [(h.proc i).same]
  have hkilled : ∀ i, (tab'.proc i).killed = (tab.proc i).killed :=
    fun i => by rw [(h.proc i).same]
  cases pc
  case killCheck i pid => exact absurd rfl (hkill i pid)
  case waitRel | waitRet =>
    obtain ⟨ret, rfl⟩ := hpc
    cases hins
    exact ⟨_, rfl, .release (by first | exact ⟨ret, rfl⟩ | exact rfl)⟩
  all_goals obtain rfl := hpc
  case back k =>
    cases k <;> cases hins
    · exact ⟨_, rfl, .release rfl⟩
    · exact ⟨_, rfl, .release rfl⟩
    · exact ⟨_, rfl, .set (h.upd ⟨by rw [(h.proc p).same], (h.proc p).pid⟩) rfl⟩
  case awake w => cases w <;> cases hins <;> exact ⟨_, rfl, .release rfl⟩
  all_goals simp only [procInstr, userInstr, sleepInstr, wakeInstr, killInstr, forkInstr, exitInstr,
    waitInstr, Option.none_or, Option.or_none, Option.some.injEq, reduceCtorEq] at hins ⊢
  case pidNext np =>
    subst hins
    refine ⟨_, rfl, .set ⟨?_, h.proc, h.forked⟩ ?_⟩
    · show tab'.nextpid + 1 = tab.nextpid + 1 + d
      rw [h.next, BitVec.add_assoc, BitVec.add_comm d, ← BitVec.add_assoc]
    · show Pc.pidRel np tab'.nextpid = _
      rw [h.next]
  case allocUsed np pid =>
    subst hins
    exact ⟨_, rfl, .set (h.alloc (halloc np pid rfl) pid) rfl⟩
  case forkCopy np =>
    obtain ⟨hnp, hne⟩ := hcopy np rfl
    split at hins <;> cases hins
    · exact ⟨_, if_pos ‹_›, .setSlot (h.freeproc np) rfl rfl⟩
    · refine ⟨_, if_neg ‹_›, .setSlot h rfl ?_⟩
      have hpid := (h.proc np).pid hne
      rw [if_neg hnp] at hpid
      exact congrArg (Pc.forkRel np) hpid
  case forkParent np pid =>
    subst hins
    have hupd : TabShift d (tab.upd np { tab.proc np with parent := some p })
        (tab'.upd np { tab'.proc np with parent := some p }) :=
      h.upd ⟨by rw [(h.proc np).same], (h.proc np).pid⟩
    exact ⟨_, rfl, .set ⟨hupd.next, hupd.proc, hupd.forked⟩ rfl⟩
  case forkRet np pid =>
    subst hins
    exact ⟨_, rfl, .set (h.log fun _ _ _ he => by cases he; exact ⟨_, _, rfl⟩) rfl⟩
  case waitCheck addr np =>
    rw [hstate]
    split at hins
    · split at hins <;> cases hins
      · exact ⟨_, (if_pos ‹_›).trans (if_pos ‹_›), .set h ⟨_, rfl⟩⟩
      · exact ⟨_, (if_pos ‹_›).trans (if_neg ‹_›),
          .setSlot ((h.freeproc np).log fun _ _ _ he => by cases he) rfl ⟨_, rfl⟩⟩
    · cases hins
      exact ⟨_, if_neg ‹_›, .set h rfl⟩
  case waitScan =>
    simp only [hparent, hkilled]
    split at hins <;> split at hins <;> cases hins
    · exact ⟨_, (dif_pos ‹_›).trans (if_pos ‹_›), .set h rfl⟩
    · exact ⟨_, (dif_pos ‹_›).trans (if_neg ‹_›), .set h rfl⟩
    · exact ⟨_, (dif_neg ‹_›).trans (if_pos ‹_›), .set h ⟨_, rfl⟩⟩
    · exact ⟨_, (dif_neg ‹_›).trans (if_neg ‹_›), .set h rfl⟩
  case wakeCheck j chan _ =>
    subst hins
    exact ⟨_, rfl, .set (h.wake j chan) rfl⟩
  case wake _ _ k =>
    repeat' split at hins
    all_goals cases hins
    · exact ⟨_, (dif_pos ‹_›).trans (if_pos ‹_›), .set h rfl⟩
    · exact ⟨_, (dif_pos ‹_›).trans (if_neg ‹_›), .acquire rfl⟩
    · exact ⟨_, dif_neg ‹_›, .set h (by cases k <;> rfl)⟩
  case killRel _ _ found =>
    subst hins
    exact ⟨_, rfl, .release (by cases found <;> rfl)⟩
  case user =>
    cases c <;> simp only [Option.some.injEq, reduceCtorEq] at hins <;> (try split at hins) <;>
      cases hins
    case exit => exact ⟨_, if_neg ‹_›, .set (h.log fun _ _ _ he => by cases he) rfl⟩
    case trap => exact ⟨_, rfl, .set (h.upd ⟨by rw [(h.proc p).same], (h.proc p).pid⟩) rfl⟩
    all_goals exact ⟨_, rfl, .set h rfl⟩
  case allocCheck =>
    rw [hstate]
    split at hins <;> cases hins
    · exact ⟨_, if_pos ‹_›, .set h rfl⟩
    · exact ⟨_, if_neg ‹_›, .set h rfl⟩
  case kill | alloc =>
    split at hins <;> cases hins
    · exact ⟨_, dif_pos ‹_›, .acquire rfl⟩
    · exact ⟨_, dif_neg ‹_›, .set h rfl⟩
  case reparent =>
    simp only [hparent]
    repeat' split at hins
    all_goals cases hins
    · exact ⟨_, (dif_pos ‹_›).trans (if_pos ‹_›),
        .set (h.upd ⟨by rw [(h.proc _).same], (h.proc _).pid⟩) rfl⟩
    · exact ⟨_, (dif_pos ‹_›).trans (if_neg ‹_›), .set h rfl⟩
    · exact ⟨_, dif_neg ‹_›, .set h rfl⟩
  all_goals subst hins
  case exitWake => exact ⟨_, rfl, .set h (by rw [hparent]; rfl)⟩
  all_goals first
    | exact ⟨_, rfl, .acquire rfl⟩
    | exact ⟨_, rfl, .release rfl⟩
    | exact ⟨_, rfl, .set (h.upd ⟨by rw [(h.proc _).same], (h.proc _).pid⟩) rfl⟩

variable {m m' m₁ : Machine n}

theorem pcShift_update {f f' : Thread n → Pc} (h : ∀ t, PcShift d (f t) (f' t)) (t : Thread n)
    {next next' : Pc} (hnext : PcShift d next next') (u : Thread n) :
    PcShift d (update f t next u) (update f' t next' u) := by
  by_cases hu : u = t
  · rw [hu, update_self, update_self]
    exact hnext
  · rw [update_of_ne hu, update_of_ne hu]
    exact h u

/-- An instruction has the same effect up to the shift. -/
theorem Shifted.exec (h : Shifted d m m₁) {ins' : Instr} (hins : InstrShift d ins ins')
    (hexec : m.exec t ins = some m') :
    ∃ m₁', m₁.exec t ins' = some m₁' ∧ Shifted d m' m₁' := by
  cases hins with
  | acquire hnext =>
    rw [Machine.exec] at hexec ⊢
    rw [h.owner]
    split at hexec <;> cases hexec
    exact ⟨_, if_pos ‹_›, h.tab, rfl, pcShift_update h.pc t hnext⟩
  | release hnext =>
    cases hexec
    rw [Machine.exec, h.owner]
    exact ⟨_, rfl, h.tab, rfl, pcShift_update h.pc t hnext⟩
  | set htab hnext =>
    cases hexec
    exact ⟨_, rfl, htab, h.owner, pcShift_update h.pc t hnext⟩
  | setSlot htab hslot hnext =>
    cases hexec
    exact ⟨_, rfl, htab, h.owner, pcShift_update (pcShift_update h.pc t hnext) _ hslot⟩

theorem Shifted.swtchOut (h : Shifted d m m₁) (p : Slot) (e : Fin n) {next : Pc}
    (hnext : PcShift d next next) : Shifted d (m.swtchOut p e next) (m₁.swtchOut p e next) := by
  refine ⟨h.tab, ?_, pcShift_update (pcShift_update h.pc _ hnext) _ (by exact rfl)⟩
  unfold Machine.swtchOut
  rw [h.owner]

theorem Shifted.swtchIn (h : Shifted d m m₁) (p : Slot) (e : Fin n) (k : Resume) :
    Shifted d (m.swtchIn p e k) (m₁.swtchIn p e k) := by
  refine ⟨h.tab.upd ⟨by rw [(h.tab.proc p).same], (h.tab.proc p).pid⟩, ?_,
    pcShift_update (pcShift_update h.pc _ (by exact rfl)) _ (by exact rfl)⟩
  unfold Machine.swtchIn
  rw [h.owner]

/-- A process that does not look for a pid does the same in both machines. -/
theorem Shifted.proc (h : Shifted d m m₁) (hplain : plain m (.proc p) = true)
    (hproc : (procInstr m.tab p c (m.pc (.proc p))).bind (m.exec (.proc p)) = some m') :
    ∃ m₁', (procInstr m₁.tab p c (m₁.pc (.proc p))).bind (m₁.exec (.proc p)) = some m₁' ∧
      Shifted d m' m₁' := by
  obtain ⟨ins, hins, hexec⟩ := Option.bind_eq_some_iff.mp hproc
  obtain ⟨ins', hins', hshift⟩ : ∃ ins', procInstr m₁.tab p c (m₁.pc (.proc p)) = some ins' ∧
      InstrShift d ins ins' := by
    unfold plain at hplain
    refine procInstr_shift h.tab (h.pc (.proc p)) (fun i pid hpc => ?_) (fun np pid hpc => ?_)
      (fun np hpc => ?_) hins <;> simp only [hpc] at hplain
    · cases hplain
    · exact of_decide_eq_true hplain
    · exact of_decide_eq_true hplain
  rw [hins', Option.bind_some]
  exact h.exec hshift hexec

/-- Both machines take the same steps. -/
theorem Shifted.step (h : Shifted d m m₁) (hplain : plain m t = true)
    (hstep : m.step t c = some m') : ∃ m₁', m₁.step t c = some m₁' ∧ Shifted d m' m₁' := by
  have hsame : ∀ u {pc}, m.pc u = pc → PcShift d pc (m₁.pc u) := fun u _ hpc => hpc ▸ h.pc u
  cases t with
  | proc p =>
    simp only [Machine.step] at hstep
    split at hstep
    · rename_i k e hpc
      split at hstep
      · rename_i q hcpu
        split at hstep <;> cases hstep
        have hpc' : m₁.pc (.proc p) = .sched k := hsame _ hpc
        have hcpu' : m₁.pc (.cpu e) = .running q := hsame _ hcpu
        exact ⟨_, by simp only [Machine.step, hpc', hcpu', if_pos ‹q = p›],
          h.swtchOut p e (by cases k <;> exact rfl)⟩
      · cases hstep
    · obtain ⟨m₁', hproc, h'⟩ := h.proc hplain hstep
      have hsched : ∀ k, m₁.pc (.proc p) ≠ .sched k := by
        intro k hk
        rw [hk] at hproc
        cases hproc
      refine ⟨m₁', ?_, h'⟩
      simp only [Machine.step]
      split
      · exact absurd ‹_› (hsched _)
      · exact hproc
  | cpu e =>
    simp only [Machine.step] at hstep ⊢
    simp only [plain] at hplain
    split at hplain
    · rename_i i hcpu
      have hcpu' : m₁.pc (.cpu e) = .scan i := hsame _ hcpu
      rw [hcpu] at hstep
      rw [hcpu']
      cases c <;> first
      | exact h.exec (.acquire (by exact rfl)) hstep
      | exact h.exec (.set h.tab (by exact rfl)) hstep
    · rename_i i hcpu
      have hcpu' : m₁.pc (.cpu e) = .scanCheck i := hsame _ hcpu
      have hstate : (m₁.tab.proc i).state = (m.tab.proc i).state := by rw [(h.tab.proc i).same]
      simp only [hcpu, hcpu', hstate, cpuInstr] at hstep ⊢
      split at hstep
      · rename_i hready
        split at hstep <;> cases hstep
        rename_i k hpc
        have hpc' : m₁.pc (.proc i) = .off k := hsame _ hpc
        exact ⟨_, by simp only [if_pos hready, hpc'], h.swtchIn i e k⟩
      · rw [if_neg ‹_›, if_neg ‹_›]
        exact h.exec (.set h.tab (by exact rfl)) hstep
    · rename_i i hcpu
      have hcpu' : m₁.pc (.cpu e) = .scanRel i := hsame _ hcpu
      rw [hcpu] at hstep
      rw [hcpu']
      exact h.exec (.release (by exact rfl)) hstep
    · cases hplain

theorem Shifted.refl (m : Machine n) : Shifted 0 m m := by
  refine ⟨⟨(BitVec.add_zero _).symm, fun i => ⟨rfl, fun _ => ?_⟩, fun g child pid he => ?_⟩, rfl,
    fun t => ?_⟩
  · split <;> exact (BitVec.add_zero _).symm
  · exact ⟨g, child, (BitVec.add_zero pid).symm ▸ he⟩
  · cases m.pc t <;> simp [PcShift]

/-- A run that compares no pids can be taken with all pids shifted. -/
theorem Shifted.run (h : Shifted d m m₁) (hplain : StepsOk (fun m t => plain m t = true) m acts)
    (hrun : m.run acts = some m') : ∃ m₁', m₁.run acts = some m₁' ∧ Shifted d m' m₁' := by
  induction acts generalizing m m₁ with
  | nil =>
    cases hrun
    exact ⟨m₁, rfl, h⟩
  | cons a acts ih =>
    obtain ⟨m₂, hstep, hrest⟩ := Option.bind_eq_some_iff.mp hrun
    obtain ⟨m₃, hstep', h'⟩ := h.step hplain.1 hstep
    obtain ⟨m₄, hrun', h''⟩ := ih h' (hplain.2 m₂ hstep) hrest
    exact ⟨m₄, Option.bind_eq_some_iff.mpr ⟨m₃, hstep', hrun'⟩, h''⟩

/-- Two runs, one after the other. -/
theorem run_append {m₂ : Machine n} {acts' : List (Thread n × Choice n)}
    (h : m.run acts = some m₁) (h' : m₁.run acts' = some m₂) : m.run (acts ++ acts') = some m₂ := by
  induction acts generalizing m with
  | nil =>
    cases h
    exact h'
  | cons a acts ih =>
    obtain ⟨m', hstep, hrest⟩ := Option.bind_eq_some_iff.mp h
    exact Option.bind_eq_some_iff.mpr ⟨m', hstep, ih hrest⟩

end

/-- It calls `fork`, the child exits, and it waits for the child. -/
def forkRound : List (Thread 1 × Choice 1) :=
  let go (t : Thread 1) (k : Nat) : List (Thread 1 × Choice 1) := List.replicate k (t, .go)
  let cpu : Thread 1 := .cpu (Fin.last 0)
  let init : Thread 1 := .proc initproc
  let child : Thread 1 := .proc (Slot.next initproc)
  callFork ++ [(init, .yield)] ++ go init 2 ++ [(init, .cpu (Fin.last 0))] ++ go cpu 3 ++
  go child 1 ++ [(child, .exit 0)] ++ go child 133 ++ [(child, .cpu (Fin.last 0))] ++ go cpu 93 ++
  go init 1 ++ [(init, .wait 0)] ++ go init 7

/-- The first process is in user code, and there is no other. -/
def calmMachine : Machine 1 where
  tab := (Machine.boot 1).tab.upd initproc
    { (Machine.boot 1).tab.proc initproc with state := .running }
  owner _ := none
  pc
    | .proc p => if p = initproc then .user else .idle
    | .cpu _ => .running initproc

/-- The two program counters are the same one of those above. -/
def calmPc : Pc → Pc → Bool
  | .user, .user => true
  | .idle, .idle => true
  | .running i, .running j => i = j
  | _, _ => false

/-- The machine is in that state, but for its counters and its history. -/
def Calm (m : Machine 1) : Prop :=
  (∀ i, m.tab.proc i = calmMachine.tab.proc i ∧ m.owner (.proc i) = none ∧
    calmPc (m.pc (.proc i)) (calmMachine.pc (.proc i))) ∧
  m.owner .wait = none ∧ m.owner .pid = none ∧
  calmPc (m.pc (.cpu (Fin.last 0))) (.running initproc)

instance (m : Machine 1) : Decidable (Calm m) := inferInstanceAs (Decidable (_ ∧ _))

theorem Calm.owner {m : Machine 1} (h : Calm m) : m.owner = calmMachine.owner := by
  funext l
  cases l with
  | wait => exact h.2.1
  | pid => exact h.2.2.1
  | proc i => exact (h.1 i).2.1

/-- No pid is on its way, so no shift is seen in the program counters. -/
theorem Calm.pc {m : Machine 1} (h : Calm m) (t : Thread 1) {d d' : CInt} {pc : Pc}
    (hpc : PcShift d (m.pc t) pc) : PcShift d' (calmMachine.pc t) pc := by
  have hcalm : ∀ a b, calmPc a b = true → PcShift d a pc → PcShift d' b pc := by
    intro a b hab ha
    unfold calmPc at hab
    split at hab
    · exact ha
    · exact ha
    · exact of_decide_eq_true hab ▸ ha
    · cases hab
  cases t with
  | proc p => exact hcalm _ _ (h.1 p).2.2 hpc
  | cpu c =>
    obtain rfl : c = Fin.last 0 := Subsingleton.elim _ _
    exact hcalm _ _ h.2.2.2 hpc

/-- Only the first process has a pid, and that is not shifted either. -/
theorem Shifted.of_calm {d d' : CInt} {m₁ m : Machine 1} (h : Shifted d m₁ m) (h₁ : Calm m₁)
    (hnext : m₁.tab.nextpid + d = 2 + d') : Shifted d' calmMachine m := by
  refine ⟨⟨h.tab.next.trans hnext, fun i => ?_, fun _ _ _ he => by cases he⟩,
    h.owner.trans h₁.owner, fun t => h₁.pc t (h.pc t)⟩
  have hproc := h.tab.proc i
  rw [(h₁.1 i).1] at hproc
  refine ⟨hproc.same, fun hne => ?_⟩
  have hfree : ∀ i, i ≠ initproc → (calmMachine.tab.proc i).pid = 0 := by decide
  have hi : i = initproc := not_imp_comm.mp (hfree i) hne
  have hpid := hproc.pid hne
  rwa [if_pos hi] at hpid ⊢

/-- The first process gets any value into `nextpid`, by rounds of `fork`, `exit` and `wait`. -/
theorem exists_shifted (k : Nat) : ∃ acts m, (Machine.boot 1).run acts = some m ∧
    Shifted (BitVec.ofNat 32 k) calmMachine m := by
  induction k with
  | zero =>
    have hboot : (((Machine.boot 1).run initRuns).any fun m => Calm m ∧ m.tab.nextpid = 2)
        = true := by decide +kernel
    obtain ⟨m, hrun, hm⟩ := (Option.any_eq_true _ _).mp hboot
    obtain ⟨hcalm, hnext⟩ := of_decide_eq_true hm
    exact ⟨initRuns, m, hrun, (Shifted.refl m).of_calm hcalm (by rw [hnext]; rfl)⟩
  | succ k ih =>
    obtain ⟨acts, m, hrun, h⟩ := ih
    have hok : StepsOk (fun m t => plain m t = true) calmMachine forkRound := by decide +kernel
    have hround : ((calmMachine.run forkRound).any fun m => Calm m ∧ m.tab.nextpid = 3)
        = true := by decide +kernel
    obtain ⟨m₁, hrun₁, hm₁⟩ := (Option.any_eq_true _ _).mp hround
    obtain ⟨hcalm, hnext⟩ := of_decide_eq_true hm₁
    obtain ⟨m', hrun', h'⟩ := h.run hok hrun₁
    refine ⟨acts ++ forkRound, m', run_append hrun hrun', h'.of_calm hcalm ?_⟩
    rw [hnext, BitVec.ofNat_add, show (3 : CInt) = 2 + 1 from rfl, BitVec.add_assoc,
      BitVec.add_comm 1]
    rfl

/-- After `k` rounds, `fork` returns `k + 2`. -/
theorem exists_forked (k : Nat) : ∃ acts m, (Machine.boot 1).run acts = some m ∧
    (∃ g child, Event.forked g child (2 + BitVec.ofNat 32 k) ∈ m.tab.events) ∧
    (m.tab.proc initproc).state ≠ .unused ∧ (m.tab.proc initproc).pid = 1 ∧
    (m.tab.proc (Slot.next initproc)).state ≠ .unused ∧
    (m.tab.proc (Slot.next initproc)).pid = 2 + BitVec.ofNat 32 k := by
  obtain ⟨acts, m, hrun, h⟩ := exists_shifted k
  have hok : StepsOk (fun m t => plain m t = true) calmMachine callFork := by decide +kernel
  have hfork : ((calmMachine.run callFork).any fun m => m.tab.events = [.forked 0 1 2] ∧
      (m.tab.proc initproc).state = .running ∧ (m.tab.proc initproc).pid = 1 ∧
      (m.tab.proc (Slot.next initproc)).state = .runnable ∧
      (m.tab.proc (Slot.next initproc)).pid = 2) = true := by decide +kernel
  obtain ⟨m₁, hrun₁, hm₁⟩ := (Option.any_eq_true _ _).mp hfork
  obtain ⟨hevents, hstate, hpid, hstate', hpid'⟩ := of_decide_eq_true hm₁
  obtain ⟨m', hrun', h'⟩ := h.run hok hrun₁
  refine ⟨acts ++ callFork, m', run_append hrun hrun', ?_, ?_, ?_, ?_, ?_⟩
  · exact h'.tab.forked 0 1 2 (by rw [hevents]; exact mem_cons_self)
  · rw [(h'.tab.proc initproc).same, hstate]
    decide
  · rw [(h'.tab.proc initproc).pid (by rw [hpid]; decide), hpid, if_pos rfl]
    rfl
  · rw [(h'.tab.proc (Slot.next initproc)).same, hstate']
    decide
  · rw [(h'.tab.proc (Slot.next initproc)).pid (by rw [hpid']; decide), hpid', if_neg (by decide)]

/-- After 2^31 - 2 rounds, the pid is negative; after 2^32 - 1 rounds, two processes have the
pid 1. -/
theorem pids_wrap :
    (∃ acts m, (Machine.boot 1).run acts = some m ∧ ¬ ForksPositive m.tab) ∧
    ∃ acts m, (Machine.boot 1).run acts = some m ∧ ¬ PidsUnique m.tab := by
  constructor
  · obtain ⟨acts, m, hrun, ⟨g, child, he⟩, -⟩ := exists_forked (2 ^ 31 - 2)
    exact ⟨acts, m, hrun, fun hpos => absurd (hpos g child _ he) (by decide)⟩
  · obtain ⟨acts, m, hrun, -, hst, hpid, hst', hpid'⟩ := exists_forked (2 ^ 32 - 1)
    refine ⟨acts, m, hrun, fun hunique => ?_⟩
    have heq := hunique initproc (Slot.next initproc) hst hst' (by rw [hpid, hpid']; rfl)
    exact absurd heq (by decide)

end Xv6.Proofs
