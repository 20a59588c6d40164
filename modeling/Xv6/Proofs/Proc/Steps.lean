import Xv6.Proofs.Proc.Inv

/-!
# `Xv6.Proofs.Proc.Steps`: what the steps do to the table

One lemma for each kind of step that changes the table or the stage of a process: the step
keeps `TableInv`. Everything else moves a program counter between places with the same
stages (`TableInv.move`).
-/

set_option autoImplicit false

namespace Xv6.Proofs

open Function (update update_apply update_eq_self_iff update_of_ne update_self)
open List

variable {pc : Slot → Pc} {tab : Table} {p : Slot} {pid : CInt}

variable {next : Pc} {np : Slot} {status : CInt} {tab' : Table}

/-! ### Program counters and stages -/

theorem pcMode_idle {pc : Pc} (h : pcMode pc = .idle) : pc = .idle := by
  cases pc with
  | idle => rfl
  | off k => cases k <;> cases h
  | sched k => cases k <;> cases h
  | _ => cases h

/-- A process in `fork` is not in `exit` and runs. -/
theorem pcFork_ne_none {pc : Pc} (h : pcFork pc ≠ .none) :
    pcMode pc = .active ∧ pcExit pc = .none ∧ pcWait pc = none := by
  cases pc <;> first | exact ⟨rfl, rfl, rfl⟩ | exact absurd rfl h

/-- A process that looks at a child in `wait` is not in `fork` and runs. -/
theorem pcWait_some {pc : Pc} (h : pcWait pc = some np) :
    pcMode pc = .active ∧ pcFork pc = .none ∧ pcExit pc = .none := by
  cases pc <;> first | exact ⟨rfl, rfl, rfl⟩ | cases h

theorem pcMode_dead {pc : Pc} (h : pcMode pc = .dead) : pcExit pc = .dead := by
  cases pc with
  | off k => cases k <;> cases h
  | sched k => cases k <;> first | rfl | cases h
  | _ => first | rfl | cases h

/-! ### The entries of the table -/

@[simp] theorem upd_proc (tab : Table) (i j : Slot) (q : Proc) :
    (tab.upd i q).proc j = if j = i then q else tab.proc j := by
  unfold Table.upd
  exact update_apply _ _ _ _

/-- A field that is not written is as before, in all slots. -/
theorem upd_kept {β : Type} (f : Proc → β) {i : Slot} {q : Proc} (h : f q = f (tab.proc i))
    (j : Slot) : f ((tab.upd i q).proc j) = f (tab.proc j) := by
  rw [upd_proc]
  split
  · rename_i hj
    rw [h, hj]
  · rfl

theorem upd_spec {tab' : Table} {i : Slot} {q : Proc} (h : tab.upd i q = tab') :
    (∀ j, j ≠ i → tab'.proc j = tab.proc j) ∧ tab'.proc i = q ∧ tab'.gen = tab.gen ∧
      tab'.forker = tab.forker ∧ tab'.events = tab.events ∧ tab'.nextGen = tab.nextGen := by
  subst h
  exact ⟨fun j hj => by simp [hj], by simp, rfl, rfl, rfl, rfl⟩

/-- What recording an event does to the table. -/
theorem log_spec {e : Event} (h : tab.log e = tab') :
    (∀ i, tab'.proc i = tab.proc i) ∧ tab'.gen = tab.gen ∧ tab'.forker = tab.forker ∧
      tab'.nextGen = tab.nextGen ∧ tab'.events = e :: tab.events := by
  subst h
  exact ⟨fun _ => rfl, rfl, rfl, rfl, rfl⟩

/-! ### Steps that do not touch a stage -/

/-- The two tables differ in the states of live processes, in what they sleep on and in
whether they are killed. -/
structure SameProcs (tab tab' : Table) : Prop where
  state : ∀ i, (tab'.proc i).state = (tab.proc i).state ∨
    (ProcState.Live (tab.proc i).state ∧ ProcState.Live (tab'.proc i).state)
  parent : ∀ i, (tab'.proc i).parent = (tab.proc i).parent
  pid : ∀ i, (tab'.proc i).pid = (tab.proc i).pid
  xstate : ∀ i, (tab'.proc i).xstate = (tab.proc i).xstate
  gen : tab'.gen = tab.gen
  forker : tab'.forker = tab.forker
  nextGen : tab'.nextGen = tab.nextGen
  events : tab'.events = tab.events

theorem Live.ne {st : ProcState} (h : ProcState.Live st) :
    st ≠ .unused ∧ st ≠ .used ∧ st ≠ .zombie := by
  rcases h with rfl | rfl | rfl <;> simp

theorem SameProcs.live (h : SameProcs tab tab') (i : Slot) :
    ProcState.Live (tab'.proc i).state ↔ ProcState.Live (tab.proc i).state := by
  rcases h.state i with heq | ⟨h1, h2⟩
  · rw [heq]
  · exact iff_of_true h2 h1

theorem SameProcs.state_iff (h : SameProcs tab tab') (i : Slot) {st : ProcState}
    (hst : ¬ ProcState.Live st) : (tab'.proc i).state = st ↔ (tab.proc i).state = st := by
  rcases h.state i with heq | ⟨h1, h2⟩
  · rw [heq]
  · constructor
    · rintro rfl
      exact absurd h2 hst
    · rintro rfl
      exact absurd h1 hst

theorem not_live_unused : ¬ ProcState.Live .unused := fun h => (Live.ne h).1 rfl
theorem not_live_used : ¬ ProcState.Live .used := fun h => (Live.ne h).2.1 rfl
theorem not_live_zombie : ¬ ProcState.Live .zombie := fun h => (Live.ne h).2.2 rfl

/-- The invariant depends on the processes in the table only. -/
theorem SameProcs.tableInv (hs : SameProcs tab tab') (h : TableInv tab pc) : TableInv tab' pc := by
  have hunused : ∀ i, (tab'.proc i).state = .unused ↔ (tab.proc i).state = .unused :=
    fun i => hs.state_iff i not_live_unused
  have hused : ∀ i, (tab'.proc i).state = .used ↔ (tab.proc i).state = .used :=
    fun i => hs.state_iff i not_live_used
  have hzombie : ∀ i, (tab'.proc i).state = .zombie ↔ (tab.proc i).state = .zombie :=
    fun i => hs.state_iff i not_live_zombie
  constructor
  case mode =>
    intro p
    have := h.mode p
    cases hm : pcMode (pc p) <;> rw [hm] at this <;>
      simpa only [ModeOk, hs.live, hunused, hused, hzombie] using this
  case orphan => simpa only [hunused, hs.parent] using h.orphan
  case parent => simpa only [hs.parent, hs.live] using h.parent
  case linked => simpa only [ne_eq, hs.parent, hunused, hused] using h.linked
  case init => simpa only [hs.live, hs.gen] using h.init
  case fork =>
    intro p
    have := h.fork p
    cases hf : pcFork (pc p) <;> rw [hf] at this <;> first
      | trivial
      | simpa only [ForkOk, ne_eq, hunused, hused, hs.parent, hs.pid, hs.gen, hs.forker] using this
  case forkUniq => exact h.forkUniq
  case exit =>
    intro p
    have := h.exit p
    cases hf : pcExit (pc p) <;> rw [hf] at this <;>
      simpa only [ExitOk, ne_eq, hunused, hs.parent, hs.xstate, hs.gen, hs.events] using this
  case wait => simpa only [hs.parent] using h.wait
  case genLt => simpa only [ne_eq, hunused, hs.gen, hs.nextGen] using h.genLt
  case genInj => simpa only [ne_eq, hunused, hs.gen] using h.genInj
  case below => simpa only [hs.events, hs.nextGen] using h.below
  case forker => simpa only [hs.parent, hs.gen, hs.forker, hs.events] using h.forker
  case forked => simpa only [ne_eq, hunused, hs.gen, hs.events] using h.forked
  case forkedBy =>
    simpa only [ne_eq, hunused, hs.gen, hs.forker, hs.pid, hs.events] using h.forkedBy
  case waited => simpa only [ne_eq, hunused, hs.gen, hs.events] using h.waited
  case lawful => simpa only [hs.events] using h.lawful

/-- The program counters after `p` has moved on. -/
theorem exists_moved (pc : Slot → Pc) (p : Slot) (next : Pc) :
    ∃ pc', update pc p next = pc' ∧ pc' p = next ∧ ∀ q, q ≠ p → pc' q = pc q :=
  ⟨_, rfl, update_self _ _ _, fun _ hq => update_of_ne hq _ _⟩

/-- A process moves on to a place that fits the table. -/
theorem TableInv.move (h : TableInv tab pc) (hmode : ModeOk (tab.proc p).state (pcMode next))
    (hused : pcMode next = pcMode (pc p) ∨ (tab.proc p).state ≠ .used)
    (hfork : ForkOk tab pc p (pcFork next)) (hslot : (pcFork next).slot = (pcFork (pc p)).slot)
    (hexit : ExitOk tab p (pcExit next))
    (hwait : ∀ np, pcWait next = some np → (tab.proc np).parent = some p) :
    TableInv tab (update pc p next) := by
  obtain ⟨pc', hpcs, hself, hpc'⟩ := exists_moved pc p next
  rw [hpcs]
  have hslot' : ∀ q, (pcFork (pc' q)).slot = (pcFork (pc q)).slot := by grind
  -- the slots in the making keep their modes
  have hmode' : ∀ q, (tab.proc q).state = .used → pcMode (pc' q) = pcMode (pc q) := by grind
  have hfork' : ∀ q fs, ForkOk tab pc q fs → ForkOk tab pc' q fs := by
    intro q fs hok
    cases fs <;> grind [ForkOk]
  refine { h with
    mode := ?_, fork := ?_, forkUniq := ?_, exit := ?_, wait := ?_, forked := ?_, forkedBy := ?_ }
  · have := h.mode
    grind
  · have := h.fork
    grind
  · simpa only [hslot'] using h.forkUniq
  · have := h.exit
    grind
  · have := h.wait
    grind
  · simpa only [hslot'] using h.forked
  · simpa only [hslot'] using h.forkedBy

/-! ### `fork` -/

/-- The thread of an unused slot does not exist. -/
theorem TableInv.idle_of_unused (h : TableInv tab pc) {i : Slot}
    (hst : (tab.proc i).state = .unused) : pc i = .idle := by
  have hm := h.mode i
  rw [hst] at hm
  cases hmode : pcMode (pc i) with
  | idle => exact pcMode_idle hmode
  | fresh => simp [hmode, ModeOk, ProcState.Live] at hm
  | active => simp [hmode, ModeOk, ProcState.Live] at hm
  | dead => simp [hmode, ModeOk] at hm

/-- A process that runs, or sleeps, is live. -/
theorem TableInv.live_of_active (h : TableInv tab pc)
    (hp : pcMode (pc p) = .active) : ProcState.Live (tab.proc p).state := by
  have := h.mode p
  rw [hp] at this
  exact this

/-- The slot of a `fork` in progress is taken. -/
theorem TableInv.slot_ne_unused (h : TableInv tab pc) (hslot : (pcFork (pc p)).slot = some np) :
    (tab.proc np).state ≠ .unused := by
  have hok := h.fork p
  cases hf : pcFork (pc p) with
  | none => rw [hf] at hslot; cases hslot
  | found i => rw [hf] at hslot; cases hslot
  | copy i => rw [hf] at hok hslot; cases hslot; rw [hok.1]; simp
  | made i pid => rw [hf] at hok hslot; cases hslot; rw [hok.1]; simp
  | linked i pid => rw [hf] at hok hslot; cases hslot; rw [hok.1]; simp
  | ready i pid => rw [hf] at hok hslot; cases hslot; exact hok.1

/-- No other `fork` has the slot. -/
theorem TableInv.fork_alone (h : TableInv tab pc) (p np : Slot)
    (hslot : (pcFork (pc p)).slot = some np) (q : Slot) (hq : q ≠ p) :
    (pcFork (pc q)).slot ≠ some np := fun hs => hq (h.forkUniq q p np hs hslot)

theorem below_succ {b : Nat} {e : Event} (h : Event.Below b e) : Event.Below (b + 1) e := by
  cases e <;> simp only [Event.Below] at h ⊢ <;> omega

/-- `allocproc` takes the slot it has found. -/
theorem TableInv.alloc (h : TableInv tab pc) (hpc : pc p = .allocUsed np pid)
    (honly : ∀ q, q ≠ p → pcFork (pc q) ≠ .found np) :
    TableInv (tab.alloc np pid) (update pc p (.forkCopy np)) := by
  have hfree : (tab.proc np).state = .unused := by
    have := h.fork p
    rw [hpc] at this
    exact this
  have hidle := h.idle_of_unused hfree
  have hlive : ∀ q, ProcState.Live (tab.proc q).state → q ≠ np := by
    rintro q hq rfl
    exact (Live.ne hq).1 hfree
  have hactive := hlive p (h.live_of_active (by rw [hpc]; rfl))
  have hinit := hlive _ h.init.1
  have hslot : ∀ q, (pcFork (pc q)).slot ≠ some np := fun q hq => h.slot_ne_unused hq hfree
  obtain ⟨pc', hpcs, hself, hpc'⟩ := exists_moved pc p (.forkCopy np)
  rw [hpcs]
  generalize htab : tab.alloc np pid = tab'
  obtain ⟨hold, hnew, hgen, hnum, hfk, hev, hng⟩ :
      (∀ j, j ≠ np → tab'.proc j = tab.proc j) ∧
      tab'.proc np = { tab.proc np with pid := pid, state := .used } ∧
      (∀ j, j ≠ np → tab'.gen j = tab.gen j) ∧ tab'.gen np = tab.nextGen ∧
      tab'.forker = tab.forker ∧ tab'.events = tab.events ∧ tab'.nextGen = tab.nextGen + 1 := by
    subst htab
    exact ⟨fun _ hj => update_of_ne hj _ _, update_self _ _ _, fun _ hj => update_of_ne hj _ _,
      update_self _ _ _, rfl, rfl, rfl⟩
  constructor
  case mode => have := h.mode; grind [ModeOk, pcMode]
  case orphan => have := h.orphan; grind
  case parent => have := h.parent; grind
  case linked => have := h.linked; grind
  case init => have := h.init; grind
  case fork =>
    intro q
    have hok := h.fork q
    have horphan := h.orphan np hfree
    cases hf : pcFork (pc q) <;> grind [pcFork, ForkOk, ForkStage.slot, pcMode]
  case forkUniq => have := h.forkUniq; grind [pcFork, ForkStage.slot]
  case exit =>
    intro q
    have hok := h.exit q
    have hbelow := h.below
    cases hx : pcExit (pc q) <;> grind [pcExit, ExitOk, Event.Below]
  case wait => have := h.wait; grind [pcWait]
  case genLt => have := h.genLt; grind
  case genInj => have := h.genInj; have := h.genLt; grind
  case below => exact fun e he => hng ▸ below_succ (h.below e (hev ▸ he))
  case forker => have := h.forker; have := h.parent; grind
  case forked => have := h.forked; have := h.below; grind [pcFork, ForkStage.slot, Event.Below]
  case forkedBy => have := h.forkedBy; grind [pcFork, ForkStage.slot]
  case waited => have := h.waited; have := h.below; grind [Event.Below]
  case lawful => exact hev ▸ h.lawful

/-- What `freeproc` does to the table. -/
theorem freeproc_table (h : tab.freeproc np = tab') :
    (∀ j, j ≠ np → tab'.proc j = tab.proc j) ∧ (tab'.proc np).state = .unused ∧
      (tab'.proc np).parent = none ∧ tab'.gen = tab.gen ∧ tab'.forker = tab.forker ∧
      tab'.events = tab.events ∧ tab'.nextGen = tab.nextGen := by
  subst h
  have hnew : (tab.freeproc np).proc np = _ := update_self ..
  exact ⟨fun _ hj => update_of_ne hj _ _, by rw [hnew], by rw [hnew], rfl, rfl, rfl, rfl⟩

/-- An allocation in `fork` fails: the slot is given back. -/
theorem TableInv.forkFail (h : TableInv tab pc) (hpc : pc p = .forkCopy np) :
    TableInv (tab.freeproc np) (update (update pc p (.forkFail np)) np .idle) := by
  have hok := h.fork p
  rw [hpc] at hok
  obtain ⟨hused, hmode, hparent⟩ := hok
  have hidle := pcMode_idle hmode
  have hlive : ∀ q, ProcState.Live (tab.proc q).state → q ≠ np := by
    rintro q hq rfl
    exact (Live.ne hq).2.1 hused
  have hne := hlive p (h.live_of_active (by rw [hpc]; rfl))
  have hinit := hlive _ h.init.1
  have hslot := h.fork_alone p np (by rw [hpc]; rfl)
  rw [update_eq_self_iff.mpr (by rw [update_of_ne (Ne.symm hne), hidle])]
  obtain ⟨pc', hpcs, hself, hpc'⟩ := exists_moved pc p (.forkFail np)
  rw [hpcs]
  generalize htab : tab.freeproc np = tab'
  obtain ⟨hold, hstate, hnone, hgen, hfk, hev, hng⟩ := freeproc_table htab
  constructor
  case mode => have := h.mode; grind [ModeOk, pcMode]
  case orphan => have := h.orphan; grind
  case parent => have := h.parent; grind
  case linked => have := h.linked; grind
  case init => have := h.init; grind
  case fork =>
    intro q
    have hok := h.fork q
    cases hf : pcFork (pc q) <;> grind [pcFork, ForkOk, ForkStage.slot, pcMode]
  case forkUniq => have := h.forkUniq; grind [pcFork, ForkStage.slot]
  case exit =>
    intro q
    have hok := h.exit q
    cases hx : pcExit (pc q) <;> grind [pcExit, ExitOk]
  case wait => have := h.wait; grind [pcWait]
  case genLt => have := h.genLt; grind
  case genInj => have := h.genInj; grind
  case below => simpa only [hev, hng] using h.below
  case forker => have := h.forker; grind
  case forked => have := h.forked; grind [pcFork, ForkStage.slot]
  case forkedBy => have := h.forkedBy; grind [pcFork, ForkStage.slot]
  case waited => have := h.waited; grind
  case lawful => exact hev ▸ h.lawful

/-- The memory of the child is copied, and its thread is set up. -/
theorem TableInv.forkMade (h : TableInv tab pc) (hpc : pc p = .forkCopy np) :
    TableInv tab
      (update (update pc p (.forkRel np (tab.proc np).pid)) np (.off .first)) := by
  have hok := h.fork p
  rw [hpc] at hok
  obtain ⟨hused, hmode, hparent⟩ := hok
  have hidle := pcMode_idle hmode
  have hne : p ≠ np := by
    rintro rfl
    rw [hpc] at hidle
    cases hidle
  have hslot := h.fork_alone p np (by rw [hpc]; rfl)
  obtain ⟨pc₁, hpcs, hself, hold⟩ := exists_moved pc p (.forkRel np (tab.proc np).pid)
  obtain ⟨pc', hpcs', hnew, hpc'⟩ := exists_moved pc₁ np (.off .first)
  rw [hpcs, hpcs']
  refine { h with
    mode := ?_, fork := ?_, forkUniq := ?_, exit := ?_, wait := ?_, forked := ?_, forkedBy := ?_ }
  · have := h.mode
    grind [ModeOk, pcMode]
  · intro q
    have hok := h.fork q
    cases hf : pcFork (pc q) <;> grind [pcFork, ForkOk, ForkStage.slot, pcMode]
  · have := h.forkUniq
    grind [pcFork, ForkStage.slot]
  · have := h.exit
    grind [pcExit, ExitOk]
  · have := h.wait
    grind [pcWait]
  · have := h.forked
    grind [pcFork, ForkStage.slot]
  · have := h.forkedBy
    grind [pcFork, ForkStage.slot]

/-- `np->parent = p`. -/
theorem TableInv.setParent (h : TableInv tab pc) (hpc : pc p = .forkParent np pid) :
    TableInv (tab.setParent np p) (update pc p (.forkRelWait np pid)) := by
  have hok := h.fork p
  rw [hpc] at hok
  obtain ⟨hused, hmode, hparent, hpid⟩ := hok
  have hlive : ProcState.Live (tab.proc p).state := h.live_of_active (by rw [hpc]; rfl)
  have hne : p ≠ np := by
    rintro rfl
    exact (Live.ne hlive).2.1 hused
  have hslot := h.fork_alone p np (by rw [hpc]; rfl)
  obtain ⟨pc', hpcs, hself, hpc'⟩ := exists_moved pc p (.forkRelWait np pid)
  rw [hpcs]
  generalize htab : tab.setParent np p = tab'
  obtain ⟨hold, hnew, hgen, hfk, hfknp, hev, hng⟩ : (∀ j, j ≠ np → tab'.proc j = tab.proc j) ∧
      tab'.proc np = { tab.proc np with parent := some p } ∧ tab'.gen = tab.gen ∧
      (∀ j, j ≠ np → tab'.forker j = tab.forker j) ∧ tab'.forker np = tab.gen p ∧
      tab'.events = tab.events ∧ tab'.nextGen = tab.nextGen := by
    subst htab
    exact ⟨fun _ hj => update_of_ne hj _ _, update_self _ _ _, rfl,
      fun _ hj => update_of_ne hj _ _, update_self _ _ _, rfl, rfl⟩
  constructor
  case mode => have := h.mode; grind [ModeOk, pcMode]
  case orphan => have := h.orphan; grind
  case parent => have := h.parent; grind
  case linked => have := h.linked; grind
  case init => have := h.init; grind
  case fork =>
    intro q
    have hok := h.fork q
    cases hf : pcFork (pc q) <;> grind [pcFork, ForkOk, ForkStage.slot, pcMode]
  case forkUniq => have := h.forkUniq; grind [pcFork, ForkStage.slot]
  case exit =>
    -- the new parent is in fork, not in exit
    intro q
    have hok := h.exit q
    cases hx : pcExit (pc q) <;> grind [pcExit, ExitOk]
  case wait => have := h.wait; grind [pcWait]
  case genLt => have := h.genLt; grind
  case genInj => have := h.genInj; grind
  case below => simpa only [hev, hng] using h.below
  case forker => have := h.forker; grind
  case forked => have := h.forked; grind [pcFork, ForkStage.slot]
  case forkedBy => have := h.forkedBy; grind [pcFork, ForkStage.slot]
  case waited => have := h.waited; grind
  case lawful => exact hev ▸ h.lawful

/-- The child becomes `RUNNABLE`. -/
theorem TableInv.forkRun (h : TableInv tab pc) (hpc : pc p = .forkRun np pid) :
    TableInv (tab.upd np { tab.proc np with state := .runnable })
      (update pc p (.forkDone np pid)) := by
  have hok := h.fork p
  rw [hpc] at hok
  obtain ⟨hused, hmode, hparent, hpid, hforker⟩ := hok
  have hlive : ∀ q, ProcState.Live (tab.proc q).state → q ≠ np := by
    rintro q hq rfl
    exact (Live.ne hq).2.1 hused
  have hne := hlive p (h.live_of_active (by rw [hpc]; rfl))
  have hinit := hlive _ h.init.1
  have hrunnable : ProcState.Live .runnable := .inr (.inl rfl)
  have hmine := h.fork_alone p np (by rw [hpc]; rfl)
  obtain ⟨pc', hpcs, hself, hpc'⟩ := exists_moved pc p (.forkDone np pid)
  rw [hpcs]
  generalize htab : tab.upd np { tab.proc np with state := .runnable } = tab'
  obtain ⟨hold, hnp, hgen, hfk, hev, hng⟩ := upd_spec htab
  constructor
  case mode => have := h.mode; grind [ModeOk, pcMode]
  case orphan => have := h.orphan; grind
  case parent => have := h.parent; grind
  case linked => have := h.linked; grind
  case init => have := h.init; grind
  case fork =>
    intro q
    have hok := h.fork q
    cases hf : pcFork (pc q) <;> grind [pcFork, ForkOk, ForkStage.slot, pcMode]
  case forkUniq => have := h.forkUniq; grind [pcFork, ForkStage.slot]
  case exit =>
    intro q
    have hok := h.exit q
    cases hx : pcExit (pc q) <;> grind [pcExit, ExitOk]
  case wait => have := h.wait; grind [pcWait]
  case genLt => have := h.genLt; grind
  case genInj => have := h.genInj; grind
  case below => simpa only [hev, hng] using h.below
  case forker => have := h.forker; grind
  case forked => have := h.forked; grind [pcFork, ForkStage.slot]
  case forkedBy => have := h.forkedBy; grind [pcFork, ForkStage.slot]
  case waited => have := h.waited; grind
  case lawful => simpa only [hev] using h.lawful

/-! ### The history -/

/-- `fork` returns: the history records it. -/
theorem TableInv.forkRet (h : TableInv tab pc) (hpc : pc p = .forkRet np pid) :
    TableInv (tab.log (.forked (tab.gen p) (tab.gen np) pid)) (update pc p .user) := by
  have hok := h.fork p
  rw [hpc] at hok
  obtain ⟨hst, hparent, hpid, hforker⟩ := hok
  have hlive := Live.ne (h.live_of_active (p := p) (by rw [hpc]; rfl))
  have hmine := h.fork_alone p np (by rw [hpc]; rfl)
  obtain ⟨pc', hpcs, hself, hpc'⟩ := exists_moved pc p .user
  rw [hpcs]
  generalize htab : tab.log (.forked (tab.gen p) (tab.gen np) pid) = tab'
  obtain ⟨hproc, hgen, hfk, hng, hev⟩ := log_spec htab
  constructor
  case mode => have := h.mode; grind [ModeOk, pcMode]
  case orphan => simpa only [hproc] using h.orphan
  case parent => simpa only [hproc] using h.parent
  case linked => simpa only [hproc] using h.linked
  case init => simpa only [hproc, hgen] using h.init
  case fork =>
    intro q
    have hok := h.fork q
    cases hf : pcFork (pc q) <;> grind [pcFork, ForkOk, ForkStage.slot, pcMode]
  case forkUniq => have := h.forkUniq; grind [pcFork, ForkStage.slot]
  case exit =>
    intro q
    have hok := h.exit q
    cases hx : pcExit (pc q) <;> grind [pcExit, ExitOk]
  case wait => have := h.wait; grind [pcWait]
  case genLt => simpa only [hproc, hgen, hng] using h.genLt
  case genInj => simpa only [hproc, hgen] using h.genInj
  case below => have := h.below; have := h.genLt; grind [Event.Below]
  case forker => have := h.forker; grind
  case forked =>
    -- the new child is this slot, and its only fork has returned
    have := h.forked
    have := h.genInj
    grind [pcFork, ForkStage.slot]
  case forkedBy => have := h.forkedBy; grind [pcFork, ForkStage.slot]
  case waited => have := h.waited; grind
  case lawful =>
    rw [hev]
    exact ⟨fun g pid' he => h.forked g _ pid' he np hst rfl p (by rw [hpc]; rfl), h.lawful⟩

/-! ### `exit` -/

/-- A process calls `exit`. -/
theorem TableInv.exitCall (h : TableInv tab pc) (hpc : pc p = .user) (hp : p ≠ initproc) :
    TableInv (tab.log (.exited (tab.gen p) status)) (update pc p (.exitWait status)) := by
  have hst := (Live.ne (h.live_of_active (p := p) (by rw [hpc]; rfl))).1
  have hfirst : ∀ v, Event.exited (tab.gen p) v ∉ tab.events := by
    have := h.exit p
    rw [hpc] at this
    exact this hst
  obtain ⟨pc', hpcs, hself, hpc'⟩ := exists_moved pc p (.exitWait status)
  rw [hpcs]
  generalize htab : tab.log (.exited (tab.gen p) status) = tab'
  obtain ⟨hproc, hgen, hfk, hng, hev⟩ := log_spec htab
  constructor
  case mode => have := h.mode; grind [ModeOk, pcMode]
  case orphan => simpa only [hproc] using h.orphan
  case parent => simpa only [hproc] using h.parent
  case linked => simpa only [hproc] using h.linked
  case init => simpa only [hproc, hgen] using h.init
  case fork =>
    intro q
    have hok := h.fork q
    cases hf : pcFork (pc q) <;> grind [pcFork, ForkOk, ForkStage.slot, pcMode]
  case forkUniq => have := h.forkUniq; grind [pcFork, ForkStage.slot]
  case exit =>
    intro q
    have hok := h.exit q
    -- the number of `p` is not that of another process
    have hidle := h.idle_of_unused (i := q)
    have hnum := h.genInj q p
    cases hx : pcExit (pc q) <;> grind [pcExit, ExitOk]
  case wait => have := h.wait; grind [pcWait]
  case genLt => simpa only [hproc, hgen, hng] using h.genLt
  case genInj => simpa only [hproc, hgen] using h.genInj
  case below => have := h.below; have := h.genLt; grind [Event.Below]
  case forker => have := h.forker; grind
  case forked => have := h.forked; grind [pcFork, ForkStage.slot]
  case forkedBy => have := h.forkedBy; grind [pcFork, ForkStage.slot]
  case waited => have := h.waited; grind
  case lawful => exact hev ▸ ⟨hfirst, h.lawful⟩

/-- `reparent` passes one child on to `initproc`. -/
theorem TableInv.reparent (h : TableInv tab pc) {j : Slot} (hpc : pc p = .reparent status j)
    (hnext : pcMode next = .active ∧ pcFork next = .none ∧ pcWait next = none ∧
      pcExit next = .reparenting status (j + 1)) (hj : (tab.proc j).parent = some p) :
    TableInv (tab.upd j { tab.proc j with parent := some initproc }) (update pc p next) := by
  obtain ⟨hnmode, hnfork, hnwait, hnexit⟩ := hnext
  have hx := h.exit p
  rw [hpc] at hx
  obtain ⟨hp, hexited, hkids⟩ := hx
  have hlive : ProcState.Live (tab.proc p).state := h.live_of_active (by rw [hpc]; rfl)
  obtain ⟨pc', hpcs, hself, hpc'⟩ := exists_moved pc p next
  rw [hpcs]
  generalize htab : tab.upd j { tab.proc j with parent := some initproc } = tab'
  obtain ⟨hold, hjnew, hgen, hfk, hev, hng⟩ := upd_spec htab
  have hstate : ∀ i, (tab'.proc i).state = (tab.proc i).state := by grind
  constructor
  case mode => have := h.mode; grind [ModeOk, pcMode]
  case orphan => have := h.orphan; grind
  case parent => have := h.parent; have := h.init; grind
  case linked => have := h.linked; grind
  case init => have := h.init; grind
  case fork =>
    intro q
    have hok := h.fork q
    cases hf : pcFork (pc q) <;> grind [pcFork, ForkOk, ForkStage.slot, pcMode]
  case forkUniq => have := h.forkUniq; grind [pcFork, ForkStage.slot]
  case exit =>
    -- `initproc` does not exit
    intro q
    have hok := h.exit q
    cases hx : pcExit (pc q) <;> grind [pcExit, ExitOk]
  case wait => have := h.wait; grind [pcWait]
  case genLt => simpa only [hstate, hgen, hng] using h.genLt
  case genInj => simpa only [hstate, hgen] using h.genInj
  case below => simpa only [hev, hng] using h.below
  case forker =>
    -- the forker of the child was `p`, which is exiting
    have := h.forker
    grind
  case forked => have := h.forked; grind [pcFork, ForkStage.slot]
  case forkedBy => have := h.forkedBy; grind [pcFork, ForkStage.slot]
  case waited => simpa only [hstate, hgen, hev] using h.waited
  case lawful => simpa only [hev] using h.lawful

/-- The process becomes a `ZOMBIE`. -/
theorem TableInv.exitSet (h : TableInv tab pc) (hpc : pc p = .exitSet status) :
    TableInv (tab.upd p { tab.proc p with xstate := status, state := .zombie })
      (update pc p .exitRel) := by
  have hx := h.exit p
  rw [hpc] at hx
  obtain ⟨hp, hexited, hkids⟩ := hx
  have hlive := Live.ne (h.live_of_active (p := p) (by rw [hpc]; rfl))
  obtain ⟨pc', hpcs, hself, hpc'⟩ := exists_moved pc p .exitRel
  rw [hpcs]
  generalize htab : tab.upd p { tab.proc p with xstate := status, state := .zombie } = tab'
  obtain ⟨hold, hnew, hgen, hfk, hev, hng⟩ := upd_spec htab
  constructor
  case mode => have := h.mode; grind [ModeOk, pcMode]
  case orphan => have := h.orphan; grind
  case parent => have := h.parent; grind
  case linked => have := h.linked; grind
  case init => have := h.init; grind
  case fork =>
    intro q
    have hok := h.fork q
    cases hf : pcFork (pc q) <;> grind [pcFork, ForkOk, ForkStage.slot, pcMode]
  case forkUniq => have := h.forkUniq; grind [pcFork, ForkStage.slot]
  case exit =>
    intro q
    have hok := h.exit q
    cases hx : pcExit (pc q) <;> grind [pcExit, ExitOk]
  case wait => have := h.wait; grind [pcWait]
  case genLt => have := h.genLt; grind
  case genInj => have := h.genInj; grind
  case below => simpa only [hev, hng] using h.below
  case forker => have := h.forker; grind
  case forked => have := h.forked; grind [pcFork, ForkStage.slot]
  case forkedBy => have := h.forkedBy; grind [pcFork, ForkStage.slot]
  case waited => have := h.waited; grind
  case lawful => simpa only [hev] using h.lawful

/-! ### `wait` -/

/-- The `fork` of a child that `wait` has found has returned: otherwise the waiting parent
would be in it. -/
theorem TableInv.fork_returned (h : TableInv tab pc) (hwait : pcWait (pc p) = some np) (q : Slot) :
    (pcFork (pc q)).slot ≠ some np := by
  intro hq
  have hok := h.fork q
  have hparent := h.wait p np hwait
  have hp := (pcWait_some hwait).2.1
  cases hf : pcFork (pc q) <;> rw [hf] at hok hq <;> cases hq <;> grind [ForkOk]

/-- What the history justifies when `wait` of `p` frees the zombie `np`. -/
theorem TableInv.justified (h : TableInv tab pc) (hwait : pcWait (pc p) = some np)
    (hzombie : (tab.proc np).state = .zombie) {status : Option CInt}
    (hstatus : ∀ v, status = some v → v = (tab.proc np).xstate) :
    Justified tab.events (.waited (tab.gen p) (tab.gen np) (tab.proc np).pid status) := by
  have hparent := h.wait p np hwait
  have hst : (tab.proc np).state ≠ .unused := by rw [hzombie]; simp
  have hinit : np ≠ initproc := by
    rintro rfl
    exact (Live.ne h.init.1).2.2 hzombie
  have hdone := h.fork_returned hwait
  have hdead : pcExit (pc np) = .dead := by
    refine pcMode_dead ?_
    have hm := h.mode np
    rw [hzombie] at hm
    cases hmode : pcMode (pc np) <;> rw [hmode] at hm <;> simp_all [ModeOk, ProcState.Live]
  have hx := h.exit np
  rw [hdead] at hx
  refine ⟨_, _, h.forkedBy np hinit hst hdone, hx.2, hstatus, ?_, fun g' pid' st' he => ?_⟩
  · rcases h.forker np p hparent with hf | ⟨rfl, hv⟩
    · exact Or.inl hf.symm
    · exact Or.inr ⟨h.init.2, hv⟩
  · exact h.waited _ _ _ _ he np hst rfl

/-- `wait` frees a zombie. -/
theorem TableInv.reap (h : TableInv tab pc) {addr : Nat} (hpc : pc p = .waitCheck addr np)
    (hzombie : (tab.proc np).state = .zombie) {status : Option CInt}
    (hstatus : ∀ v, status = some v → v = (tab.proc np).xstate) (ret : CInt) :
    TableInv
      ((tab.freeproc np).log (.waited (tab.gen p) (tab.gen np) (tab.proc np).pid status))
      (update (update pc p (.waitRel np ret)) np .idle) := by
  have hwait : pcWait (pc p) = some np := by rw [hpc]; rfl
  have hjust := h.justified hwait hzombie hstatus
  have hnotlive : ∀ q, ProcState.Live (tab.proc q).state → q ≠ np := by
    rintro q hq rfl
    exact (Live.ne hq).2.2 hzombie
  have hlive := h.live_of_active (p := p) (by rw [hpc]; rfl)
  have hne := hnotlive p hlive
  have hinit := hnotlive _ h.init.1
  have hnochild : ∀ i, (tab.proc i).parent ≠ some np :=
    fun i hi => hnotlive np (h.parent i np hi) rfl
  -- no fork makes the zombie, and it is not in one itself
  have hdone := h.fork_returned hwait
  have hnofork : pcFork (pc np) = .none := by
    by_contra hf
    exact hnotlive np (h.live_of_active (pcFork_ne_none hf).1) rfl
  generalize htab₁ : tab.freeproc np = tab₁
  obtain ⟨hold, hstate, hparent, hgen₁, hfk₁, hev₁, hng₁⟩ := freeproc_table htab₁
  generalize htab : tab₁.log (.waited (tab.gen p) (tab.gen np) (tab.proc np).pid status) = tab'
  obtain ⟨hproc, hgen, hfk, hng, hev⟩ := log_spec htab
  obtain ⟨pc₁, hpcs₁, hself, hpc₁⟩ := exists_moved pc p (.waitRel np ret)
  obtain ⟨pc', hpcs, hidle, hpc'⟩ := exists_moved pc₁ np .idle
  rw [hpcs₁, hpcs]
  constructor
  case mode => have := h.mode; grind [ModeOk, pcMode]
  case orphan => have := h.orphan; grind
  case parent => have := h.parent; grind
  case linked => have := h.linked; grind
  case init => have := h.init; grind
  case fork =>
    intro q
    have hok := h.fork q
    cases hf : pcFork (pc q) <;> grind [pcFork, ForkOk, ForkStage.slot, pcMode]
  case forkUniq => have := h.forkUniq; grind [pcFork, ForkStage.slot]
  case exit =>
    intro q
    have hok := h.exit q
    cases hx : pcExit (pc q) <;> grind [pcExit, ExitOk]
  case wait => have := h.wait; grind [pcWait]
  case genLt => have := h.genLt; grind
  case genInj => have := h.genInj; grind
  case below => have := h.below; have := h.genLt; have := Live.ne hlive; grind [Event.Below]
  case forker => have := h.forker; grind
  case forked => have := h.forked; grind [pcFork, ForkStage.slot]
  case forkedBy => have := h.forkedBy; grind [pcFork, ForkStage.slot]
  case waited => have := h.waited; have := h.genInj; grind
  case lawful =>
    rw [hev, hev₁]
    exact ⟨hjust, h.lawful⟩

end Xv6.Proofs
