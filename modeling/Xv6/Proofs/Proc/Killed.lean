import Mathlib.Data.List.Induction
import Xv6.Proofs.Proc.Writes

/-!
# `Xv6.Proofs.Proc.Killed`: who is marked killed

`kill` scans the table for a pid without looking at the state, and a free slot has pid 0. So
`kill(0)` marks the first free slot, and since only `freeproc` clears the mark, the next process in
that slot is born killed (`kill_zero`). As long as no free slot is marked, a process is
marked killed only for a cause of its own (`killed_for_cause`).

The step lemma is about one slot: a step keeps what it says about the mark (`MarkKept`), or it is
the one that sets it (`Marks`).
-/

set_option autoImplicit false

namespace Xv6.Proofs

open Function (update)
open Lib

variable {n : Nat}

variable {acts : List (Thread n × Choice n)} {m' : Machine n} {t : Thread n}

/-! ### Causes -/

/-- In this step a process in `kill(pid)` finds slot `i`, or the process in slot `i` takes an
unexpected trap. -/
def Marks (m : Machine n) (t : Thread n) (c : Choice n) (i : Slot) (pid : CInt) : Prop :=
  (∃ q, t = .proc q ∧ m.pc (.proc q) = .killCheck i pid) ∨
    (t = .proc i ∧ m.pc (.proc i) = .user ∧ c = .trap)

/-- The slot that `kill` is looking at, and the pid that it looks for. -/
def killTarget : Pc → Option (Slot × CInt)
  | .killCheck i pid => some (i, pid)
  | _ => none

/-- The step of thread `t` does not mark a free slot. -/
def SparesFree (m : Machine n) (t : Thread n) : Prop :=
  ∀ x ∈ killTarget (m.pc t), (m.tab.proc x.1).pid = x.2 → (m.tab.proc x.1).state ≠ .unused

instance (m : Machine n) (t : Thread n) : Decidable (SparesFree m t) :=
  -- by the one target, not by all pids
  Option.decidableForallMem (killTarget (m.pc t))

/-- All steps of the run from `m` are `ok`. -/
def StepsOk (ok : Machine n → Thread n → Prop) : Machine n → List (Thread n × Choice n) → Prop
  | _, [] => True
  | m, (t, c) :: acts => ok m t ∧ ∀ m' ∈ m.step t c, StepsOk ok m' acts

instance StepsOk.decidable (ok : Machine n → Thread n → Prop) [∀ m t, Decidable (ok m t)] :
    ∀ m acts, Decidable (StepsOk ok m acts)
  | _, [] => isTrue trivial
  | m, (t, c) :: acts =>
    have : ∀ m', Decidable (StepsOk ok m' acts) := fun m' => StepsOk.decidable ok m' acts
    have : Decidable (∀ m' ∈ m.step t c, StepsOk ok m' acts) :=
      Option.decidableForallMem (m.step t c)
    inferInstanceAs (Decidable (ok m t ∧ ∀ m' ∈ m.step t c, StepsOk ok m' acts))

/-- Since `allocproc` took slot `i` for the process that is there in `m`, someone was in `kill` with
its pid and found it, or it took an unexpected trap. -/
def Cause (acts : List (Thread n × Choice n)) (m : Machine n) (i : Slot) : Prop :=
  ∃ before t c after m₀, acts = before ++ (t, c) :: after ∧
    (Machine.boot n).run before = some m₀ ∧ (m₀.tab.proc i).state ≠ .unused ∧
    m₀.tab.gen i = m.tab.gen i ∧ Marks m₀ t c i (m.tab.proc i).pid

/-! ### One slot in one step -/

/-- A marked process was marked before the step, and a free slot is not marked. -/
structure MarkKept (tab tab' : Table) (i : Slot) : Prop where
  marked : (tab'.proc i).state ≠ .unused → (tab'.proc i).killed = true →
    (tab.proc i).state ≠ .unused ∧ (tab.proc i).killed = true ∧ tab'.gen i = tab.gen i ∧
      (tab'.proc i).pid = (tab.proc i).pid
  free : (tab'.proc i).state = .unused → (tab'.proc i).killed = false

section Slot

variable {tab tab' : Table}

/-- No free slot is marked. -/
def FreeClear (tab : Table) : Prop :=
  ∀ i, (tab.proc i).state = .unused → (tab.proc i).killed = false

theorem markKept_refl (h : FreeClear tab) (i : Slot) : MarkKept tab tab i :=
  ⟨fun hst hk => ⟨hst, hk, rfl, rfl⟩, h i⟩

/-- A step that leaves the mark, the pid and the number of the process. -/
theorem markKept_of_same (h : FreeClear tab) {i : Slot}
    (hst : (tab'.proc i).state = .unused ↔ (tab.proc i).state = .unused)
    (hk : (tab'.proc i).killed = (tab.proc i).killed) (hgen : tab'.gen i = tab.gen i)
    (hpid : (tab'.proc i).pid = (tab.proc i).pid) : MarkKept tab tab' i :=
  ⟨fun hst' hk' => ⟨fun hun => hst' (hst.mpr hun), hk ▸ hk', hgen, hpid⟩,
    fun hun => hk.trans (h i (hst.mp hun))⟩

/-- One entry is changed. -/
theorem markKept_upd (h : FreeClear tab) {j : Slot} {q : Proc}
    (hst : q.state = .unused ↔ (tab.proc j).state = .unused)
    (hk : q.killed = (tab.proc j).killed) (hpid : q.pid = (tab.proc j).pid) (i : Slot) :
    MarkKept tab (tab.upd j q) i := by
  by_cases hi : i = j
  · subst hi
    refine markKept_of_same h ?_ ?_ rfl ?_ <;> rw [upd_proc, if_pos rfl] <;> assumption
  · refine markKept_of_same h ?_ ?_ rfl ?_ <;> rw [upd_proc, if_neg hi]

/-- `freeproc` leaves no mark in the slot that it frees. -/
theorem markKept_freeproc (h : FreeClear tab) (j i : Slot) : MarkKept tab (tab.freeproc j) i := by
  have hproc : (tab.freeproc j).proc i = if i = j then { tab.proc j with
      pid := 0, parent := none, chan := none, killed := false, xstate := 0, state := .unused }
      else tab.proc i := upd_proc tab j i _
  by_cases hi : i = j
  · rw [if_pos hi] at hproc
    exact ⟨fun hst => absurd (by rw [hproc]) hst, fun _ => by rw [hproc]⟩
  · rw [if_neg hi] at hproc
    exact markKept_of_same h (by rw [hproc]) (by rw [hproc]) rfl (by rw [hproc])

/-- `allocproc` takes a free slot, which is not marked. -/
theorem markKept_alloc (h : FreeClear tab) {j : Slot} (hfree : (tab.proc j).state = .unused)
    (pid : CInt) (i : Slot) : MarkKept tab (tab.alloc j pid) i := by
  have hproc : (tab.alloc j pid).proc i
      = if i = j then { tab.proc j with pid := pid, state := .used } else tab.proc i :=
    upd_proc tab j i _
  by_cases hi : i = j
  · rw [if_pos hi] at hproc
    refine ⟨fun _ hk => ?_, fun hst => ?_⟩
    · rw [hproc] at hk
      exact absurd hk (by rw [show _ = _ from h j hfree]; decide)
    · rw [hproc] at hst
      cases hst
  · rw [if_neg hi] at hproc
    exact markKept_of_same h (by rw [hproc]) (by rw [hproc]) (Function.update_of_ne hi _ _)
      (by rw [hproc])

end Slot

/-! ### The steps -/

/-- The step marks the process in slot `i`, which was there before. -/
structure MarkSet (m : Machine n) (t : Thread n) (c : Choice n) (tab' : Table) (i : Slot) :
    Prop where
  marks : Marks m t c i (m.tab.proc i).pid
  used : (m.tab.proc i).state ≠ .unused
  used' : (tab'.proc i).state ≠ .unused
  gen : tab'.gen i = m.tab.gen i
  pid : (tab'.proc i).pid = (m.tab.proc i).pid

section Steps

variable {m : Machine n} {p : Slot} {c : Choice n} {ins : Instr}

/-- A step keeps the mark of a slot, or sets it for a cause. -/
theorem step_marks (h : MachineInv m) (hf : FreeClear m.tab) (hspare : SparesFree m t)
    (hstep : m.step t c = some m') (i : Slot) :
    MarkKept m.tab m'.tab i ∨ MarkSet m t c m'.tab i := by
  have hwrote := step_writes h hstep
  generalize m'.tab = tab' at hwrote ⊢
  cases hwrote with
  | same => exact Or.inl (markKept_refl hf i)
  | entry j q _ hused hst hkilled hpid =>
    have hupd := markKept_upd hf (iff_of_false hst hused) hkilled hpid i
    exact Or.inl ⟨hupd.marked, hupd.free⟩
  | @trap p hpc hc =>
    have hused := h.not_unused (p := p) (by rw [hpc]; rfl)
    have hproc := upd_proc m.tab p i { m.tab.proc p with killed := true }
    by_cases hi : i = p
    · subst hi
      rw [if_pos rfl] at hproc
      refine Or.inr ⟨Or.inr ⟨rfl, hpc, hc⟩, hused, ?_, rfl, ?_⟩ <;> simp only [hproc]
      exact hused
    · rw [if_neg hi] at hproc
      refine Or.inl (markKept_of_same hf ?_ ?_ rfl ?_) <;> simp only [hproc]
  | @kill p j hpc =>
    by_cases hi : i = j
    · subst hi
      have hused : (m.tab.proc i).state ≠ .unused := hspare (i, _) (by rw [hpc]; rfl) rfl
      have hs := sameProcs_kill m.tab i
      exact Or.inr ⟨Or.inl ⟨p, rfl, hpc⟩, hused,
        fun hun => hused ((hs.state_iff i not_live_unused).mp hun), rfl, hs.pid i⟩
    · have hproc : (m.tab.kill j).proc i = m.tab.proc i := (upd_proc _ _ _ _).trans (if_neg hi)
      refine Or.inl (markKept_of_same hf ?_ ?_ rfl ?_) <;> simp only [hproc]
  | pidNext | exited | forked => exact Or.inl ⟨fun hst hk => ⟨hst, hk, rfl, rfl⟩, hf i⟩
  | alloc np pid _ hfree => exact Or.inl (markKept_alloc hf hfree pid i)
  | free np => exact Or.inl (markKept_freeproc hf np i)
  | reap addr np =>
    have hfree := markKept_freeproc hf np i
    exact Or.inl ⟨hfree.marked, hfree.free⟩

end Steps

/-! ### Runs -/

theorem freeClear_boot (n : Nat) : FreeClear (Machine.boot n).tab := by
  intro i _
  show (if i = initproc then _ else _ : Proc).killed = _
  split <;> rfl

theorem freeClear_step {m : Machine n} {c : Choice n} (h : MachineInv m) (hf : FreeClear m.tab)
    (hspare : SparesFree m t) (hstep : m.step t c = some m') : FreeClear m'.tab := by
  intro i hfree
  rcases step_marks h hf hspare hstep i with hkept | hset
  · exact hkept.free hfree
  · exact absurd hfree hset.used'

/-- The steps of a run, one after the other. -/
theorem run_snoc {m : Machine n} {c : Choice n} (h : m.run (acts ++ [(t, c)]) = some m') :
    ∃ m₁, m.run acts = some m₁ ∧ m₁.step t c = some m' := by
  induction acts generalizing m with
  | nil =>
    obtain ⟨m₁, hstep, hrest⟩ := Option.bind_eq_some_iff.mp h
    cases hrest
    exact ⟨m, rfl, hstep⟩
  | cons a acts ih =>
    obtain ⟨m₁, hstep, hrest⟩ := Option.bind_eq_some_iff.mp h
    obtain ⟨m₂, hrun, hlast⟩ := ih hrest
    exact ⟨m₂, Option.bind_eq_some_iff.mpr ⟨m₁, hstep, hrun⟩, hlast⟩

/-- A run whose steps are all of a kind, and its last step. -/
theorem stepsOk_snoc {ok : Machine n → Thread n → Prop} {m m₁ : Machine n} {c : Choice n}
    (h : StepsOk ok m (acts ++ [(t, c)])) (hrun : m.run acts = some m₁) :
    StepsOk ok m acts ∧ ok m₁ t := by
  induction acts generalizing m with
  | nil =>
    cases hrun
    exact ⟨trivial, h.1⟩
  | cons a acts ih =>
    obtain ⟨m₂, hstep, hrest⟩ := Option.bind_eq_some_iff.mp hrun
    obtain ⟨-, hlast⟩ := ih (h.2 m₂ hstep) hrest
    refine ⟨⟨h.1, fun m' hm' => ?_⟩, hlast⟩
    rw [Option.mem_def, hstep] at hm'
    cases hm'
    exact (ih (h.2 m₂ hstep) hrest).1

/-- Along a run that marks no free slot, every mark has a cause. -/
theorem run_marks :
    ∀ {m : Machine n}, (Machine.boot n).run acts = some m →
      StepsOk SparesFree (Machine.boot n) acts →
      FreeClear m.tab ∧ ∀ i, (m.tab.proc i).state ≠ .unused → (m.tab.proc i).killed = true →
        Cause acts m i := by
  induction acts using List.reverseRecOn with
  | nil =>
    intro m hrun _
    cases hrun
    refine ⟨freeClear_boot n, fun i _ hk => ?_⟩
    have hclear : ((Machine.boot n).tab.proc i).killed = false := by
      show (if i = initproc then _ else _ : Proc).killed = _
      split <;> rfl
    rw [hclear] at hk
    cases hk
  | append_singleton acts a ih =>
    obtain ⟨t, c⟩ := a
    intro m hrun hok
    obtain ⟨m₁, hrun₁, hstep⟩ := run_snoc hrun
    obtain ⟨hok₁, hspare⟩ := stepsOk_snoc hok hrun₁
    obtain ⟨hf, hcause⟩ := ih hrun₁ hok₁
    have hinv := machineInv_run (machineInv_boot n) hrun₁
    refine ⟨freeClear_step hinv hf hspare hstep, fun i hst hk => ?_⟩
    rcases step_marks hinv hf hspare hstep i with hkept | hset
    · obtain ⟨hst₁, hk₁, hgen, hpid⟩ := hkept.marked hst hk
      obtain ⟨before, t', c', after, m₀, rfl, hrun₀, hst₀, hgen₀, hmarks⟩ := hcause i hst₁ hk₁
      exact ⟨before, t', c', after ++ [(t, c)], m₀, by simp, hrun₀, hst₀, hgen₀.trans hgen.symm,
        hpid ▸ hmarks⟩
    · exact ⟨acts, t, c, [], m₁, rfl, hrun₁, hset.used, hset.gen.symm, hset.pid ▸ hset.marks⟩

/-- A process is marked killed only for cause, and starts unmarked, in every run in which no `kill`
marks a free slot. -/
theorem killed_for_cause {acts : List (Thread n × Choice n)} {m : Machine n}
    (hrun : (Machine.boot n).run acts = some m)
    (hok : StepsOk SparesFree (Machine.boot n) acts) :
    (∀ i, (m.tab.proc i).state ≠ .unused → (m.tab.proc i).killed = true → Cause acts m i) ∧
    ∀ p np pid, m.pc (.proc p) = .allocUsed np pid →
      ((m.tab.alloc np pid).proc np).killed = false := by
  obtain ⟨hf, hcause⟩ := run_marks hrun hok
  refine ⟨hcause, fun p np pid hpc => ?_⟩
  have hfree := (machineInv_run (machineInv_boot n) hrun).table.fork p
  rw [hpc] at hfree
  have hproc : (m.tab.alloc np pid).proc np = { m.tab.proc np with pid := pid, state := .used } :=
    Function.update_self _ _ _
  rw [hproc]
  exact hf np hfree

/-- `initproc` kills itself. -/
def killSelf : List (Thread 1 × Choice 1) :=
  let init : Thread 1 := .proc initproc
  [(.cpu (Fin.last 0), .go), (.cpu (Fin.last 0), .go), (init, .go), (init, .kill 1), (init, .go),
    (init, .go)]

/-- The first process kills itself. -/
theorem killed_for_cause_killSelf :
    ∃ m, (Machine.boot 1).run killSelf = some m ∧
      StepsOk SparesFree (Machine.boot 1) killSelf ∧
      (m.tab.proc initproc).killed = true ∧ Cause killSelf m initproc := by
  have hok : StepsOk SparesFree (Machine.boot 1) killSelf := by decide +kernel
  have hrun : (((Machine.boot 1).run killSelf).any fun m =>
      (m.tab.proc initproc).state ≠ .unused ∧ (m.tab.proc initproc).killed = true) = true := by
    decide +kernel
  obtain ⟨m, hm, hfacts⟩ := (Option.any_eq_true _ _).mp hrun
  have hfacts := of_decide_eq_true hfacts
  exact ⟨m, hm, hok, hfacts.2, (killed_for_cause hm hok).1 initproc hfacts.1 hfacts.2⟩

/-- `initproc` calls `kill(0)` and then `fork`. -/
def killZero : List (Thread 1 × Choice 1) :=
  let go (t : Thread 1) (k : Nat) : List (Thread 1 × Choice 1) := List.replicate k (t, .go)
  let init : Thread 1 := .proc initproc
  go (.cpu (Fin.last 0)) 2 ++ go init 1 ++ [(init, .kill 0)] ++ go init 6 ++ [(init, .fork)] ++
    go init 18

/-- The child is marked killed, although nobody called `kill` with its pid, which is 2, and nobody
took an unexpected trap. -/
theorem kill_zero :
    ∃ m i, (Machine.boot 1).run killZero = some m ∧ m.tab.events = [.forked 0 1 2] ∧
      (m.tab.proc i).state = .runnable ∧ (m.tab.proc i).killed = true ∧ (m.tab.proc i).pid = 2 ∧
      ∀ t c, (t, c) ∈ killZero → c ≠ .kill 2 ∧ c ≠ .trap := by
  have hrun : (((Machine.boot 1).run killZero).any fun m =>
      m.tab.events = [.forked 0 1 2] ∧ (m.tab.proc (Slot.next initproc)).state = .runnable ∧
        (m.tab.proc (Slot.next initproc)).killed = true ∧
        (m.tab.proc (Slot.next initproc)).pid = 2) = true := by
    decide +kernel
  obtain ⟨m, hm, hfacts⟩ := (Option.any_eq_true _ _).mp hrun
  obtain ⟨hevents, hst, hk, hpid⟩ := of_decide_eq_true hfacts
  refine ⟨m, Slot.next initproc, hm, hevents, hst, hk, hpid, fun t c hmem => ?_⟩
  simp only [killZero, List.mem_append, List.mem_replicate, List.mem_singleton, Prod.mk.injEq]
    at hmem
  rcases hmem with ((((⟨-, -, rfl⟩ | ⟨-, -, rfl⟩) | ⟨-, rfl⟩) | ⟨-, -, rfl⟩) | ⟨-, rfl⟩) |
    ⟨-, -, rfl⟩ <;> simp

end Xv6.Proofs
