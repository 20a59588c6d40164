import Xv6.Proofs.Proc.Writes
import Mathlib.Data.List.Perm.Subperm
import Mathlib.Data.List.Nodup

/-!
# `Xv6.Proofs.Proc.Reap`: every process is reaped exactly once

The history of a run is `Lawful` (`machineInv_run`), so a `wait` that succeeds names a process
that was forked by the waiting process or was handed to `initproc`, that has called `exit`,
and that no earlier `wait` has returned. A pid is 32 bits wide and comes back after 2^32 calls
of `fork`, so the history names processes by their number; `waits_le_forks` counts what this
means for the pids.

The other direction is about single steps: `zombie_step` says that a `ZOMBIE` slot changes in
such a `wait` only.
-/

set_option autoImplicit false

namespace Xv6.Proofs

open Function

variable {events : List Event} {i : Slot} {pid : CInt} {tab : Table}

/-! ### Counting pids -/

/-- The processes that `fork` has returned under `pid`. -/
def forks (pid : CInt) (events : List Event) : List Nat :=
  events.filterMap fun
    | .forked _ child v => if v = pid then some child else none
    | _ => none

/-- The processes that `wait` has returned under `pid`. -/
def waits (pid : CInt) (events : List Event) : List Nat :=
  events.filterMap fun
    | .waited _ child v _ => if v = pid then some child else none
    | _ => none

/-- The children that were forked with a pid. -/
theorem mem_forks {child : Nat} :
    child ∈ forks pid events ↔ ∃ g, Event.forked g child pid ∈ events := by
  simp only [forks, List.mem_filterMap]
  constructor
  · rintro ⟨e, he, hc⟩
    cases e with
    | forked g ch v =>
      simp only [Option.ite_none_right_eq_some, Option.some.injEq] at hc
      obtain ⟨rfl, rfl⟩ := hc
      exact ⟨g, he⟩
    | exited g v => cases hc
    | waited g ch v st => cases hc
  · rintro ⟨g, hg⟩
    exact ⟨_, hg, if_pos rfl⟩

/-- The children that a `wait` has returned with a pid. -/
theorem mem_waits {child : Nat} :
    child ∈ waits pid events ↔ ∃ g status, Event.waited g child pid status ∈ events := by
  simp only [waits, List.mem_filterMap]
  constructor
  · rintro ⟨e, he, hc⟩
    cases e with
    | forked g ch v => cases hc
    | exited g v => cases hc
    | waited g ch v st =>
      simp only [Option.ite_none_right_eq_some, Option.some.injEq] at hc
      obtain ⟨rfl, rfl⟩ := hc
      exact ⟨g, st, he⟩
  · rintro ⟨g, st, hg⟩
    exact ⟨_, hg, if_pos rfl⟩

/-- In a lawful history no process is returned twice, and each was forked under its pid. -/
theorem waits_lawful (h : Lawful events) :
    (waits pid events).Nodup ∧ waits pid events ⊆ forks pid events := by
  induction events with
  | nil => exact ⟨List.nodup_nil, List.nil_subset _⟩
  | cons e past ih =>
    obtain ⟨hnodup, hsub⟩ := ih h.2
    have hgrow : forks pid past ⊆ forks pid (e :: past) := by
      intro child hc
      obtain ⟨g, hg⟩ := mem_forks.mp hc
      exact mem_forks.mpr ⟨g, List.mem_cons_of_mem _ hg⟩
    cases e with
    | forked g child v => exact ⟨hnodup, List.Subset.trans hsub hgrow⟩
    | exited g v => exact ⟨hnodup, List.Subset.trans hsub hgrow⟩
    | waited g child v status =>
      by_cases hv : v = pid
      · subst hv
        have hcons : waits v (.waited g child v status :: past) = child :: waits v past :=
          List.filterMap_cons_some (if_pos rfl)
        obtain ⟨f, x, hforked, -, -, -, hnew⟩ := h.1
        rw [hcons]
        refine ⟨List.nodup_cons.mpr ⟨?_, hnodup⟩, ?_⟩
        · intro hc
          obtain ⟨g', st', hw⟩ := mem_waits.mp hc
          exact hnew g' v st' hw
        · exact List.cons_subset.mpr
            ⟨hgrow (mem_forks.mpr ⟨f, hforked⟩), List.Subset.trans hsub hgrow⟩
      · have hskip : waits pid (.waited g child v status :: past) = waits pid past :=
          List.filterMap_cons_none (if_neg hv)
        rw [hskip]
        exact ⟨hnodup, List.Subset.trans hsub hgrow⟩

/-- A pid is returned by `wait` at most as often as by `fork`. -/
theorem waits_le_forks (h : Lawful events) :
    (waits pid events).length ≤ (forks pid events).length :=
  let ⟨hnodup, hsub⟩ := waits_lawful h
  (List.subperm_of_subset hnodup hsub).length_le

/-! ### The steps of a zombie -/

/-- The process in slot `i` is the same zombie in both tables. -/
def StillZombie (tab tab' : Table) (i : Slot) : Prop :=
  (tab'.proc i).state = .zombie ∧ (tab'.proc i).pid = (tab.proc i).pid ∧
    (tab'.proc i).xstate = (tab.proc i).xstate ∧ tab'.gen i = tab.gen i

/-- Process `p` frees slot `i` in `wait`, returns its pid and may copy out its status. -/
def Reaps (tab tab' : Table) (p i : Slot) (addr : Nat) : Prop :=
  (tab.proc i).parent = some p ∧ ∃ status, tab'.events =
      .waited (tab.gen p) (tab.gen i) (tab.proc i).pid status :: tab.events ∧
    status = if addr = 0 then none else some (tab.proc i).xstate

theorem stillZombie_refl (hz : (tab.proc i).state = .zombie) :
    StillZombie tab tab i := ⟨hz, rfl, rfl, rfl⟩

/-- Another slot is changed, or a field that is not asked for. -/
theorem stillZombie_upd {j : Slot} {q : Proc} (hz : (tab.proc i).state = .zombie)
    (h : i = j → q.state = (tab.proc i).state ∧ q.pid = (tab.proc i).pid ∧
      q.xstate = (tab.proc i).xstate) : StillZombie tab (tab.upd j q) i := by
  by_cases hij : i = j
  · obtain ⟨hst, hpid, hx⟩ := h hij
    subst hij
    have hq : (tab.upd i q).proc i = q := Function.update_self _ _ _
    exact ⟨by rw [hq, hst, hz], by rw [hq, hpid], by rw [hq, hx], rfl⟩
  · have hq : (tab.upd j q).proc i = tab.proc i := Function.update_of_ne hij _ _
    exact ⟨by rw [hq, hz], by rw [hq], by rw [hq], rfl⟩

theorem SameProcs.stillZombie {tab' : Table} (hs : SameProcs tab tab')
    (hz : (tab.proc i).state = .zombie) : StillZombie tab tab' i :=
  ⟨(hs.state_iff i not_live_zombie).mpr hz, hs.pid i, hs.xstate i, congrFun hs.gen i⟩

/-- A `ZOMBIE` slot stays as it is until its parent returns it from `wait`. -/
theorem zombie_step {n : Nat} {m m' : Machine n} {t : Thread n} {c : Choice n} (h : MachineInv m)
    (hstep : m.step t c = some m') (hz : (m.tab.proc i).state = .zombie) :
    StillZombie m.tab m'.tab i ∨ ∃ p addr, t = .proc p ∧ m.pc (.proc p) = .waitCheck addr i ∧
      ¬ (addr ≠ 0 ∧ c.fails) ∧ Reaps m.tab m'.tab p i addr := by
  have hwrote := step_writes h hstep
  generalize m'.tab = tab' at hwrote ⊢
  -- the slot that `fork` takes or gives back
  have hother {np : Slot} {st : ProcState} (hst : (m.tab.proc np).state = st)
      (hne : st ≠ .zombie) : i ≠ np := by
    rintro rfl
    exact hne (hst.symm.trans hz)
  cases hwrote with
  | same | pidNext | exited | forked => exact Or.inl (stillZombie_refl hz)
  | entry j q _ _ _ _ hpid hzombie =>
    refine Or.inl (stillZombie_upd (q := q) hz ?_)
    rintro rfl
    exact ⟨(hzombie hz).1.trans hz.symm, hpid, (hzombie hz).2⟩
  | trap =>
    refine Or.inl (stillZombie_upd hz ?_)
    rintro rfl
    exact ⟨rfl, rfl, rfl⟩
  | kill j => exact Or.inl ((sameProcs_kill m.tab j).stillZombie hz)
  | alloc np pid _ hfree =>
    have hne := hother hfree fun hst => by cases hst
    have hupd := stillZombie_upd (q := { m.tab.proc np with pid := pid, state := .used }) hz
      fun hc => absurd hc hne
    exact Or.inl ⟨hupd.1, hupd.2.1, hupd.2.2.1, Function.update_of_ne hne _ _⟩
  | free np hused =>
    have hne := hother hused fun hst => by cases hst
    exact Or.inl (stillZombie_upd hz fun hc => absurd hc hne)
  | @reap p addr np hpc hcopied =>
    by_cases hi : i = np
    · subst hi
      exact Or.inr ⟨p, addr, rfl, hpc, hcopied, h.table.wait p i (by rw [hpc]; rfl), _, rfl, rfl⟩
    · exact Or.inl (stillZombie_upd hz fun hc => absurd hc hi)

/-- A `wait` whose `copyout` fails returns -1 and changes nothing in the table. -/
theorem wait_copyout_fails {n : Nat} {m : Machine n} {p : Slot} {addr : Nat}
    (hpc : m.pc (.proc p) = .waitCheck addr i) (hz : (m.tab.proc i).state = .zombie)
    (haddr : addr ≠ 0) : ∃ m', m.step (.proc p) .fail = some m' ∧ m'.tab = m.tab ∧
      m'.pc (.proc p) = .waitRel i (-1) := by
  refine ⟨{ m with pc := update m.pc (.proc p) (.waitRel i (-1)) }, ?_, rfl, by simp⟩
  simp [Machine.step, hpc, procInstr, sleepInstr, wakeInstr, killInstr, forkInstr, exitInstr,
    waitInstr, Choice.fails, hz, haddr, Machine.exec]

/-- Every process is reaped exactly once, by its parent or by `initproc`. In every state of
every run: a process past its `fork` has a parent; parents are neither unused nor zombies; the
history is lawful, and a pid is returned by `wait` at most as often as by `fork`; a zombie
stays until its parent returns it, also if a `copyout` fails. -/
theorem exactly_once_reaping {n : Nat} {m : Machine n} {acts : List (Thread n × Choice n)}
    (hrun : (Machine.boot n).run acts = some m) :
    (∀ i, i ≠ initproc → (m.tab.proc i).state ≠ .unused → (m.tab.proc i).state ≠ .used →
      (m.tab.proc i).parent ≠ none) ∧
    (∀ i q, (m.tab.proc i).parent = some q →
      (m.tab.proc q).state ≠ .unused ∧ (m.tab.proc q).state ≠ .zombie) ∧
    Lawful m.tab.events ∧
    (∀ pid, (waits pid m.tab.events).length ≤ (forks pid m.tab.events).length) ∧
    (∀ t c m' i, m.step t c = some m' → (m.tab.proc i).state = .zombie →
      StillZombie m.tab m'.tab i ∨ ∃ p addr, t = .proc p ∧ m.pc (.proc p) = .waitCheck addr i ∧
        ¬ (addr ≠ 0 ∧ c.fails) ∧ Reaps m.tab m'.tab p i addr) ∧
    ∀ p addr i, m.pc (.proc p) = .waitCheck addr i → (m.tab.proc i).state = .zombie → addr ≠ 0 →
      ∃ m', m.step (.proc p) .fail = some m' ∧ m'.tab = m.tab ∧
        m'.pc (.proc p) = .waitRel i (-1) := by
  have h := machineInv_run (machineInv_boot n) hrun
  refine ⟨h.table.linked, fun i q hq => ?_, h.table.lawful,
    fun pid => waits_le_forks h.table.lawful, fun t c m' i hstep hz => zombie_step h hstep hz,
    fun p addr i hpc hz haddr => wait_copyout_fails hpc hz haddr⟩
  have hlive := Live.ne (h.table.parent i q hq)
  exact ⟨hlive.1, hlive.2.2⟩

/-- On one CPU, `initproc` forks, the child exits with 7, and `initproc` waits for it. -/
def forkExitWait : List (Thread 1 × Choice 1) :=
  let go (t : Thread 1) (k : Nat) : List (Thread 1 × Choice 1) := List.replicate k (t, .go)
  let cpu : Thread 1 := .cpu (Fin.last 0)
  let init : Thread 1 := .proc initproc
  let child : Thread 1 := .proc (Slot.next initproc)
  go cpu 2 ++ go init 1 ++ [(init, .fork)] ++ go init 18 ++
  [(init, .yield)] ++ go init 2 ++ [(init, .cpu (Fin.last 0))] ++ go cpu 3 ++
  go child 1 ++ [(child, .exit 7)] ++ go child 133 ++ [(child, .cpu (Fin.last 0))] ++ go cpu 93 ++
  go init 1 ++ [(init, .wait 1)] ++ go init 6

/-- The first process forks, and waits for the child to exit. -/
theorem exactly_once_reaping_forkExitWait :
    ∃ m, (Machine.boot 1).run forkExitWait = some m ∧
      m.tab.events = [.waited 0 1 2 (some 7), .exited 1 7, .forked 0 1 2] ∧
      Lawful m.tab.events := by
  have hrun : (((Machine.boot 1).run forkExitWait).any fun m =>
      m.tab.events = [.waited 0 1 2 (some 7), .exited 1 7, .forked 0 1 2]) = true := by
    decide +kernel
  obtain ⟨m, hm, hevents⟩ := (Option.any_eq_true _ _).mp hrun
  exact ⟨m, hm, of_decide_eq_true hevents, (exactly_once_reaping hm).2.2.1⟩

end Xv6.Proofs
