import Xv6.Proofs.Proc.Run

/-!
# `Xv6.Proofs.Proc.Wakeup`: no lost wakeup between `exit` and `wait`

`exit` calls `wakeup` before it sets `ZOMBIE`, and `sleep` gives up `wait_lock` before it sets
`SLEEPING`. What saves both is that `sleep` takes `p->lock` first and `wakeup` takes every
`p->lock` in turn. `WakeInv` says it for each of the places in between.

A process counts as asleep from the moment it gives up `wait_lock` in `sleep` (`Asleep`). A zombie
may have a parent asleep only while a `wakeup` under `wait_lock` has still to come to the parent's
slot (`WakeInv.wakes`). A dying process whose `wakeup` has passed its parent finds it not asleep
(`WakeInv.passed`), and `wait` goes to sleep only if it has seen no zombie (`WakeInv.scanned`).

All these places are inside `wait_lock`. So a step outside it changes none of them
(`WakeInv.quiet`), and inside it only the process that takes the step matters (`WakeInv.solo`).
-/

set_option autoImplicit false

namespace Xv6.Proofs

open Function (update update_of_ne update_self)
open List
open Lib

variable {c : Cont} {i j r : Slot} {next : Pc} {status : CInt}

/-! ### The invariant -/

/-- The process sleeps in `wait`, or has given up `wait_lock` to go to sleep. -/
def Asleep (tab : Table) (pc : Slot → Pc) (p : Slot) : Prop :=
  (∃ addr, pc p = .waitSleepSet addr) ∨
    ((tab.proc p).state = .sleeping ∧ (tab.proc p).chan = some (.proc p))

/-- A `wakeup` of `p` under `wait_lock` that has still to come to slot `p`. -/
def WakePending (p : Slot) : Pc → Prop
  | .wake j chan c => chan = some (.proc p) ∧ contLocks c = [.wait] ∧ j ≤ p
  | .wakeCheck j chan c => chan = some (.proc p) ∧ contLocks c = [.wait] ∧ j ≤ p
  | .wakeRel j chan c => chan = some (.proc p) ∧ contLocks c = [.wait] ∧ j < p
  | _ => False

/-- The `wakeup` of a dying process has passed slot `p`. -/
def Passed (p : Slot) : Pc → Prop
  | .wake j _ (.exit _) => p < j
  | .wakeCheck j _ (.exit _) => p < j
  | .wakeRel j _ (.exit _) => p ≤ j
  | .exitLock _ => True
  | .exitSet _ => True
  | _ => False

/-- What the `wakeup` of a dying process is called with. -/
def exitChan : Pc → Option (Option Chan)
  | .wake _ chan (.exit _) => some chan
  | .wakeCheck _ chan (.exit _) => some chan
  | .wakeRel _ chan (.exit _) => some chan
  | _ => none

/-- `wait` has looked at the slots below this one. -/
def pcScanned : Pc → Nat
  | .waitScan _ i _ => i
  | .waitChild _ np => np
  | .waitCheck _ np => np
  | .waitNext _ np => np + 1
  | .waitSleep _ => NPROC
  | .waitSleepRel _ => NPROC
  | _ => 0

/-- The invariant of `exit` and `wait`. -/
structure WakeInv (tab : Table) (pc : Slot → Pc) : Prop where
  wakes : ∀ c p, (tab.proc c).state = .zombie → (tab.proc c).parent = some p →
    Asleep tab pc p → ∃ q, q ≠ p ∧ WakePending p (pc q)
  passed : ∀ c p, (tab.proc c).parent = some p → Passed p (pc c) → ¬ Asleep tab pc p
  chan : ∀ c chan, exitChan (pc c) = some chan → chan = (tab.proc c).parent.map .proc
  scanned : ∀ p c : Slot, c < pcScanned (pc p) → (tab.proc c).parent = some p →
    (tab.proc c).state ≠ .zombie

/-- `sleep` has given up `wait_lock` and is about to set `SLEEPING`. -/
def setsSleep : Pc → Bool
  | .waitSleepSet _ => true
  | _ => false

/-- The invariant asks nothing at this place. -/
structure Silent (pc : Pc) : Prop where
  pending : ∀ p, ¬ WakePending p pc
  passed : ∀ p, ¬ Passed p pc
  chan : exitChan pc = none
  scanned : pcScanned pc = 0

attribute [grind cases] Silent

theorem silent_rfl {pc : Pc} (hpending : ∀ p, WakePending p pc = False)
    (hpassed : ∀ p, Passed p pc = False) (hchan : exitChan pc = none)
    (hscanned : pcScanned pc = 0) : Silent pc :=
  ⟨fun p h => (hpending p).mp h, fun p h => (hpassed p).mp h, hchan, hscanned⟩

/-- It asks nothing outside `wait_lock`. -/
theorem silent_of_unlocked (self : Option Slot) {pc : Pc} (h : .wait ∉ pcLocks self pc) :
    Silent pc := by
  have hcont : ∀ {c : Cont}, .wait ∉ contLocks c →
      contLocks c ≠ [.wait] ∧ ∀ status, c ≠ .exit status := by
    intro c hc
    cases c <;> simp [contLocks] at hc ⊢
  cases pc with
  | wake j chan c =>
    have hc := hcont (show .wait ∉ contLocks c from h)
    refine ⟨fun p hp => hc.1 hp.2.1, ?_, ?_, rfl⟩ <;> cases c <;> simp_all [Passed, exitChan]
  | wakeCheck j chan c =>
    have hc := hcont (fun hin => h (mem_cons_of_mem _ hin))
    refine ⟨fun p hp => hc.1 hp.2.1, ?_, ?_, rfl⟩ <;> cases c <;> simp_all [Passed, exitChan]
  | wakeRel j chan c =>
    have hc := hcont (fun hin => h (mem_cons_of_mem _ hin))
    refine ⟨fun p hp => hc.1 hp.2.1, ?_, ?_, rfl⟩ <;> cases c <;> simp_all [Passed, exitChan]
  | _ =>
    first
    | exact silent_rfl (fun _ => rfl) (fun _ => rfl) rfl rfl
    | exact absurd (by simp [pcLocks]) h

/-! ### Steps outside `wait_lock` -/

section Quiet

variable {tab tab' : Table} {pc pc' : Slot → Pc}

/-- A step that makes no zombie, puts nobody to sleep and moves only silent processes. -/
theorem WakeInv.quiet (h : WakeInv tab pc)
    (hparent : ∀ i, (tab'.proc i).parent = (tab.proc i).parent)
    (hzombie : ∀ i, (tab'.proc i).state = .zombie → (tab.proc i).state = .zombie)
    (hasleep : ∀ i, Asleep tab' pc' i → Asleep tab pc i)
    (hpc : ∀ q, pc' q = pc q ∨ (Silent (pc q) ∧ Silent (pc' q))) : WakeInv tab' pc' := by
  constructor
  case wakes => have := h.wakes; grind
  case passed => have := h.passed; grind
  case chan => have := h.chan; grind
  case scanned => have := h.scanned; grind

/-- The step of a silent process `p` that makes no zombie and puts nobody to sleep. -/
theorem WakeInv.move (h : WakeInv tab pc) {p : Slot}
    (hparent : ∀ i, (tab'.proc i).parent = (tab.proc i).parent)
    (hzombie : ∀ i, (tab'.proc i).state = .zombie → (tab.proc i).state = .zombie)
    (hsleep : ∀ i, (tab'.proc i).state = .sleeping → (tab'.proc i).chan = some (.proc i) →
      Asleep tab pc i) (hold : Silent (pc p)) (hnext : Silent next)
    (hset : setsSleep next = false) : WakeInv tab' (update pc p next) := by
  refine h.quiet hparent hzombie ?_ fun q => ?_
  · grind [Asleep, setsSleep]
  · by_cases hq : q = p
    · rw [hq, update_self]
      exact Or.inr ⟨hold, hnext⟩
    · exact Or.inl (update_of_ne hq _ _)

/-- It changes one entry, and does not put that process to sleep. -/
theorem WakeInv.upd (h : WakeInv tab pc) {p : Slot} {q : Proc}
    (hparent : q.parent = (tab.proc i).parent) (hzombie : q.state ≠ .zombie)
    (hsleep : q.state = .sleeping → q.chan = some (.proc i) → Asleep tab pc i)
    (hold : Silent (pc p)) (hnext : Silent next) (hset : setsSleep next = false) :
    WakeInv (tab.upd i q) (update pc p next) := by
  refine h.move (fun j => ?_) (fun j hz => ?_) (fun j hst hchan => ?_) hold hnext hset <;>
    grind [upd_proc, Asleep]

/-- The step of a silent process that does not change the table. -/
theorem WakeInv.walk (h : WakeInv tab pc) {p : Slot} (hold : Silent (pc p)) (hnext : Silent next)
    (hset : setsSleep next = false) : WakeInv tab (update pc p next) :=
  h.move (fun _ => rfl) (fun _ hz => hz) (fun _ hst hchan => Or.inr ⟨hst, hchan⟩) hold hnext hset

/-- `wakeup` and `kill` put nobody to sleep. -/
theorem wake_asleep {chan : Option Chan} (hst : ((tab.wake j chan).proc i).state = .sleeping)
    (hchan : ((tab.wake j chan).proc i).chan = some (.proc i)) :
    ((tab.proc i).state = .sleeping ∧ (tab.proc i).chan = some (.proc i)) ∧
      ¬ (i = j ∧ chan = some (.proc i)) := by
  grind [Table.wake, upd_proc]

theorem kill_asleep (hst : ((tab.kill j).proc i).state = .sleeping)
    (hchan : ((tab.kill j).proc i).chan = some (.proc i)) :
    (tab.proc i).state = .sleeping ∧ (tab.proc i).chan = some (.proc i) := by
  grind [Table.kill, upd_proc]

end Quiet

/-! ### Steps inside `wait_lock` -/

section Solo

variable {tab tab' : Table} {pc pc' : Slot → Pc} {p : Slot}

/-- Inside `wait_lock` a zombie's parent is asleep only if this process will wake it. -/
theorem WakeInv.pending_self (h : WakeInv tab pc) (hothers : ∀ q, q ≠ p → Silent (pc q)) {c : Slot}
    (hz : (tab.proc c).state = .zombie) (hr : (tab.proc c).parent = some r)
    (hsleep : Asleep tab pc r) : p ≠ r ∧ WakePending r (pc p) := by
  obtain ⟨q, hq, hpend⟩ := h.wakes c r hz hr hsleep
  by_cases hqp : q = p
  · exact hqp ▸ ⟨hq, hpend⟩
  · exact absurd hpend ((hothers q hqp).pending r)

/-- After a step inside `wait_lock`, the invariant is about the process that took it. -/
theorem WakeInv.solo (hothers : ∀ q, q ≠ p → Silent (pc' q))
    (hwakes : ∀ c r, (tab'.proc c).state = .zombie → (tab'.proc c).parent = some r →
      Asleep tab' pc' r → p ≠ r ∧ WakePending r (pc' p))
    (hpassed : ∀ r, (tab'.proc p).parent = some r → Passed r (pc' p) → ¬ Asleep tab' pc' r)
    (hchan : ∀ chan, exitChan (pc' p) = some chan → chan = (tab'.proc p).parent.map .proc)
    (hscanned : ∀ c : Slot, c < pcScanned (pc' p) → (tab'.proc c).parent = some p →
      (tab'.proc c).state ≠ .zombie) : WakeInv tab' pc' := by
  have hself : ∀ q, Silent (pc' q) ∨ q = p := fun q => or_iff_not_imp_right.mpr (hothers q)
  constructor
  case wakes => exact fun c r hz hr hsleep => ⟨p, hwakes c r hz hr hsleep⟩
  case passed => grind
  case chan => grind
  case scanned => grind

theorem silent_others (hothers : ∀ q, q ≠ p → Silent (pc q)) :
    ∀ q, q ≠ p → Silent (update pc p next q) := fun q hq => by
  rw [update_of_ne hq]
  exact hothers q hq

/-- Moving on does not put a process to sleep, but for one place. -/
theorem asleep_update (hsleep : Asleep tab (update pc p next) r) (hset : setsSleep next = false) :
    Asleep tab pc r := by
  grind [Asleep, setsSleep]

/-- A step inside `wait_lock` that does not change the table. -/
theorem WakeInv.locked (h : WakeInv tab pc) (hothers : ∀ q, q ≠ p → Silent (pc q))
    (hset : setsSleep next = false)
    (hpending : ∀ r, p ≠ r → WakePending r (pc p) → WakePending r next)
    (hpassed : ∀ r, (tab.proc p).parent = some r → Passed r next → Passed r (pc p))
    (hchan : ∀ chan, exitChan next = some chan →
      exitChan (pc p) = some chan ∨ chan = (tab.proc p).parent.map .proc)
    (hscanned : ∀ c : Slot, c < pcScanned next → c < pcScanned (pc p) ∨
      (tab.proc c).parent ≠ some p ∨ (tab.proc c).state ≠ .zombie) :
    WakeInv tab (update pc p next) := by
  have hsleep : ∀ r, Asleep tab (update pc p next) r → Asleep tab pc r :=
    fun _ hr => asleep_update hr hset
  have hself : update pc p next p = next := update_self ..
  refine WakeInv.solo (silent_others hothers) (fun c r hz hr hasleep => ?_) ?_ ?_ ?_
  · have := h.pending_self hothers hz hr (hsleep r hasleep)
    grind
  · have := h.passed p
    grind
  · have := h.chan p
    grind
  · have := h.scanned p
    grind

end Solo

/-! ### The steps of the functions -/

section Steps

variable {tab : Table} {pc : Slot → Pc} {p : Slot} {ins : Instr}

/-- What the locks say when process `p` takes a step. -/
structure Alone (pc : Slot → Pc) (p : Slot) : Prop where
  wait : .wait ∈ pcLocks (some p) (pc p) → ∀ q, q ≠ p → Silent (pc q)
  proc : ∀ j, .proc j ∈ pcLocks (some p) (pc p) → ∀ q, q ≠ p → .proc j ∉ pcLocks (some q) (pc q)

/-- The calls that a process makes wake nobody and put nobody to sleep. -/
theorem userInstr_wakes {n : Nat} (h : WakeInv tab pc) (hpc : pc p = .user)
    (hlive : ProcState.Live (tab.proc p).state) {c : Choice n}
    (hins : userInstr tab p c = some ins) : WakeInv (insTab tab ins) (insPcs pc p ins) := by
  have hold : Silent (pc p) := silent_of_unlocked none (by simp [hpc, pcLocks])
  cases c <;> simp only [userInstr, reduceCtorEq] at hins
  case exit status =>
    split at hins
    · cases hins
    · cases hins
      exact h.move (fun _ => rfl) (fun _ hz => hz) (fun _ hst hchan => Or.inr ⟨hst, hchan⟩) hold
        (silent_of_unlocked none (by simp [pcLocks])) rfl
  case trap =>
    cases hins
    exact h.upd rfl (Live.ne hlive).2.2 (fun hst hchan => Or.inr ⟨hst, hchan⟩) hold
      (silent_of_unlocked none (by simp [pcLocks])) rfl
  all_goals
    cases hins
    exact h.walk hold (silent_of_unlocked none (by simp [pcLocks, contLocks])) rfl

/-- A process that sleeps for another reason does not wait for a child. -/
theorem sleepInstr_wakes (h : WakeInv tab pc) (hlive : pcMode (pc p) = .active →
    ProcState.Live (tab.proc p).state) (hins : sleepInstr tab p (pc p) = some ins) :
    WakeInv (insTab tab ins) (insPcs pc p ins) := by
  have hold : sleepInstr tab p (pc p) ≠ none → Silent (pc p) := by
    intro hne
    refine silent_of_unlocked none ?_
    cases hpc : pc p <;> rw [hpc] at hne <;> simp [sleepInstr, pcLocks, ownLock] at hne ⊢
  have hold := hold (hins ▸ Option.some_ne_none ins)
  cases hpc : pc p <;> rw [hpc] at hins hlive <;> simp only [sleepInstr, reduceCtorEq] at hins
  case back k =>
    cases k <;> cases hins
    · exact h.walk hold (silent_of_unlocked none (by simp [pcLocks])) rfl
    · exact h.walk hold (silent_of_unlocked none (by simp [pcLocks])) rfl
    · exact h.upd rfl (Live.ne (hlive rfl)).2.2 (fun _ hc => by cases hc) hold
        (silent_of_unlocked none (by simp [pcLocks, ownLock])) rfl
  case awake w =>
    cases w <;> cases hins <;>
      exact h.walk hold (silent_of_unlocked none (by simp [pcLocks])) rfl
  case yieldLock | sleepLock =>
    cases hins
    exact h.walk hold (silent_of_unlocked none (by simp [pcLocks, ownLock])) rfl
  case yieldSet =>
    cases hins
    exact h.upd rfl (by simp) (fun hs => by cases hs) hold
      (silent_of_unlocked none (by simp [pcLocks, ownLock])) rfl
  case sleepSet =>
    cases hins
    exact h.upd rfl (by simp) (fun _ hc => by cases hc) hold
      (silent_of_unlocked none (by simp [pcLocks, ownLock])) rfl

/-- `kill` makes a sleeper runnable, which loses no wakeup. -/
theorem killInstr_wakes (h : WakeInv tab pc) (hins : killInstr tab (pc p) = some ins) :
    WakeInv (insTab tab ins) (insPcs pc p ins) := by
  cases hpc : pc p <;> rw [hpc] at hins <;> simp only [killInstr, reduceCtorEq] at hins
  case kill i pid =>
    have hold : Silent (pc p) := silent_of_unlocked none (by simp [hpc, pcLocks])
    split at hins <;> cases hins <;>
      exact h.walk hold (silent_of_unlocked none (by simp [pcLocks])) rfl
  case killCheck i pid =>
    have hold : Silent (pc p) := silent_of_unlocked none (by simp [hpc, pcLocks])
    split at hins <;> cases hins
    · have hs := sameProcs_kill tab i
      exact h.move hs.parent (fun j hz => (hs.state_iff j not_live_zombie).mp hz)
        (fun j hst hchan => Or.inr (kill_asleep hst hchan)) hold
        (silent_of_unlocked none (by simp [pcLocks])) rfl
    · exact h.walk hold (silent_of_unlocked none (by simp [pcLocks])) rfl
  case killRel i pid found =>
    have hold : Silent (pc p) := silent_of_unlocked none (by simp [hpc, pcLocks])
    cases hins
    cases found <;> exact h.walk hold (silent_of_unlocked none (by simp [pcLocks])) rfl

theorem contLocks_cases (c : Cont) : contLocks c = [] ∨ contLocks c = [.wait] := by
  cases c <;> simp [contLocks]

theorem wake_silent (hc : contLocks c = []) (j : Nat) (chan : Option Chan) :
    Silent (.wake j chan c) := silent_of_unlocked none (by simp [pcLocks, hc])

theorem wakeCheck_silent (hc : contLocks c = []) (j : Slot) (chan : Option Chan) :
    Silent (.wakeCheck j chan c) := silent_of_unlocked none (by simp [pcLocks, hc])

theorem wakeRel_silent (hc : contLocks c = []) (j : Slot) (chan : Option Chan) :
    Silent (.wakeRel j chan c) := silent_of_unlocked none (by simp [pcLocks, hc])

/-- The `wakeup` of a call outside `wait_lock`. -/
theorem wakeInstr_quiet (h : WakeInv tab pc) {self : Option Slot} (hc : contLocks c = [])
    (hpc : (∃ j chan, pc p = .wake j chan c) ∨
      (∃ j chan, pc p = .wakeCheck j chan c) ∨ ∃ j chan, pc p = .wakeRel j chan c)
    (hins : wakeInstr tab self (pc p) = some ins) : WakeInv (insTab tab ins) (insPcs pc p ins) := by
  rcases hpc with ⟨j, chan, hpc⟩ | ⟨j, chan, hpc⟩ | ⟨j, chan, hpc⟩
  · have hold : Silent (pc p) := hpc ▸ wake_silent hc j chan
    rw [hpc] at hins
    simp only [wakeInstr] at hins
    split at hins
    · split at hins <;> cases hins
      · exact h.walk hold (wake_silent hc _ _) rfl
      · exact h.walk hold (wakeCheck_silent hc _ _) rfl
    · cases hins
      refine h.walk hold (silent_of_unlocked none ?_) (by cases c <;> rfl)
      rw [contLocks_pc, hc]
      exact not_mem_nil
  · have hold : Silent (pc p) := hpc ▸ wakeCheck_silent hc j chan
    rw [hpc] at hins
    cases hins
    have hs := sameProcs_wake tab j chan
    exact h.move hs.parent (fun i hz => (hs.state_iff i not_live_zombie).mp hz)
      (fun i hst hchan => Or.inr (wake_asleep hst hchan).1) hold (wakeRel_silent hc _ _) rfl
  · have hold : Silent (pc p) := hpc ▸ wakeRel_silent hc j chan
    rw [hpc] at hins
    cases hins
    exact h.walk hold (wake_silent hc _ _) rfl

/-- The `wakeup` comes to a slot: whoever sleeps there on `chan` is not asleep any more. -/
theorem not_asleep_wake (halone : Alone pc p) (hpc : pc p = .wakeCheck j (some (.proc j)) c)
    (hjp : j ≠ p) : ¬ Asleep (tab.wake j (some (.proc j))) (update pc p next) j := by
  rintro (⟨addr, hj⟩ | ⟨hst, hchan⟩)
  · -- it would be inside its own lock, which is taken
    rw [update_of_ne hjp] at hj
    refine halone.proc j (by simp [hpc, pcLocks]) j hjp ?_
    simp [hj, pcLocks, ownLock]
  · exact (wake_asleep hst hchan).2 ⟨rfl, rfl⟩

/-- The loop of `wakeup` moves on from slot to slot. -/
theorem WakeInv.wakeNext (h : WakeInv tab pc) (hothers : ∀ q, q ≠ p → Silent (pc q))
    (hset : setsSleep next = false)
    (hpending : ∀ r, p ≠ r → WakePending r (pc p) → WakePending r next)
    (hpassed : ∀ r, (tab.proc p).parent = some r → Passed r next → Passed r (pc p))
    (hchan : exitChan next = exitChan (pc p)) (hscanned : pcScanned next = 0) :
    WakeInv tab (update pc p next) :=
  h.locked hothers hset hpending hpassed (fun _ hc => Or.inl (hchan ▸ hc)) fun _ hlt =>
    absurd (hscanned ▸ hlt) (Nat.not_lt_zero _)

/-- A dying process with its `wakeup` under way is nobody's parent. -/
theorem TableInv.orphaned (ht : TableInv tab pc) (hexit : pcExit (pc p) = .orphaned status)
    (j : Slot) : (tab.proc j).parent ≠ some p := by
  have hok := ht.exit p
  rw [hexit] at hok
  exact hok.2.2 j

/-- The `wakeup` of a parent comes to its slot, and makes it runnable. -/
theorem WakeInv.wakeCheck (h : WakeInv tab pc) (ht : TableInv tab pc) (halone : Alone pc p)
    {chan : Option Chan} (hpc : pc p = .wakeCheck j chan c) (hc : contLocks c = [.wait]) :
    WakeInv (tab.wake j chan) (update pc p (.wakeRel j chan c)) := by
  have hothers := halone.wait (by simp [hpc, pcLocks, hc])
  have hs := sameProcs_wake tab j chan
  have hset : setsSleep (.wakeRel j chan c) = false := rfl
  have hsleep : ∀ {r : Slot},
      Asleep (tab.wake j chan) (update pc p (.wakeRel j chan c)) r → Asleep tab pc r :=
    fun hr => asleep_update (hr.imp id fun hst => (wake_asleep hst.1 hst.2).1) hset
  -- whoever sleeps in slot `j` wakes up
  have hself : ∀ r : Slot, chan = some (.proc r) → r ≠ p →
      Asleep (tab.wake j chan) (update pc p (.wakeRel j chan c)) r → r ≠ j := by
    rintro r rfl hrp hr rfl
    exact not_asleep_wake halone hpc hrp hr
  refine WakeInv.solo (silent_others hothers) (fun ch r hz hr hasleep => ?_)
    (fun r hr hpass hasleep => ?_) (fun ch hch => ?_) fun ch hlt => ?_
  · rw [hs.parent] at hr
    obtain ⟨hne, hpend⟩ := h.pending_self hothers
      ((hs.state_iff ch not_live_zombie).mp hz) hr (hsleep hasleep)
    rw [hpc] at hpend
    rw [update_self]
    refine ⟨hne, hpend.1, hpend.2.1, Nat.lt_of_le_of_ne hpend.2.2 fun heq => ?_⟩
    exact hself r hpend.1 hne.symm hasleep (Fin.ext heq.symm)
  · rw [hs.parent] at hr
    rw [update_self] at hpass
    cases c with
    | exit status =>
      have hchan := h.chan p chan (by rw [hpc]; rfl)
      rw [hr] at hchan
      have hrp : r ≠ p := by
        rintro rfl
        exact ht.orphaned (by rw [hpc]; rfl) r hr
      refine h.passed p r hr ?_ (hsleep hasleep)
      rw [hpc]
      exact Nat.lt_of_le_of_ne hpass fun heq => hself r hchan hrp hasleep (Fin.ext heq)
    | _ => exact absurd hpass id
  · rw [update_self] at hch
    rw [hs.parent]
    refine h.chan p ch ?_
    rw [hpc]
    cases c <;> exact hch
  · rw [update_self] at hlt
    exact absurd hlt (Nat.not_lt_zero _)

/-- The steps of `wakeup` keep the invariant. -/
theorem wakeInstr_wakes (h : WakeInv tab pc) (ht : TableInv tab pc) (halone : Alone pc p)
    (hins : wakeInstr tab (some p) (pc p) = some ins) :
    WakeInv (insTab tab ins) (insPcs pc p ins) := by
  have hquiet := fun c hc hpc => wakeInstr_quiet h (c := c) hc hpc hins
  generalize hpc : pc p = q at hins hquiet
  unfold wakeInstr at hins
  split at hins
  · rename_i j chan c
    rcases contLocks_cases c with hc | hc
    · exact hquiet c hc (Or.inl ⟨j, chan, rfl⟩)
    have hothers := halone.wait (by simp [hpc, pcLocks, hc])
    split at hins
    · rename_i hj
      split at hins
      · -- a process does not wake itself, and is not its own parent
        rename_i hself
        have hjp : (p : Nat) = j := congrArg Fin.val (Option.some.inj hself)
        cases hins
        have horphan : ∀ status, c = .exit status → ∀ i, (tab.proc i).parent ≠ some p := by
          rintro status rfl
          exact ht.orphaned (by rw [hpc]; rfl)
        refine h.wakeNext hothers rfl ?_ ?_ ?_ rfl <;> cases c <;>
          grind [WakePending, Passed, exitChan]
      · cases hins
        refine h.wakeNext hothers rfl ?_ ?_ ?_ rfl <;> cases c <;>
          grind [WakePending, Passed, exitChan]
    · -- the loop has passed every slot
      rename_i hj
      cases hins
      have hlast : ∀ r : Slot, r < j := fun r => by omega
      refine h.locked hothers (by cases c <;> rfl) ?_ ?_ ?_ ?_ <;> cases c <;>
        grind [WakePending, Passed, exitChan, pcScanned, Cont.pc]
  · rename_i j chan c
    rcases contLocks_cases c with hc | hc
    · exact hquiet c hc (Or.inr (Or.inl ⟨j, chan, rfl⟩))
    cases hins
    exact h.wakeCheck ht halone hpc hc
  · rename_i j chan c
    rcases contLocks_cases c with hc | hc
    · exact hquiet c hc (Or.inr (Or.inr ⟨j, chan, rfl⟩))
    have hothers := halone.wait (by simp [hpc, pcLocks, hc])
    cases hins
    refine h.wakeNext hothers rfl ?_ ?_ ?_ rfl <;> cases c <;>
      grind [WakePending, Passed, exitChan]
  · cases hins

/-- `np->parent = p` in `fork`: the child is no zombie. -/
theorem WakeInv.forkParent (h : WakeInv tab pc) (halone : Alone pc p) {np : Slot} {pid : CInt}
    (hpc : pc p = .forkParent np pid) (hused : (tab.proc np).state = .used) :
    WakeInv (tab.setParent np p) (update pc p (.forkRelWait np pid)) := by
  have hothers := halone.wait (by simp [hpc, pcLocks])
  have hpend := fun c r => h.pending_self hothers (c := c) (r := r)
  have hproc : ∀ i, (tab.setParent np p).proc i
      = if i = np then { tab.proc np with parent := some p } else tab.proc i :=
    fun i => upd_proc tab np i _
  have hself : update pc p (.forkRelWait np pid) p = .forkRelWait np pid := update_self ..
  refine WakeInv.solo (silent_others hothers) ?_ ?_ ?_ ?_ <;>
    grind [Asleep, WakePending, Passed, exitChan, pcScanned]

/-- The steps of `fork` keep the invariant. A new child is no zombie. -/
theorem forkInstr_wakes (h : WakeInv tab pc) (ht : TableInv tab pc) (halone : Alone pc p)
    {fails : Bool} (hins : forkInstr tab p fails (pc p) = some ins) :
    WakeInv (insTab tab ins) (insPcs pc p ins) := by
  have hok := ht.fork p
  have hunlocked : .wait ∉ pcLocks (some p) (pc p) → Silent (pc p) := silent_of_unlocked _
  cases hpc : pc p <;> rw [hpc] at hins hok <;>
    simp only [forkInstr, reduceCtorEq, Option.some.injEq] at hins
  case forkParent np pid =>
    subst hins
    exact h.forkParent halone hpc hok.1
  case forkRelWait np pid =>
    subst hins
    refine h.locked (halone.wait (by simp [hpc, pcLocks])) rfl (fun r _ hpend => ?_)
      (fun r _ hpass => absurd hpass id) (fun _ hc => by cases hc)
      fun _ hlt => absurd hlt (Nat.not_lt_zero _)
    rw [hpc] at hpend
    exact absurd hpend id
  all_goals
    have hold : Silent (pc p) := hunlocked (by simp [hpc, pcLocks])
  case alloc i =>
    split at hins <;> cases hins <;>
      exact h.walk hold (silent_of_unlocked none (by simp [pcLocks])) rfl
  case allocCheck np =>
    split at hins <;> cases hins <;>
      exact h.walk hold (silent_of_unlocked none (by simp [pcLocks])) rfl
  case pidNext np =>
    subst hins
    exact h.move (fun _ => rfl) (fun _ hz => hz) (fun _ hst hchan => Or.inr ⟨hst, hchan⟩) hold
      (silent_of_unlocked none (by simp [pcLocks])) rfl
  case allocUsed np pid =>
    subst hins
    have hupd := h.upd (i := np) (q := { tab.proc np with pid := pid, state := .used }) rfl
      (by simp) (fun hs => by cases hs) hold
      (silent_of_unlocked none (by simp [pcLocks]) : Silent (.forkCopy np)) rfl
    exact hupd.quiet (fun _ => rfl) (fun _ hz => hz) (fun _ hs => hs) fun _ => Or.inl rfl
  case forkCopy np =>
    have hidle : pc np = .idle := pcMode_idle hok.2.1
    have hne : np ≠ p := by
      rintro rfl
      rw [hpc] at hidle
      cases hidle
    have hslot : ∀ next, Silent (update pc p next np) := fun next => by
      rw [update_of_ne hne, hidle]
      exact silent_of_unlocked none (by simp [pcLocks])
    split at hins <;> cases hins
    · refine WakeInv.walk ?_ (hslot _) (silent_of_unlocked none (by simp [pcLocks])) rfl
      exact h.upd (i := np) hok.2.2.symm (by simp) (fun hs => by cases hs) hold
        (silent_of_unlocked none (by simp [pcLocks])) rfl
    · refine WakeInv.walk ?_ (hslot _) (silent_of_unlocked none (by simp [pcLocks])) rfl
      exact h.walk hold (silent_of_unlocked none (by simp [pcLocks])) rfl
  case forkWait np pid =>
    subst hins
    exact h.walk hold (silent_rfl (fun _ => rfl) (fun _ => rfl) rfl rfl) rfl
  case forkRun np pid =>
    subst hins
    exact h.upd rfl (by simp) (fun hs => by cases hs) hold
      (silent_of_unlocked none (by simp [pcLocks])) rfl
  case forkRet np pid =>
    subst hins
    exact h.move (fun _ => rfl) (fun _ hz => hz) (fun _ hst hchan => Or.inr ⟨hst, hchan⟩) hold
      (silent_of_unlocked none (by simp [pcLocks])) rfl
  all_goals
    subst hins
    exact h.walk hold (silent_of_unlocked none (by simp [pcLocks])) rfl

section

variable (h : WakeInv tab pc)
include h

/-- `pp->parent = initproc` in `reparent`, before `wakeup(initproc)`. -/
theorem WakeInv.reparent (ht : TableInv tab pc) (halone : Alone pc p) {i : Nat}
    (hpc : pc p = .reparent status i) :
    WakeInv (tab.upd j { tab.proc j with parent := some initproc })
      (update pc p (.wake 0 (some (.proc initproc)) (.reparent status (i + 1)))) := by
  have hothers := halone.wait (by simp [hpc, pcLocks])
  have hinit : p ≠ initproc := by
    have hok := ht.exit p
    rw [hpc] at hok
    exact hok.1
  have hpend := fun c r => h.pending_self hothers (c := c) (r := r)
  obtain ⟨next, hnext, hwake, hsilent⟩ : ∃ next,
      Pc.wake 0 (some (.proc initproc)) (.reparent status (i + 1)) = next ∧
      WakePending initproc next ∧ (∀ r, ¬ Passed r next) ∧ exitChan next = none ∧
      pcScanned next = 0 ∧ setsSleep next = false :=
    ⟨_, rfl, ⟨rfl, rfl, Nat.zero_le _⟩, fun _ => id, rfl, rfl, rfl⟩
  rw [hnext]
  refine WakeInv.solo (silent_others hothers) ?_ ?_ ?_ ?_ <;> clear hnext <;>
    grind [upd_proc, Asleep, WakePending, setsSleep]

/-- `p->state = ZOMBIE` in `exit`: the parent is not asleep. -/
theorem WakeInv.exitSet (halone : Alone pc p) (hpc : pc p = .exitSet status) :
    WakeInv (tab.upd p { tab.proc p with xstate := status, state := .zombie })
      (update pc p .exitRel) := by
  have hothers := halone.wait (by simp [hpc, pcLocks])
  have hpend := fun c r => h.pending_self hothers (c := c) (r := r)
  have hpassed := h.passed p
  refine WakeInv.solo (silent_others hothers) ?_ ?_ ?_ ?_ <;>
    grind [upd_proc, Asleep, WakePending, Passed, exitChan, pcScanned]

/-- The steps of `exit` keep the invariant. A process becomes a zombie only after the `wakeup` of
its parent. -/
theorem exitInstr_wakes (ht : TableInv tab pc) (halone : Alone pc p)
    (hins : exitInstr tab p (pc p) = some ins) : WakeInv (insTab tab ins) (insPcs pc p ins) := by
  have hwait := halone.wait
  cases hpc : pc p <;> rw [hpc] at hins hwait <;>
    simp only [exitInstr, reduceCtorEq, Option.some.injEq] at hins
  case exitWait status =>
    subst hins
    exact h.walk (silent_of_unlocked none (by simp [hpc, pcLocks]))
      (silent_rfl (fun _ => rfl) (fun _ => rfl) rfl rfl) rfl
  all_goals
    have hothers := hwait (by simp [pcLocks])
  case reparent status i =>
    have hmove : ∀ next, setsSleep next = false → Silent next →
        WakeInv tab (update pc p next) := fun next hset hnext =>
      h.locked hothers hset
        (fun r _ hpend => absurd (hpc ▸ hpend : WakePending r (.reparent status i)) id)
        (fun r _ hpass => absurd hpass (hnext.passed r))
        (fun ch hch => absurd hch (by simp [hnext.chan]))
        fun c hlt => absurd hlt (by rw [hnext.scanned]; exact Nat.not_lt_zero _)
    split at hins
    · rename_i hi
      split at hins <;> cases hins
      · exact h.reparent ht halone hpc
      · exact hmove _ rfl (silent_rfl (fun _ => rfl) (fun _ => rfl) rfl rfl)
    · cases hins
      exact hmove _ rfl (silent_rfl (fun _ => rfl) (fun _ => rfl) rfl rfl)
  case exitSet status =>
    subst hins
    exact h.exitSet halone hpc
  all_goals
    subst hins
    refine h.locked hothers rfl ?_ ?_ ?_ ?_ <;>
      grind [WakePending, Passed, exitChan, pcScanned]

/-- `wait` moves on inside `wait_lock`. -/
theorem WakeInv.scan (hothers : ∀ q, q ≠ p → Silent (pc q)) (hset : setsSleep next = false)
    (hold : ∀ r, ¬ WakePending r (pc p)) (hpassed : ∀ r, ¬ Passed r next)
    (hchan : exitChan next = none)
    (hscanned : ∀ c : Slot, c < pcScanned next → c < pcScanned (pc p) ∨
      (tab.proc c).parent ≠ some p ∨ (tab.proc c).state ≠ .zombie) :
    WakeInv tab (update pc p next) :=
  h.locked hothers hset (fun r _ hpend => absurd hpend (hold r))
    (fun r _ hpass => absurd hpass (hpassed r)) (fun _ hc => absurd hc (by simp [hchan]))
    hscanned

/-- `freeproc` in `wait`. -/
theorem WakeInv.reap (halone : Alone pc p) {addr : Nat} {np : Slot} (ret : CInt)
    (hpc : pc p = .waitCheck addr np) (hne : np ≠ p) :
    WakeInv (tab.freeproc np) (update (update pc p (.waitRel np ret)) np .idle) := by
  have hothers := halone.wait (by simp [hpc, pcLocks])
  have hproc : ∀ i, (tab.freeproc np).proc i = if i = np then { tab.proc np with
      pid := 0, parent := none, chan := none, killed := false, xstate := 0, state := .unused }
      else tab.proc i := fun i => upd_proc tab np i _
  have hsolo : WakeInv (tab.freeproc np) (update pc p (.waitRel np ret)) := by
    have hpend := fun c r => h.pending_self hothers (c := c) (r := r)
    refine WakeInv.solo (silent_others hothers) ?_ ?_ ?_ ?_ <;>
      grind [Asleep, WakePending, Passed, exitChan, pcScanned]
  exact hsolo.walk (silent_others hothers np hne) (silent_of_unlocked none (by simp [pcLocks])) rfl

/-- `sleep` gives up `wait_lock`: no child is a zombie. -/
theorem WakeInv.fallAsleep (halone : Alone pc p) {addr : Nat} (hpc : pc p = .waitSleepRel addr) :
    WakeInv tab (update pc p (.waitSleepSet addr)) := by
  have hothers := halone.wait (by simp [hpc, pcLocks])
  have hpend := fun c r => h.pending_self hothers (c := c) (r := r)
  have hscanned := h.scanned p
  refine WakeInv.solo (silent_others hothers) ?_ ?_ ?_ ?_ <;>
    grind [Asleep, WakePending, Passed, exitChan, pcScanned]

/-- The steps of `wait` keep the invariant. It sleeps only after it has found no zombie, with
`wait_lock` held all along. -/
theorem waitInstr_wakes (ht : TableInv tab pc) (halone : Alone pc p) {fails : Bool}
    (hins : waitInstr tab p fails (pc p) = some ins) :
    WakeInv (insTab tab ins) (insPcs pc p ins) := by
  have hwait := halone.wait
  cases hpc : pc p <;> rw [hpc] at hins hwait <;>
    simp only [waitInstr, reduceCtorEq, Option.some.injEq] at hins
  case waitLock addr =>
    subst hins
    exact h.walk (silent_of_unlocked none (by simp [hpc, pcLocks]))
      (silent_rfl (fun _ => rfl) (fun _ => rfl) rfl rfl) rfl
  case waitSleepSet addr =>
    subst hins
    refine h.upd rfl (by simp) (fun _ _ => Or.inl ⟨addr, hpc⟩)
      (silent_of_unlocked none (by simp [hpc, pcLocks, ownLock]))
      (silent_of_unlocked none (by simp [pcLocks, ownLock])) rfl
  all_goals
    have hothers := hwait (by simp [pcLocks])
    have hold : ∀ r, ¬ WakePending r (pc p) := fun r hpend => by
      rw [hpc] at hpend
      exact hpend
  case waitScan addr i havekids =>
    split at hins <;> split at hins <;> cases hins <;>
      exact h.scan hothers rfl hold (fun _ hp => hp) rfl fun c _ => by grind [pcScanned]
  case waitCheck addr np =>
    split at hins
    · rename_i hz
      have hne : np ≠ p := by
        rintro rfl
        exact (Live.ne (ht.live_of_active (p := np) (by rw [hpc]; rfl))).2.2 hz
      split at hins <;> cases hins
      · exact h.scan hothers rfl hold (fun _ hp => hp) rfl fun c _ => by grind [pcScanned]
      · have hreap := h.reap halone (tab.proc np).pid hpc hne
        exact hreap.quiet (fun _ => rfl) (fun _ hz => hz) (fun _ hs => hs) fun _ => Or.inl rfl
    · cases hins
      exact h.scan hothers rfl hold (fun _ hp => hp) rfl fun c _ => by grind [pcScanned]
  case waitSleepRel addr =>
    subst hins
    exact h.fallAsleep halone hpc
  all_goals
    subst hins
    exact h.scan hothers rfl hold (fun _ hp => hp) rfl fun c _ => by grind [pcScanned]

end

end Steps

/-! ### The machine -/

section Machine

variable {n : Nat} {m m' : Machine n}

/-- Only one process at a time holds `wait_lock`. -/
theorem MachineInv.alone (h : MachineInv m) (p : Slot) : Alone (fun q => m.pc (.proc q)) p := by
  have hother : ∀ {l : LockId} {q : Slot}, l ∈ pcLocks (some p) (m.pc (.proc p)) → q ≠ p →
      l ∉ pcLocks (some q) (m.pc (.proc q)) := by
    intro l q hp hq hmem
    have hself : Holds m.pc (.proc p) l := hp
    have hother : Holds m.pc (.proc q) l := hmem
    have heq := h.sync.exclusive hself hother
    injection heq with heq
    exact hq heq.symm
  exact ⟨fun hp q hq => silent_of_unlocked _ (hother hp hq), fun j hj q hq => hother hj hq⟩

/-- The steps of a process keep the invariant. -/
theorem procInstr_wakes (h : MachineInv m) (hw : WakeInv m.tab fun q => m.pc (.proc q)) {p : Slot}
    {c : Choice n} {ins : Instr} (hins : procInstr m.tab p c (m.pc (.proc p)) = some ins) :
    WakeInv (insTab m.tab ins) (insPcs (fun q => m.pc (.proc q)) p ins) := by
  unfold procInstr at hins
  split at hins
  · rename_i hpc
    exact userInstr_wakes hw hpc (h.table.live_of_active (p := p) (by rw [hpc]; rfl)) hins
  · simp only [Option.or_eq_some_iff] at hins
    rcases hins with hins | ⟨-, hins | ⟨-, hins | ⟨-, hins | ⟨-, hins | ⟨-, hins⟩⟩⟩⟩⟩
    · exact sleepInstr_wakes hw h.table.live_of_active hins
    · exact wakeInstr_wakes hw h.table (h.alone p) hins
    · exact killInstr_wakes hw hins
    · exact forkInstr_wakes hw h.table (h.alone p) hins
    · exact exitInstr_wakes hw h.table (h.alone p) hins
    · exact waitInstr_wakes hw h.table (h.alone p) hins

/-- A scheduler wakes processes and puts none to sleep. -/
theorem cpuInstr_asleep {tab : Table} {c : Choice n} {pc : Pc} {ins : Instr}
    (hins : cpuInstr tab c pc = some ins) (hst : ((insTab tab ins).proc i).state = .sleeping)
    (hchan : ((insTab tab ins).proc i).chan = some (.proc i)) :
    (tab.proc i).state = .sleeping ∧ (tab.proc i).chan = some (.proc i) := by
  unfold cpuInstr wakeInstr at hins
  split at hins <;> grind [insTab, wake_asleep]

/-- Every step of every thread keeps the invariant. -/
theorem wakeInv_step {t : Thread n} {c : Choice n} (h : MachineInv m)
    (hw : WakeInv m.tab fun q => m.pc (.proc q)) (hstep : m.step t c = some m') :
    WakeInv m'.tab fun q => m'.pc (.proc q) := by
  rcases step_cases hstep with ⟨p, -, hp⟩ | ⟨d, -, hd⟩ | ⟨p, d, k, next, hpc, hcpu, hnext, rfl⟩ |
    ⟨p, d, k, hcpu, hpc, hready, rfl⟩
  · obtain ⟨ins, hins, hexec⟩ := Option.bind_eq_some_iff.mp hp
    obtain ⟨htab, hpcs⟩ := exec_proc hexec
    rw [htab, hpcs]
    exact procInstr_wakes h hw hins
  · obtain ⟨ins, hins, hexec⟩ := Option.bind_eq_some_iff.mp hd
    have hset : ∀ tab i slotPc next, ins ≠ .setSlot tab i slotPc next := by
      rintro tab i slotPc next rfl
      exact cpuInstr_ne_setSlot hins
    obtain ⟨htab, hpcs⟩ := exec_cpu hset hexec
    have hs := cpuInstr_same hins
    rw [htab, hpcs]
    refine hw.quiet hs.parent (fun i hz => (hs.state_iff i not_live_zombie).mp hz) ?_
      fun _ => Or.inl rfl
    exact fun i hi => hi.imp id fun hst => cpuInstr_asleep hins hst.1 hst.2
  · show WakeInv m.tab fun q =>
      update (update m.pc (.proc p) next) (.cpu d) (.scanRel p) (.proc q)
    rw [cpu_pcs_update, proc_pcs_update]
    refine hw.walk (silent_of_unlocked none (by simp [hpc, pcLocks, ownLock])) ?_ ?_
    · rcases hnext with ⟨-, rfl⟩ | ⟨r, -, rfl⟩ <;>
        exact silent_of_unlocked none (by simp [pcLocks])
    · rcases hnext with ⟨-, rfl⟩ | ⟨r, -, rfl⟩ <;> rfl
  · show WakeInv (m.tab.upd p { m.tab.proc p with state := .running })
      fun q => update (update m.pc (.proc p) (.back k)) (.cpu d) (.running p) (.proc q)
    rw [cpu_pcs_update, proc_pcs_update]
    exact hw.upd rfl (by simp) (fun hs => by cases hs)
      (silent_of_unlocked none (by simp [hpc, pcLocks]))
      (silent_of_unlocked none (by simp [pcLocks, ownLock])) rfl

/-- The invariant holds at the start. -/
theorem wakeInv_boot (n : Nat) : WakeInv (Machine.boot n).tab
    fun q => (Machine.boot n).pc (.proc q) := by
  have hsilent : ∀ p, Silent ((Machine.boot n).pc (.proc p)) := by
    intro p
    show Silent (if p = initproc then .off .first else .idle)
    split <;> exact silent_of_unlocked none (by simp [pcLocks])
  have hparent : ∀ p : Slot, ((Machine.boot n).tab.proc p).parent = none := by
    intro p
    show (if p = initproc then _ else _ : Proc).parent = _
    split <;> rfl
  constructor <;> grind

/-- The invariant along a run. -/
theorem wakeInv_run {acts : List (Thread n × Choice n)} (h : MachineInv m)
    (hw : WakeInv m.tab fun q => m.pc (.proc q)) (hrun : m.run acts = some m') :
    WakeInv m'.tab fun q => m'.pc (.proc q) := by
  induction acts generalizing m with
  | nil =>
    cases hrun
    exact hw
  | cons a acts ih =>
    obtain ⟨m₁, hstep, hrest⟩ := Option.bind_eq_some_iff.mp hrun
    exact ih (machineInv_step h hstep) (wakeInv_step h hw hstep) hrest

end Machine

/-- A `wakeup` that is still pending is inside `wait_lock`. -/
theorem WakePending.locked {p : Slot} {pc : Pc} (h : WakePending p pc) (self : Option Slot) :
    .wait ∈ pcLocks self pc := by
  by_contra hout
  exact (silent_of_unlocked self hout).pending p h

/-- No lost wakeup between `exit` and `wait`: whenever `wait_lock` is free, no process sleeps in
`wait` while a child of it is a zombie. -/
theorem no_lost_wakeup {n : Nat} {m : Machine n} {acts : List (Thread n × Choice n)}
    (hrun : (Machine.boot n).run acts = some m) (hfree : m.owner .wait = none) (p : Slot)
    (hsleep : (m.tab.proc p).state = .sleeping) (hchan : (m.tab.proc p).chan = some (.proc p)) :
    ∀ c, (m.tab.proc c).parent = some p → (m.tab.proc c).state ≠ .zombie := by
  intro c hp hz
  have h := machineInv_run (machineInv_boot n) hrun
  obtain ⟨q, -, hpend⟩ := (wakeInv_run (machineInv_boot n) (wakeInv_boot n) hrun).wakes c p hz hp
    (Or.inr ⟨hsleep, hchan⟩)
  have howner := (h.sync (.proc q) .wait).mpr (hpend.locked (some q))
  rw [hfree] at howner
  cases howner

/-- On one CPU, `initproc` forks and waits, before the child has run. -/
def forkWait : List (Thread 1 × Choice 1) :=
  let go (t : Thread 1) (k : Nat) : List (Thread 1 × Choice 1) := List.replicate k (t, .go)
  let init : Thread 1 := .proc initproc
  go (.cpu (Fin.last 0)) 2 ++ go init 1 ++ [(init, .fork)] ++ go init 18 ++ [(init, .wait 0)] ++
    go init 40

/-- The first process forks and waits, and the child has not exited. -/
theorem no_lost_wakeup_forkWait :
    ∃ m, (Machine.boot 1).run forkWait = some m ∧
      (m.owner .wait = none ∧ (m.tab.proc initproc).state = .sleeping ∧
        (m.tab.proc initproc).chan = some (.proc initproc) ∧
        (m.tab.proc (Slot.next initproc)).parent = some initproc) ∧
      (m.tab.proc (Slot.next initproc)).state ≠ .zombie := by
  have hrun : (((Machine.boot 1).run forkWait).any fun m =>
      m.owner .wait = none ∧ (m.tab.proc initproc).state = .sleeping ∧
        (m.tab.proc initproc).chan = some (.proc initproc) ∧
        (m.tab.proc (Slot.next initproc)).parent = some initproc) = true := by
    decide +kernel
  obtain ⟨m, hm, hfacts⟩ := (Option.any_eq_true _ _).mp hrun
  have hfacts := of_decide_eq_true hfacts
  exact ⟨m, hm, hfacts, no_lost_wakeup hm hfacts.1 initproc hfacts.2.1 hfacts.2.2.1 _
    hfacts.2.2.2⟩

end Xv6.Proofs
