import Xv6.Lib.Locks
import Mathlib.Data.List.Induction

/-!
# `Xv6.Lib.Monitor`: a lock with `sleep` and `wakeup`

Processes that share data under one spinlock and wait for each other with `sleep` and `wakeup`.
A `Monitor` gives the program: what a process does outside the lock, and what one critical
section does to the data, which channel it wakes, and whether it then releases the lock or goes
to sleep.

`wakeup` is not one step. It takes the lock of every process in turn, and `sleep` gives up the
monitor's lock only after it has taken the sleeper's own one. `Monitor.step` has each of these
as a step of its own, so any number of processors may run the processes.

Two rules come out of it. `Invariant` is about the data and the places of the processes: it has
to be kept by the sections as if each were one step. `Patient` is about the sleepers: if every
section leaves what it does not wake in a state where sleeping is right, then nobody who sleeps
has a reason to run (`Patient.run`).
-/

set_option autoImplicit false

namespace Xv6.Lib

/-- How a critical section ends: the lock is released, or given up by `sleep`. -/
inductive After (L C : Type) where
  | leave (l : L)
  | sleep (chan : C) (l : L)
  deriving DecidableEq

/-- Where the process goes on. -/
def After.loc {L C : Type} : After L C → L
  | .leave l => l
  | .sleep _ l => l

/-- One critical section: the data it leaves, the channel it wakes up, and how it ends. -/
structure Section (S L C : Type) where
  data : S
  wakes : Option C
  after : After L C

/-- A program of `n` processes with data `S` under one lock. A process that sleeps on a channel
`C` goes on in the section that starts at its place `L`. -/
structure Monitor (n : Nat) (S L C K : Type) where
  /-- A step outside the lock; `K` is what the process is free to choose. -/
  outside : Fin n → K → L → S → Option (S × L)
  /-- The places at which a process takes the lock. -/
  enters : L → Bool
  /-- The critical section at a place; `none` when it panics. -/
  body : Fin n → L → S → Option (Section S L C)
  /-- What `kill` does to the data; it also makes the process runnable. -/
  kill : Fin n → S → S

namespace Monitor

variable {n : Nat} {S L C K : Type}

/-- The locks: the one of the monitor and one of each process. -/
inductive LockId (n : Nat) where
  | main
  | proc (p : Fin n)
  deriving DecidableEq

/-- Where a process is. -/
inductive Pc (n : Nat) (L C : Type) where
  | out (l : L)
  | inside (l : L)
  /-- `wakeup`, about to look at process `j` -/
  | scan (j : Nat) (chan : C) (a : After L C)
  | check (j : Fin n) (chan : C) (a : After L C)
  | unlock (j : Fin n) (chan : C) (a : After L C)
  | finish (a : After L C)
  /-- `sleep`, with both locks -/
  | giveUp (chan : C) (l : L)
  | setSleep (chan : C) (l : L)
  | sched (l : L)
  /-- switched out -/
  | off (l : L)
  deriving DecidableEq

/-- The place of the process in its program. -/
def Pc.loc : Pc n L C → L
  | .out l | .inside l | .giveUp _ l | .setSleep _ l | .sched l | .off l => l
  | .scan _ _ a | .check _ _ a | .unlock _ _ a | .finish a => a.loc

/-- The locks held at a place. -/
def Pc.locks (p : Fin n) : Pc n L C → List (LockId n)
  | .out _ | .off _ => []
  | .inside _ | .scan _ _ _ | .finish _ => [.main]
  | .check j _ _ | .unlock j _ _ => [.main, .proc j]
  | .giveUp _ _ => [.main, .proc p]
  | .setSleep _ _ | .sched _ => [.proc p]

/-- The state of the machine. `asleep p` is the channel of a `SLEEPING` process. -/
structure State (n : Nat) (S L C : Type) where
  data : S
  owner : LockId n → Option (Fin n)
  asleep : Fin n → Option C
  pc : Fin n → Pc n L C

namespace State

def setPc (σ : State n S L C) (p : Fin n) (pc : Pc n L C) : State n S L C :=
  { σ with pc := Function.update σ.pc p pc }

def setOwner (σ : State n S L C) (k : LockId n) (o : Option (Fin n)) : State n S L C :=
  { σ with owner := Function.update σ.owner k o }

def setAsleep (σ : State n S L C) (p : Fin n) (c : Option C) : State n S L C :=
  { σ with asleep := Function.update σ.asleep p c }

/-- Process `p` takes lock `k` if it is free. -/
def acquire (σ : State n S L C) (p : Fin n) (k : LockId n) (pc : Pc n L C) :
    Option (State n S L C) :=
  if σ.owner k = none then some ((σ.setOwner k (some p)).setPc p pc) else none

def release (σ : State n S L C) (p : Fin n) (k : LockId n) (pc : Pc n L C) : State n S L C :=
  (σ.setOwner k none).setPc p pc

/-- The place of every process. -/
def loc (σ : State n S L C) (p : Fin n) : L := (σ.pc p).loc

end State

/-- What happens next: process `p` takes a step, or `p` is killed. -/
inductive Event (n : Nat) (K : Type) where
  | step (p : Fin n) (k : Option K)
  | kill (p : Fin n)

variable [DecidableEq C]

/-- A step of process `p`. -/
def stepProc (m : Monitor n S L C K) (σ : State n S L C) (p : Fin n) (k : Option K) :
    Option (State n S L C) :=
  match σ.pc p with
  | .out l =>
    match k with
    | some k =>
      (m.outside p k l σ.data).map fun r => { σ with data := r.1 }.setPc p (.out r.2)
    | none => if m.enters l then σ.acquire p .main (.inside l) else none
  | .inside l =>
    (m.body p l σ.data).map fun r =>
      { σ with data := r.data }.setPc p
        (match r.wakes with
        | some chan => .scan 0 chan r.after
        | none => .finish r.after)
  | .scan j chan a =>
    if h : j < n then
      -- if(p != myproc())
      if ⟨j, h⟩ = p then some (σ.setPc p (.scan (j + 1) chan a))
      else σ.acquire p (.proc ⟨j, h⟩) (.check ⟨j, h⟩ chan a)
    else some (σ.setPc p (.finish a))
  | .check j chan a =>
    if σ.asleep j = some chan then some ((σ.setAsleep j none).setPc p (.unlock j chan a))
    else some (σ.setPc p (.unlock j chan a))
  | .unlock j chan a => some (σ.release p (.proc j) (.scan (j + 1) chan a))
  | .finish (.leave l) => some (σ.release p .main (.out l))
  | .finish (.sleep chan l) => σ.acquire p (.proc p) (.giveUp chan l)
  | .giveUp chan l => some (σ.release p .main (.setSleep chan l))
  | .setSleep chan l => some ((σ.setAsleep p (some chan)).setPc p (.sched l))
  | .sched l => some (σ.release p (.proc p) (.off l))
  | .off l => if σ.asleep p = none then σ.acquire p .main (.inside l) else none

def step (m : Monitor n S L C K) (σ : State n S L C) : Event n K → Option (State n S L C)
  | .step p k => m.stepProc σ p k
  | .kill p =>
    if σ.owner (.proc p) = none then
      some ({ σ with data := m.kill p σ.data }.setAsleep p none)
    else none

/-- A run; `none` when an event is not possible. -/
def run (m : Monitor n S L C K) (σ : State n S L C) (evs : List (Event n K)) :
    Option (State n S L C) :=
  evs.foldlM m.step σ

/-- Nobody holds a lock or sleeps. -/
def start (s : S) (l : Fin n → L) : State n S L C :=
  { data := s, owner := fun _ => none, asleep := fun _ => none, pc := fun p => .out (l p) }

/-! ### What a step can do -/

variable {m : Monitor n S L C K} {σ σ' : State n S L C}

/-- Every step of a process. A step moves the process and does one of: change the data outside
the lock, run a critical section, move without touching anything, take a lock, give one back,
wake a sleeper, go to sleep. -/
inductive Moved (m : Monitor n S L C K) (σ : State n S L C) (p : Fin n) :
    State n S L C → Prop
  | outside {k l r} (hpc : σ.pc p = .out l) (h : m.outside p k l σ.data = some r) :
    Moved m σ p ({ σ with data := r.1 }.setPc p (.out r.2))
  | body {l r} (hpc : σ.pc p = .inside l) (h : m.body p l σ.data = some r) :
    Moved m σ p ({ σ with data := r.data }.setPc p
      (match r.wakes with
      | some chan => .scan 0 chan r.after
      | none => .finish r.after))
  | enter {l} (hpc : σ.pc p = .out l) (hl : m.enters l) (hfree : σ.owner .main = none) :
    Moved m σ p ((σ.setOwner .main (some p)).setPc p (.inside l))
  | skip {j chan a} (hpc : σ.pc p = .scan j chan a) (hj : j = p) :
    Moved m σ p (σ.setPc p (.scan (j + 1) chan a))
  | look {chan a} (j : Fin n) (hpc : σ.pc p = .scan j chan a) (hj : j ≠ p)
      (hfree : σ.owner (.proc j) = none) :
    Moved m σ p ((σ.setOwner (.proc j) (some p)).setPc p (.check j chan a))
  | scanned {j chan a} (hpc : σ.pc p = .scan j chan a) (hj : n ≤ j) :
    Moved m σ p (σ.setPc p (.finish a))
  | wake {j chan a} (hpc : σ.pc p = .check j chan a) (h : σ.asleep j = some chan) :
    Moved m σ p ((σ.setAsleep j none).setPc p (.unlock j chan a))
  | pass {j chan a} (hpc : σ.pc p = .check j chan a) (h : σ.asleep j ≠ some chan) :
    Moved m σ p (σ.setPc p (.unlock j chan a))
  | next {j chan a} (hpc : σ.pc p = .unlock j chan a) :
    Moved m σ p ((σ.setOwner (.proc j) none).setPc p (.scan (j + 1) chan a))
  | leave {l} (hpc : σ.pc p = .finish (.leave l)) :
    Moved m σ p ((σ.setOwner .main none).setPc p (.out l))
  | lockSelf {chan l} (hpc : σ.pc p = .finish (.sleep chan l))
      (hfree : σ.owner (.proc p) = none) :
    Moved m σ p ((σ.setOwner (.proc p) (some p)).setPc p (.giveUp chan l))
  | giveUp {chan l} (hpc : σ.pc p = .giveUp chan l) :
    Moved m σ p ((σ.setOwner .main none).setPc p (.setSleep chan l))
  | sleep {chan l} (hpc : σ.pc p = .setSleep chan l) :
    Moved m σ p ((σ.setAsleep p (some chan)).setPc p (.sched l))
  | sched {l} (hpc : σ.pc p = .sched l) :
    Moved m σ p ((σ.setOwner (.proc p) none).setPc p (.off l))
  | resume {l} (hpc : σ.pc p = .off l) (hrun : σ.asleep p = none)
      (hfree : σ.owner .main = none) :
    Moved m σ p ((σ.setOwner .main (some p)).setPc p (.inside l))

omit [DecidableEq C] in
/-- A lock is taken only if it is free. -/
theorem acquire_eq_some {p : Fin n} {k : LockId n} {pc : Pc n L C}
    (h : σ.acquire p k pc = some σ') :
    σ.owner k = none ∧ σ' = (σ.setOwner k (some p)).setPc p pc := by
  unfold State.acquire at h
  by_cases hk : σ.owner k = none
  · rw [if_pos hk] at h
    exact ⟨hk, (Option.some.inj h).symm⟩
  · rw [if_neg hk] at h
    cases h

/-- Every step of a process is one of the moves. -/
theorem stepProc_moved {p : Fin n} {k : Option K} (h : m.stepProc σ p k = some σ') :
    Moved m σ p σ' := by
  unfold stepProc at h
  cases hpc : σ.pc p with
  | out l =>
    rw [hpc] at h
    cases k with
    | some k =>
      obtain ⟨r, hr, rfl⟩ := Option.map_eq_some_iff.mp h
      exact .outside hpc hr
    | none =>
      by_cases hl : m.enters l = true
      · obtain ⟨hfree, rfl⟩ := acquire_eq_some ((if_pos hl).symm.trans h)
        exact .enter hpc hl hfree
      · cases (if_neg hl).symm.trans h
  | inside l =>
    rw [hpc] at h
    obtain ⟨r, hr, rfl⟩ := Option.map_eq_some_iff.mp h
    exact .body hpc hr
  | scan j chan a =>
    rw [hpc] at h
    by_cases hj : j < n
    · have h := (dif_pos hj).symm.trans h
      by_cases hself : ⟨j, hj⟩ = p
      · cases (if_pos hself).symm.trans h
        exact .skip hpc (congrArg Fin.val hself)
      · obtain ⟨hfree, rfl⟩ := acquire_eq_some ((if_neg hself).symm.trans h)
        exact .look ⟨j, hj⟩ hpc hself hfree
    · cases (dif_neg hj).symm.trans h
      exact .scanned hpc (Nat.le_of_not_lt hj)
  | check j chan a =>
    rw [hpc] at h
    by_cases hs : σ.asleep j = some chan
    · cases (if_pos hs).symm.trans h
      exact .wake hpc hs
    · cases (if_neg hs).symm.trans h
      exact .pass hpc hs
  | unlock j chan a =>
    rw [hpc] at h
    cases h
    exact .next hpc
  | finish a =>
    rw [hpc] at h
    cases a with
    | leave l =>
      cases h
      exact .leave hpc
    | sleep chan l =>
      obtain ⟨hfree, rfl⟩ := acquire_eq_some h
      exact .lockSelf hpc hfree
  | giveUp chan l =>
    rw [hpc] at h
    cases h
    exact .giveUp hpc
  | setSleep chan l =>
    rw [hpc] at h
    cases h
    exact .sleep hpc
  | sched l =>
    rw [hpc] at h
    cases h
    exact .sched hpc
  | off l =>
    rw [hpc] at h
    by_cases hs : σ.asleep p = none
    · obtain ⟨hfree, rfl⟩ := acquire_eq_some ((if_pos hs).symm.trans h)
      exact .resume hpc hs hfree
    · cases (if_neg hs).symm.trans h

/-- A `kill` takes the lock of its process and makes the process runnable. -/
theorem step_kill {p : Fin n} (h : m.step σ (.kill p) = some σ') :
    σ.owner (.proc p) = none ∧
      σ' = { σ with data := m.kill p σ.data }.setAsleep p none := by
  by_cases hfree : σ.owner (.proc p) = none
  · exact ⟨hfree, (Option.some.inj ((if_pos hfree).symm.trans h)).symm⟩
  · cases (if_neg hfree).symm.trans h

/-- What every step keeps holds at the end of every run. -/
theorem run_induction {I : State n S L C → Prop}
    (hstep : ∀ {σ ev σ'}, I σ → m.step σ ev = some σ' → I σ')
    {evs : List (Event n K)} (hI : I σ) (h : m.run σ evs = some σ') : I σ' := by
  induction evs generalizing σ with
  | nil =>
    cases h
    exact hI
  | cons ev evs ih =>
    obtain ⟨σ₁, h₁, h₂⟩ := Option.bind_eq_some_iff.mp h
    exact ih (hstep hI h₁) h₂

/-! ### Data -/

/-- `J` is kept by every critical section and by what happens outside the lock. -/
structure Keeps (m : Monitor n S L C K) (J : S → (Fin n → L) → Prop) : Prop where
  outside : ∀ {s ls p k r}, J s ls → m.outside p k (ls p) s = some r →
    J r.1 (Function.update ls p r.2)
  body : ∀ {s ls p r}, J s ls → m.body p (ls p) s = some r →
    J r.data (Function.update ls p r.after.loc)
  kill : ∀ {s ls} p, J s ls → J (m.kill p s) ls

omit [DecidableEq C] in
theorem loc_setPc (σ : State n S L C) (p : Fin n) (pc : Pc n L C) :
    (σ.setPc p pc).loc = Function.update σ.loc p pc.loc := by
  funext q
  by_cases hq : q = p
  · subst hq
    simp [State.loc, State.setPc]
  · simp [State.loc, State.setPc, hq]

variable {J : S → (Fin n → L) → Prop}

omit [DecidableEq C] in
/-- A step that keeps the data and the place of the process. -/
theorem loc_same {p : Fin n} {l : L} {σ₁ : State n S L C} {pc : Pc n L C} (hloc : σ.loc p = l)
    (hpc : σ₁.pc = σ.pc) (hl : pc.loc = l) : (σ₁.setPc p pc).loc = σ.loc := by
  have h₁ : σ₁.loc = σ.loc := by
    funext q
    simp [State.loc, hpc]
  rw [loc_setPc, h₁, hl, ← hloc, Function.update_eq_self]

/-- An invariant that the sections keep is kept by every step. -/
theorem Keeps.step (hJ : Keeps m J) {ev : Event n K} (h : J σ.data σ.loc)
    (hstep : m.step σ ev = some σ') : J σ'.data σ'.loc := by
  cases ev with
  | kill p =>
    obtain ⟨-, rfl⟩ := step_kill hstep
    exact hJ.kill p h
  | step p k =>
    -- outside of a section and its start only the place inside the machine changes
    have hkeep : ∀ {l : L} {σ₁ : State n S L C} {pc}, (σ.pc p).loc = l → σ₁.pc = σ.pc →
        σ₁.data = σ.data → pc.loc = l → J (σ₁.setPc p pc).data (σ₁.setPc p pc).loc := by
      intro l σ₁ pc hl hpc hdata hl'
      rw [loc_same hl hpc hl']
      exact hdata ▸ h
    cases stepProc_moved hstep with
    | @outside k l r hpc hr =>
      have hl : σ.loc p = l := congrArg Pc.loc hpc
      rw [loc_setPc]
      exact hJ.outside h (hl.symm ▸ hr)
    | @body l r hpc hr =>
      have hl : σ.loc p = l := congrArg Pc.loc hpc
      have hafter : ∀ w : Option C, Pc.loc (n := n)
          (match w with | some chan => .scan 0 chan r.after | none => .finish r.after)
            = r.after.loc := fun w => by cases w <;> rfl
      rw [loc_setPc, hafter]
      exact hJ.body h (hl.symm ▸ hr)
    | enter hpc | skip hpc | look j hpc | scanned hpc | wake hpc | pass hpc | next hpc
    | leave hpc | lockSelf hpc | giveUp hpc | sleep hpc | sched hpc | resume hpc =>
      exact hkeep (congrArg Pc.loc hpc) rfl rfl rfl

/-! ### Locks -/

section Locks

omit [DecidableEq C]

/-- Every lock belongs to the process whose place says that it holds it. -/
def Locked (σ : State n S L C) : Prop :=
  Sync σ.owner fun p k => k ∈ (σ.pc p).locks p

variable {σ₁ : State n S L C} {p : Fin n} {pc : Pc n L C} {k : LockId n}

/-- A step that takes and gives back no lock. -/
theorem Locked.move (h : Locked σ) (howner : σ₁.owner = σ.owner) (hpcs : σ₁.pc = σ.pc)
    (hlocks : pc.locks p = (σ.pc p).locks p) : Locked (σ₁.setPc p pc) := by
  have h₁ : Sync σ₁.owner fun p k => k ∈ (σ.pc p).locks p := howner ▸ h
  refine h₁.congr fun q k => ?_
  by_cases hq : q = p
  · subst hq
    simp [State.setPc, hlocks]
  · simp [State.setPc, hq, hpcs]

/-- A free lock is taken by the process that moves. -/
theorem Locked.acquire (h : Locked σ) (hfree : σ.owner k = none)
    (hlocks : ∀ k', k' ∈ pc.locks p ↔ k' = k ∨ k' ∈ (σ.pc p).locks p) :
    Locked ((σ.setOwner k (some p)).setPc p pc) := by
  refine Sync.acquire h hfree (fun k' => ?_) (fun q hq k' => ?_)
  · simp [State.setPc, State.setOwner, hlocks]
  · simp [State.setPc, State.setOwner, hq]

/-- A lock is given back by the process that holds it. -/
theorem Locked.release (h : Locked σ) (hheld : k ∈ (σ.pc p).locks p)
    (hlocks : ∀ k', k' ∈ pc.locks p ↔ k' ≠ k ∧ k' ∈ (σ.pc p).locks p) :
    Locked ((σ.setOwner k none).setPc p pc) := by
  refine Sync.release h hheld (fun k' => ?_) (fun q hq k' => ?_)
  · simp [State.setPc, State.setOwner, hlocks]
  · simp [State.setPc, State.setOwner, hq]

end Locks

/-- Every step keeps the locks with the processes whose places say that they hold them. -/
theorem Locked.step {ev : Event n K} (h : Locked σ) (hstep : m.step σ ev = some σ') :
    Locked σ' := by
  cases ev with
  | kill p =>
    obtain ⟨-, rfl⟩ := step_kill hstep
    exact h
  | step p k =>
    cases stepProc_moved hstep with
    | outside hpc | skip hpc | scanned hpc | wake hpc | pass hpc | sleep hpc =>
      exact h.move rfl rfl (by rw [hpc]; rfl)
    | @body l r hpc =>
      refine h.move rfl rfl ?_
      rw [hpc]
      cases r.wakes <;> rfl
    | enter hpc _ hfree | look j hpc _ hfree | lockSelf hpc hfree | resume hpc _ hfree =>
      exact h.acquire hfree fun k' => by simp [hpc, Pc.locks, or_comm]
    | next hpc | leave hpc | giveUp hpc | sched hpc =>
      refine h.release (by simp [hpc, Pc.locks]) fun k' => ?_
      simp only [hpc, Pc.locks, List.mem_cons, List.not_mem_nil, or_false]
      grind

/-! ### Sleepers -/

section Sleepers

omit [DecidableEq C]

/-- The channel of `sleep`. -/
def chanOf : After L C → Option C
  | .leave _ => none
  | .sleep chan _ => some chan

/-- The channel on which the process is about to sleep. -/
def Pc.sleepsOn : Pc n L C → Option C
  | .scan _ _ a | .check _ _ a | .unlock _ _ a | .finish a => chanOf a
  | .giveUp chan _ | .setSleep chan _ => some chan
  | _ => none

/-- The process sleeps on `chan`, or is about to. -/
def Going (σ : State n S L C) (p : Fin n) (chan : C) : Prop :=
  (σ.pc p).sleepsOn = some chan ∨ σ.asleep p = some chan

/-- A `wakeup` of `chan` that has still to come to process `p`. -/
def Pending (p : Fin n) (chan : C) : Pc n L C → Prop
  | .scan j c _ => c = chan ∧ j ≤ p
  | .check j c _ => c = chan ∧ j ≤ p
  | .unlock j c _ => c = chan ∧ j < p
  | _ => False

/-- A process sleeps only where `waits` holds, unless a `wakeup` is on its way to it. -/
structure SleepInv (waits : C → S → Prop) (σ : State n S L C) : Prop where
  locked : Locked σ
  asleep : ∀ p c, σ.asleep p = some c → ∃ l, σ.pc p = .sched l ∨ σ.pc p = .off l
  waits : ∀ p c, Going σ p c → waits c σ.data ∨ ∃ q, q ≠ p ∧ Pending p c (σ.pc q)

variable {waits : C → S → Prop} {p q : Fin n} {c : C}

/-- A process in the middle of a `wakeup` holds the lock of the monitor. -/
theorem Pending.main {pc : Pc n L C} (h : Pending q c pc) (p : Fin n) : .main ∈ pc.locks p := by
  cases pc <;> simp_all [Pending, Pc.locks]

/-- A process that is about to sleep holds the lock of the monitor or its own. -/
theorem locks_of_sleepsOn {pc : Pc n L C} (h : pc.sleepsOn = some c) (p : Fin n) :
    .main ∈ pc.locks p ∨ .proc p ∈ pc.locks p := by
  cases pc <;> simp_all [Pc.sleepsOn, Pc.locks]

/-- So it is not about to sleep while another one looks at it. -/
theorem Locked.sleepsOn_checked (h : Locked σ) {a : After L C} {chan : C} {j : Fin n}
    (hpc : σ.pc p = .check j chan a) (hj : j ≠ p) : (σ.pc j).sleepsOn ≠ some c := by
  intro hs
  rcases locks_of_sleepsOn hs j with hm | hm
  · exact hj (Sync.exclusive h hm (by simp [hpc, Pc.locks]))
  · exact hj (Sync.exclusive h hm (by simp [hpc, Pc.locks]))

/-- A step that changes no data and wakes nobody. -/
theorem SleepInv.walk (h : SleepInv waits σ) {σ₁ : State n S L C} {pc : Pc n L C}
    (hdata : σ₁.data = σ.data) (hasleep : σ₁.asleep = σ.asleep) (hpcs : σ₁.pc = σ.pc)
    (hsleeps : ∀ c, pc.sleepsOn = some c → (σ.pc p).sleepsOn = some c)
    (hpend : ∀ q c, q ≠ p → Going σ q c → Pending q c (σ.pc p) → Pending q c pc) (q : Fin n)
    (c : C) (hgoing : Going (σ₁.setPc p pc) q c) :
    waits c (σ₁.setPc p pc).data ∨ ∃ r, r ≠ q ∧ Pending q c ((σ₁.setPc p pc).pc r) := by
  have hbefore : Going σ q c := by
    by_cases hq : q = p
    · subst hq
      rcases hgoing with hs | hs
      · exact .inl (hsleeps c (by simpa [State.setPc] using hs))
      · exact .inr (hasleep ▸ hs)
    · rcases hgoing with hs | hs
      · exact .inl (by simpa [State.setPc, hq, hpcs] using hs)
      · exact .inr (hasleep ▸ hs)
  rcases h.waits q c hbefore with hw | ⟨r, hr, hp⟩
  · exact .inl (hdata.symm ▸ hw)
  · refine .inr ⟨r, hr, ?_⟩
    by_cases hrp : r = p
    · subst hrp
      simpa [State.setPc] using hpend q c (Ne.symm hr) hbefore hp
    · simpa [State.setPc, hrp, hpcs] using hp

/-- A step that makes a process runnable, or no longer asks whether it is. -/
theorem SleepInv.asleep_setPc (h : SleepInv waits σ) {σ₁ : State n S L C} {pc : Pc n L C}
    (hasleep : ∀ q, σ₁.asleep q = none ∨ σ₁.asleep q = σ.asleep q) (hpcs : σ₁.pc = σ.pc)
    (hpc : σ.asleep p ≠ none → (∃ l, σ.pc p = .sched l ∨ σ.pc p = .off l) →
      ∃ l, pc = .sched l ∨ pc = .off l) (q : Fin n)
    (c : C) (hs : (σ₁.setPc p pc).asleep q = some c) :
    ∃ l, (σ₁.setPc p pc).pc q = .sched l ∨ (σ₁.setPc p pc).pc q = .off l := by
  have hs₁ : σ.asleep q = some c := by
    rcases hasleep q with hq | hq
    · cases hq.symm.trans hs
    · exact hq ▸ hs
  have hold := h.asleep q c hs₁
  by_cases hq : q = p
  · subst hq
    simpa [State.setPc] using hpc (by simp [hs₁]) hold
  · simpa [State.setPc, hq, hpcs] using hold

end Sleepers

/-- Every section leaves the sleepers that it does not wake in a state where they may sleep,
and goes to sleep only in such a state. -/
structure Patient (m : Monitor n S L C K) (J : S → (Fin n → L) → Prop)
    (waits : C → S → Prop) : Prop where
  outside : ∀ {s ls p k r c}, J s ls → m.outside p k (ls p) s = some r → waits c s →
    waits c r.1
  wakes : ∀ {s ls p r c}, J s ls → m.body p (ls p) s = some r → r.wakes ≠ some c →
    waits c s → waits c r.data
  sleeps : ∀ {s ls p r c l}, J s ls → m.body p (ls p) s = some r → r.after = .sleep c l →
    waits c r.data
  kill : ∀ {s ls c} p, J s ls → waits c s → waits c (m.kill p s)

variable {waits : C → S → Prop}

section Patience

omit [DecidableEq C]

variable {p : Fin n} {l : L}

/-- A step outside the lock keeps what the sleepers wait for. -/
theorem SleepInv.outside (hp : Patient m J waits) (h : SleepInv waits σ)
    (hJ : J σ.data σ.loc) {k : K} {r : S × L} (hpc : σ.pc p = .out l)
    (hr : m.outside p k l σ.data = some r) :
    SleepInv waits ({ σ with data := r.1 }.setPc p (.out r.2)) := by
  have hl : σ.loc p = l := congrArg Pc.loc hpc
  refine ⟨h.locked.move rfl rfl (by rw [hpc]; rfl), ?_, fun q c hgoing => ?_⟩
  · refine h.asleep_setPc (fun _ => .inr rfl) rfl ?_
    rintro - ⟨l', hl' | hl'⟩ <;> cases hpc.symm.trans hl'
  · -- the places and the sleepers are as in a step that keeps the data
    have hwalk : waits c σ.data ∨ ∃ u, u ≠ q ∧ Pending q c ((σ.setPc p (.out r.2)).pc u) := by
      refine h.walk rfl rfl rfl (fun c hc => ?_) (fun q c _ _ hpend => ?_) q c hgoing
      · cases hc
      · simp [hpc, Pending] at hpend
    exact hwalk.imp_left (hp.outside hJ (hl.symm ▸ hr))

/-- Inside the lock nobody else is in the middle of a `wakeup`. -/
theorem SleepInv.waits_inside (h : SleepInv waits σ) (hpc : σ.pc p = .inside l) {q : Fin n}
    {c : C} (hgoing : Going σ q c) : waits c σ.data := by
  rcases h.waits q c hgoing with hw | ⟨r, -, hpend⟩
  · exact hw
  · have hr : r = p := Sync.exclusive h.locked (hpend.main r) (by simp [hpc, Pc.locks])
    rw [hr, hpc] at hpend
    exact hpend.elim

/-- A section wakes the sleepers that it concerns, or leaves them in a state where they may sleep.
-/
theorem SleepInv.body (hp : Patient m J waits) (h : SleepInv waits σ)
    (hJ : J σ.data σ.loc) {r : Section S L C} (hpc : σ.pc p = .inside l)
    (hr : m.body p l σ.data = some r) :
    SleepInv waits ({ σ with data := r.data }.setPc p
      (match r.wakes with
      | some chan => .scan 0 chan r.after
      | none => .finish r.after)) := by
  have hl : σ.loc p = l := congrArg Pc.loc hpc
  have hbody : m.body p (σ.loc p) σ.data = some r := hl.symm ▸ hr
  refine ⟨?_, ?_, fun q c hgoing => ?_⟩
  · refine h.locked.move rfl rfl ?_
    rw [hpc]
    cases r.wakes <;> rfl
  · refine h.asleep_setPc (fun _ => .inr rfl) rfl ?_
    rintro - ⟨l', hl' | hl'⟩ <;> cases hpc.symm.trans hl'
  · by_cases hq : q = p
    · -- the process itself sleeps only where the section says so
      subst hq
      rcases hgoing with hs | hs
      · refine .inl ?_
        have hchan : chanOf r.after = some c := by
          rw [← hs]
          cases r.wakes <;> simp [State.setPc, Pc.sleepsOn]
        cases ha : r.after with
        | leave l' => simp [ha, chanOf] at hchan
        | sleep chan l' =>
          obtain rfl : chan = c := by simpa [ha, chanOf] using hchan
          exact hp.sleeps hJ hbody ha
      · obtain ⟨l', hl' | hl'⟩ := h.asleep q c hs <;> cases hpc.symm.trans hl'
    · have hbefore : Going σ q c := by simpa [Going, State.setPc, hq] using hgoing
      by_cases hw : r.wakes = some c
      · -- the wakeup is still to come
        refine .inr ⟨p, Ne.symm hq, ?_⟩
        simp [State.setPc, hw, Pending]
      · exact .inl (hp.wakes hJ hbody hw (h.waits_inside hpc hbefore))

/-- A process that is killed is no longer asleep. -/
theorem SleepInv.kill (hp : Patient m J waits) (h : SleepInv waits σ) (hJ : J σ.data σ.loc)
    (p : Fin n) : SleepInv waits ({ σ with data := m.kill p σ.data }.setAsleep p none) := by
  have hasleep : ∀ {q c}, (({ σ with data := m.kill p σ.data } : State n S L C).setAsleep p
      none).asleep q = some c → σ.asleep q = some c := by
    intro q c hs
    by_cases hq : q = p
    · subst hq
      simp [State.setAsleep] at hs
    · simpa [State.setAsleep, hq] using hs
  refine ⟨h.locked, fun q c hs => h.asleep q c (hasleep hs), fun q c hgoing => ?_⟩
  exact (h.waits q c (hgoing.imp_right hasleep)).imp_left (hp.kill p hJ)

/-- The `wakeup` comes to a sleeper and makes it runnable. -/
theorem SleepInv.wake (h : SleepInv waits σ) {chan : C} {j : Fin n} {a : After L C}
    (hpc : σ.pc p = .check j chan a) :
    SleepInv waits ((σ.setAsleep j none).setPc p (.unlock j chan a)) := by
  have hasleep : ∀ q, (σ.setAsleep j none).asleep q = none ∨
      (σ.setAsleep j none).asleep q = σ.asleep q := by
    intro q
    by_cases hq : q = j
    · subst hq
      simp [State.setAsleep]
    · simp [State.setAsleep, hq]
  refine ⟨h.locked.move rfl rfl (by rw [hpc]; rfl), ?_, fun q c hgoing => ?_⟩
  · refine h.asleep_setPc hasleep rfl ?_
    rintro - ⟨l', hl' | hl'⟩ <;> cases hpc.symm.trans hl'
  · have hbefore : Going σ q c := by
      rcases hgoing with hs | hs
      · left
        by_cases hq : q = p
        · subst hq
          simpa [State.setPc, hpc, Pc.sleepsOn] using hs
        · simpa [State.setPc, State.setAsleep, hq] using hs
      · right
        rcases hasleep q with hq | hq
        · cases hq.symm.trans hs
        · exact hq ▸ hs
    rcases h.waits q c hbefore with hw | ⟨r, hr, hpend⟩
    · exact .inl hw
    · refine .inr ⟨r, hr, ?_⟩
      by_cases hrp : r = p
      · subst hrp
        rw [hpc] at hpend
        -- process `j` is the one that has just been woken
        have hjq : j ≠ q := by
          rintro rfl
          rcases hgoing with hs | hs
          · refine h.locked.sleepsOn_checked hpc (Ne.symm hr) (c := c) ?_
            simpa [State.setPc, State.setAsleep, Ne.symm hr] using hs
          · simp [State.setPc, State.setAsleep] at hs
        have hlt : j < q := Nat.lt_of_le_of_ne hpend.2 fun he => hjq (Fin.ext he)
        simpa [State.setPc, Pending] using And.intro hpend.1 hlt
      · simpa [State.setPc, State.setAsleep, hrp] using hpend

/-- A process goes to sleep with its own lock held, so that no `wakeup` has passed it by. -/
theorem SleepInv.sleep (h : SleepInv waits σ) {chan : C} (hpc : σ.pc p = .setSleep chan l) :
    SleepInv waits ((σ.setAsleep p (some chan)).setPc p (.sched l)) := by
  refine ⟨h.locked.move rfl rfl (by rw [hpc]; rfl), fun q c hs => ?_, fun q c hgoing => ?_⟩
  · by_cases hq : q = p
    · subst hq
      exact ⟨l, .inl (by simp [State.setPc])⟩
    · have hold := h.asleep q c (by simpa [State.setPc, State.setAsleep, hq] using hs)
      simpa [State.setPc, State.setAsleep, hq] using hold
  · have hbefore : Going σ q c := by
      by_cases hq : q = p
      · subst hq
        left
        simpa [Going, State.setPc, State.setAsleep, Pc.sleepsOn, hpc] using hgoing
      · simpa [Going, State.setPc, State.setAsleep, hq] using hgoing
    rcases h.waits q c hbefore with hw | ⟨r, hr, hpend⟩
    · exact .inl hw
    · refine .inr ⟨r, hr, ?_⟩
      by_cases hrp : r = p
      · subst hrp
        rw [hpc] at hpend
        exact hpend.elim
      · simpa [State.setPc, State.setAsleep, hrp] using hpend

end Patience

/-- No step loses a `wakeup`. -/
theorem SleepInv.step (hp : Patient m J waits) {ev : Event n K} (h : SleepInv waits σ)
    (hJ : J σ.data σ.loc) (hstep : m.step σ ev = some σ') : SleepInv waits σ' := by
  have hlocked := h.locked.step hstep
  cases ev with
  | kill p =>
    obtain ⟨-, rfl⟩ := step_kill hstep
    exact h.kill hp hJ p
  | step p k =>
    -- a step that only moves the process and does not touch the sleepers
    have hwalk : ∀ {σ₁ : State n S L C} {pc : Pc n L C}, Locked (σ₁.setPc p pc) →
        σ₁.data = σ.data → σ₁.asleep = σ.asleep → σ₁.pc = σ.pc →
        (∀ c, pc.sleepsOn = some c → (σ.pc p).sleepsOn = some c) →
        (∀ q c, q ≠ p → Going σ q c → Pending q c (σ.pc p) → Pending q c pc) →
        (σ.asleep p ≠ none → (∃ l, σ.pc p = .sched l ∨ σ.pc p = .off l) →
          ∃ l, pc = .sched l ∨ pc = .off l) → SleepInv waits (σ₁.setPc p pc) :=
      fun hlocked hdata hasleep hpcs hsleeps hpend hoff =>
        ⟨hlocked, h.asleep_setPc (fun _ => .inr (hasleep ▸ rfl)) hpcs hoff,
          h.walk hdata hasleep hpcs hsleeps hpend⟩
    cases stepProc_moved hstep with
    | outside hpc hr => exact h.outside hp hJ hpc hr
    | body hpc hr => exact h.body hp hJ hpc hr
    | wake hpc _ => exact h.wake hpc
    | sleep hpc => exact h.sleep hpc
    | skip hpc hj =>
      refine hwalk hlocked rfl rfl rfl (fun c hc => by rw [hpc]; exact hc) ?_ ?_
      · intro q c hq _ hpend
        rw [hpc] at hpend
        have hne : (q : Nat) ≠ p := fun he => hq (Fin.ext he)
        exact ⟨hpend.1, by have := hpend.2; omega⟩
      · rintro - ⟨l', hl' | hl'⟩ <;> cases hpc.symm.trans hl'
    | look j hpc hj hfree =>
      refine hwalk hlocked rfl rfl rfl (fun c hc => by rw [hpc]; exact hc) ?_ ?_
      · intro q c _ _ hpend
        rw [hpc] at hpend
        exact hpend
      · rintro - ⟨l', hl' | hl'⟩ <;> cases hpc.symm.trans hl'
    | scanned hpc hj =>
      refine hwalk hlocked rfl rfl rfl (fun c hc => by rw [hpc]; exact hc) ?_ ?_
      · intro q c _ _ hpend
        rw [hpc] at hpend
        exact absurd hpend.2 (by omega)
      · rintro - ⟨l', hl' | hl'⟩ <;> cases hpc.symm.trans hl'
    | @pass j chan a hpc hs =>
      refine hwalk hlocked rfl rfl rfl (fun c hc => by rw [hpc]; exact hc) ?_ ?_
      · intro q c hq hgoing hpend
        rw [hpc] at hpend
        refine ⟨hpend.1, Nat.lt_of_le_of_ne hpend.2 fun he => ?_⟩
        -- process `j` does not sleep on the channel, and cannot be about to
        obtain rfl : j = q := Fin.ext he
        rcases hgoing with hg | hg
        · exact h.locked.sleepsOn_checked hpc hq hg
        · exact hs (hpend.1 ▸ hg)
      · rintro - ⟨l', hl' | hl'⟩ <;> cases hpc.symm.trans hl'
    | next hpc =>
      refine hwalk hlocked rfl rfl rfl (fun c hc => by rw [hpc]; exact hc) ?_ ?_
      · intro q c _ _ hpend
        rw [hpc] at hpend
        exact ⟨hpend.1, hpend.2⟩
      · rintro - ⟨l', hl' | hl'⟩ <;> cases hpc.symm.trans hl'
    | enter hpc | leave hpc | lockSelf hpc | giveUp hpc =>
      refine hwalk hlocked rfl rfl rfl (fun c hc => by rw [hpc]; exact hc) ?_ ?_
      · intro q c _ _ hpend
        rw [hpc] at hpend
        exact hpend.elim
      · rintro - ⟨l', hl' | hl'⟩ <;> cases hpc.symm.trans hl'
    | sched hpc =>
      refine hwalk hlocked rfl rfl rfl (fun c hc => by cases hc) ?_ fun _ _ => ⟨_, .inr rfl⟩
      intro q c _ _ hpend
      rw [hpc] at hpend
      exact hpend.elim
    | resume hpc hrun hfree =>
      refine hwalk hlocked rfl rfl rfl (fun c hc => by cases hc) ?_ fun hs _ => absurd hrun hs
      intro q c _ _ hpend
      rw [hpc] at hpend
      exact hpend.elim

/-! ### Runs -/

/-- The data invariant holds in every reachable state. -/
theorem Keeps.run (hJ : Keeps m J) {evs : List (Event n K)} (h : J σ.data σ.loc)
    (hrun : m.run σ evs = some σ') : J σ'.data σ'.loc :=
  run_induction (fun h hstep => hJ.step h hstep) h hrun

/-- Whoever sleeps while the lock is free has a reason to. -/
theorem Patient.run (hp : Patient m J waits) (hJ : Keeps m J) {s : S} {l : Fin n → L}
    (hstart : J s l) {evs : List (Event n K)} (hrun : m.run (start s l) evs = some σ)
    (hfree : σ.owner .main = none) {p : Fin n} {c : C} (hs : σ.asleep p = some c) :
    waits c σ.data := by
  have hinit : SleepInv waits (start s l : State n S L C) := by
    refine ⟨fun q k => ?_, fun q c hs => (by cases hs), fun q c hg => ?_⟩
    · simp [start, Pc.locks]
    · simp [Going, start, Pc.sleepsOn] at hg
  have hboth : SleepInv waits σ ∧ J σ.data σ.loc :=
    run_induction (I := fun σ => SleepInv waits σ ∧ J σ.data σ.loc)
      (fun h hstep => ⟨h.1.step hp h.2 hstep, hJ.step h.2 hstep⟩) ⟨hinit, hstart⟩ hrun
  rcases hboth.1.waits p c (.inr hs) with hw | ⟨q, -, hpend⟩
  · exact hw
  · -- a wakeup would hold the lock
    have hown := (hboth.1.locked q .main).mpr (hpend.main q)
    rw [hfree] at hown
    cases hown

end Monitor

end Xv6.Lib
