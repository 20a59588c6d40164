import Xv6.Kernel.BufLog
import Xv6.Proofs.Log.Capacity

/-!
# `Xv6.Proofs.Bio.Inv`: the invariant of the buffer cache and the log

The log works through the list of its blocks in order, so three numbers say how far a
commit has come: `copied` entries have been written to the log area, `installed` entries
have been written home, and `unpinned` entries have lost their pin. `Core s c k m` is the
invariant of the system with these three numbers as parameters. Every step that leaves them
alone keeps `Core` at the same parameters, and only three statements of `commit` move them.

The reading of `Core`:

* `Refs`: a buffer is referenced by the processes that use it, and once more if its block
  is among the entries that are not unpinned; such a block is in the cache, with its data;
* `Locks`: the sleep lock of a buffer belongs to the one process that is past
  `acquiresleep`;
* `clean`: a cached block outside the log area holds its abstract contents, unless the
  process that holds it has changed it and not called `log_write` yet;
* `home`: a block outside the log area that is not waiting to be installed has its abstract
  contents on the disk;
* `copies`: the copied log blocks hold the abstract contents of their entries.

`PcOk` says which buffers the committing process has at each statement.
-/

set_option autoImplicit false

namespace Xv6.Proofs

open List

variable {b p : Nat} {s : Sys} {u v : Use} {uses : List Use}

/-! ### The state of a commit -/

/-- The blocks listed in `log.lh`, in order. -/
def lhList (log : Log) : List Nat := (List.range log.lh.n.toNat).map log.lh.block

/-- How many entries `write_log` has written, with `n` listed. -/
def CommitPc.copied (n : Nat) : CommitPc → Nat
  | .wlTo t => t
  | .wlFrom t _ => t
  | .wlCopy t _ _ => t
  | .wlRelFrom t _ _ => t + 1
  | .wlRelTo t _ => t + 1
  | _ => n

/-- How many entries `install_trans` has written home. -/
def CommitPc.installed (n : Nat) : CommitPc → Nat
  | .itLog t => t
  | .itDst t _ => t
  | .itCopy t _ _ => t
  | .itUnpin t _ _ => t + 1
  | .itRelLog t _ _ => t + 1
  | .itRelDst t _ => t + 1
  | .clear => n
  | _ => 0

/-- How many entries `install_trans` has unpinned. -/
def CommitPc.unpinned (n : Nat) : CommitPc → Nat
  | .itLog t => t
  | .itDst t _ => t
  | .itCopy t _ _ => t
  | .itUnpin t _ _ => t
  | .itRelLog t _ _ => t + 1
  | .itRelDst t _ => t + 1
  | .clear => n
  | _ => 0

/-- A number of the commit in progress, 0 when there is none. -/
def commitCount (f : Nat → CommitPc → Nat) (s : Sys) : Nat :=
  match s.commit with
  | none => 0
  | some c => f s.log.lh.n.toNat c.2

def copied (s : Sys) : Nat := commitCount CommitPc.copied s
def installed (s : Sys) : Nat := commitCount CommitPc.installed s
def unpinned (s : Sys) : Nat := commitCount CommitPc.unpinned s

/-! ### The invariant -/

/-- The processes that use buffer `i`: the holders and the waiters. -/
def users (uses : List Use) (i : Fin NBUF) : Nat := uses.countP fun u => u.buf = i

/-- The processes that hold the sleep lock of buffer `i`. -/
def lockers (uses : List Use) (i : Fin NBUF) : Nat :=
  uses.countP fun u => u.buf = i && u.phase.locks

/-- The pins of buffer `b`: one if it caches a block of the list `bs`. -/
def pins (b : Buf) (dev : Nat) (bs : List Nat) : Nat :=
  if b.dev = dev ∧ b.blockno ∈ bs then 1 else 0

/-- A block is in one buffer only, and every buffer is on the list. -/
structure Keys (bc : BCache) (dev : Nat) (uses : List Use) : Prop where
  lru : ∀ i, i ∈ bc.lru
  uniq : ∀ i j, (bc.buf i).dev = dev → (bc.buf j).dev = dev →
    (bc.buf i).blockno = (bc.buf j).blockno → i = j
  useDev : ∀ u ∈ uses, (bc.buf u.buf).dev = dev

/-- The reference counts, when the blocks `bs` are pinned. -/
structure Refs (bc : BCache) (dev : Nat) (uses : List Use) (bs : List Nat) : Prop where
  refcnt : ∀ i, (bc.buf i).refcnt = users uses i + pins (bc.buf i) dev bs
  pinValid : ∀ b ∈ bs, ∃ i, (bc.buf i).dev = dev ∧ (bc.buf i).blockno = b ∧
    (bc.buf i).valid = true

/-- The sleep locks. -/
structure Locks (bc : BCache) (uses : List Use) : Prop where
  locked : ∀ i, lockers uses i = if (bc.buf i).lock.isSome then 1 else 0
  owner : ∀ u ∈ uses, u.phase.locks = true → (bc.buf u.buf).lock = some u.tid
  heldValid : ∀ u ∈ uses, u.phase.isHeld = true → (bc.buf u.buf).valid = true

/-- The contents of the buffers and of the disk, with `c` entries of the list `lh` copied
and `k` installed. -/
structure Contents (s : Sys) (c k : Nat) : Prop where
  clean : ∀ i, (s.bc.buf i).dev = s.log.dev → (s.bc.buf i).valid = true →
    ¬ s.log.InArea (s.bc.buf i).blockno →
    (∀ u ∈ s.uses, u.buf = i → u.phase ≠ .held true false) →
    (s.bc.buf i).data = s.abs (s.bc.buf i).blockno
  logClean : ∀ i, (s.bc.buf i).dev = s.log.dev → (s.bc.buf i).valid = true →
    s.log.InArea (s.bc.buf i).blockno → (s.bc.buf i).data = s.disk (s.bc.buf i).blockno
  home : ∀ b, ¬ s.log.InArea b → b ∉ (lhList s.log).drop k → s.disk b = s.abs b
  logged : ∀ u ∈ s.uses, ∀ d, u.phase = .held d true →
    (s.bc.buf u.buf).blockno ∈ (lhList s.log).drop c
  copies : ∀ t < c, t < s.log.lh.n.toNat →
    s.disk (s.log.start + t + 1) = s.abs (s.log.lh.block t)

/-- The invariant, with `c` entries copied, `k` installed and `m` unpinned. -/
structure Core (s : Sys) (c k m : Nat) : Prop where
  keys : Keys s.bc s.log.dev s.uses
  refs : Refs s.bc s.log.dev s.uses ((lhList s.log).drop m)
  locks : Locks s.bc s.uses
  contents : Contents s c k
  nodup : (lhList s.log).Nodup
  outside : ∀ b ∈ lhList s.log, ¬ s.log.InArea b
  unpinned_le : m ≤ k
  installed_le : k ≤ c

/-- The counters of the log. -/
structure LogOk (s : Sys) : Prop where
  outstanding : s.log.outstanding = s.active.length
  committing : s.log.committing = s.commit.isSome
  quiet : s.commit.isSome = true → s.active = []
  nonneg : 0 ≤ s.log.lh.n
  room : s.log.lh.n ≤ s.log.size - 1
  empty : s.commit = none → s.active = [] → s.log.lh.n = 0

/-- Process `p` has called `bread` for buffer `i` and has not called `brelse`; if `bread` has
returned, the contents are as it returned them. -/
def HasUse (uses : List Use) (p : Nat) (i : Fin NBUF) : Prop :=
  ⟨p, i, .waiting⟩ ∈ uses ∨ ⟨p, i, .reading⟩ ∈ uses ∨ ⟨p, i, .held false false⟩ ∈ uses

/-- The committing process `p` has buffer `i`, of block `b`. -/
def Has (s : Sys) (p : Nat) (i : Fin NBUF) (b : Nat) : Prop :=
  HasUse s.uses p i ∧ (s.bc.buf i).blockno = b

/-- What the process in `commit()` has at each statement. -/
def PcOk (s : Sys) (p : Nat) : CommitPc → Prop
  | .wlTo t => t ≤ s.log.lh.n.toNat
  | .wlFrom t i => t < s.log.lh.n.toNat ∧ Has s p i (s.log.start + t + 1)
  | .wlCopy t i j => t < s.log.lh.n.toNat ∧ Has s p i (s.log.start + t + 1) ∧
      Has s p j (s.log.lh.block t)
  | .wlRelFrom t i j => t < s.log.lh.n.toNat ∧ Has s p i (s.log.start + t + 1) ∧
      Has s p j (s.log.lh.block t)
  | .wlRelTo t i => t < s.log.lh.n.toNat ∧ Has s p i (s.log.start + t + 1)
  | .hdBread cleared => cleared = true → s.log.lh.n = 0
  | .hdWrite cleared i => (cleared = true → s.log.lh.n = 0) ∧ Has s p i s.log.start
  | .hdRel cleared i => (cleared = true → s.log.lh.n = 0) ∧ Has s p i s.log.start
  | .itLog t => t ≤ s.log.lh.n.toNat
  | .itDst t i => t < s.log.lh.n.toNat ∧ Has s p i (s.log.start + t + 1)
  | .itCopy t i j => t < s.log.lh.n.toNat ∧ Has s p i (s.log.start + t + 1) ∧
      Has s p j (s.log.lh.block t)
  | .itUnpin t i j => t < s.log.lh.n.toNat ∧ Has s p i (s.log.start + t + 1) ∧
      Has s p j (s.log.lh.block t)
  | .itRelLog t i j => t < s.log.lh.n.toNat ∧ Has s p i (s.log.start + t + 1) ∧
      Has s p j (s.log.lh.block t)
  | .itRelDst t j => t < s.log.lh.n.toNat ∧ Has s p j (s.log.lh.block t)
  | .clear => True
  | .done => s.log.lh.n = 0

/-- The whole invariant. -/
structure SysInv (s : Sys) : Prop where
  core : Core s (copied s) (installed s) (unpinned s)
  log : LogOk s
  pc : ∀ p pc, s.commit = some (p, pc) → PcOk s p pc

/-! ### Lists of uses -/

/-- A reference that moves to another phase changes a count by its own share. -/
theorem countP_move (u' : Use) (f : Use → Bool) (hu : u ∈ uses) :
    (u' :: uses.erase u).countP f + (if f u then 1 else 0)
      = uses.countP f + (if f u' then 1 else 0) := by
  have hperm : uses.countP f = (u :: uses.erase u).countP f :=
    (perm_cons_erase hu).countP_eq f
  rw [hperm, countP_cons, countP_cons]
  omega

/-- A reference that is dropped takes its share of a count with it. -/
theorem countP_erase_of_mem (f : Use → Bool) (hu : u ∈ uses) :
    (uses.erase u).countP f + (if f u then 1 else 0) = uses.countP f := by
  rw [(perm_cons_erase hu).countP_eq f, countP_cons]

theorem mem_of_mem_move {u' : Use} (h : v ∈ u' :: uses.erase u) : v = u' ∨ v ∈ uses := by
  rcases mem_cons.mp h with h | h
  · exact Or.inl h
  · exact Or.inr (mem_of_mem_erase h)

/-- A buffer that `heldBy` finds is held by the process. -/
theorem heldBy_mem {i : Fin NBUF} {f : Bool × Bool} (h : s.heldBy p i = some f) :
    ⟨p, i, .held f.1 f.2⟩ ∈ s.uses := by
  unfold Sys.heldBy at h
  obtain ⟨u, hu, hf⟩ := exists_of_findSome?_eq_some h
  obtain ⟨tid, buf, phase⟩ := u
  cases phase with
  | held dirty logged =>
    simp only at hf
    split at hf
    · rename_i heq
      cases hf
      obtain ⟨rfl, rfl⟩ := heq
      exact hu
    · cases hf
  | waiting => cases hf
  | reading => cases hf
  | releasing => cases hf

/-- A process that is in no call holds the buffers it has. -/
theorem idle_held (h : s.idle p = true) (hu : u ∈ s.uses) (hp : u.tid = p) :
    u.phase.isHeld = true := by
  unfold Sys.idle at h
  rw [all_eq_true] at h
  have := h u hu
  simpa [hp] using this

/-- An idle committing process holds what it has. -/
theorem Has.held {i : Fin NBUF} (h : Has s p i b) (hidle : s.idle p = true) :
    ⟨p, i, .held false false⟩ ∈ s.uses := by
  rcases h.1 with h | h | h
  · have := idle_held hidle h rfl
    cases this
  · have := idle_held hidle h rfl
    cases this
  · exact h

/-- Two processes cannot hold the sleep lock of one buffer. -/
theorem Locks.unique {bc : BCache} (h : Locks bc uses) (hu : u ∈ uses) (hv : v ∈ uses)
    (hbuf : u.buf = v.buf) (hul : u.phase.locks = true) (hvl : v.phase.locks = true) : u = v := by
  by_contra hne
  have hle : lockers uses v.buf ≤ 1 := by
    rw [h.locked]
    split <;> omega
  have hsplit := countP_erase_of_mem (fun w => decide (w.buf = v.buf) && w.phase.locks) hu
  have hv' : v ∈ uses.erase u := (mem_erase_of_ne (Ne.symm hne)).mpr hv
  have hpos : 0 < (uses.erase u).countP
      (fun w => decide (w.buf = v.buf) && w.phase.locks) :=
    countP_pos_iff.mpr ⟨v, hv', by simp [hvl]⟩
  simp only [hbuf, hul, decide_true, Bool.and_self, if_true] at hsplit
  unfold lockers at hle
  omega

/-! ### The list in `log.lh` -/

theorem mem_lhList {log : Log} : b ∈ lhList log ↔ ∃ t < log.lh.n.toNat, log.lh.block t = b := by
  unfold lhList
  simp

theorem length_lhList (log : Log) : (lhList log).length = log.lh.n.toNat := by
  simp [lhList]

theorem drop_lhList {log : Log} {t : Nat} (ht : t < log.lh.n.toNat) :
    (lhList log).drop t = log.lh.block t :: (lhList log).drop (t + 1) := by
  rw [drop_eq_getElem_cons (by rw [length_lhList]; exact ht)]
  congr 1
  simp [lhList]

theorem mem_drop_of_le {bs : List Nat} {m k : Nat} (h : m ≤ k) (hb : b ∈ bs.drop k) :
    b ∈ bs.drop m := by
  rw [show k = m + (k - m) from by omega, ← drop_drop] at hb
  exact mem_of_mem_drop hb

end Xv6.Proofs
