import Xv6.Proofs.Bio.Run

/-!
# `Xv6.Proofs.Bio.Refine`: the cache and the log refine one disk

The history of a run is `lastModified`: for each block the contents that its last change
gave it, or the contents on the disk at the start. It is computed from the run alone. The
invariant `Follows` ties it to the abstract disk: the two agree on every block except one
that a process has changed and not passed to `log_write` yet. `Frame` is what the other
steps leave alone.
-/

set_option autoImplicit false

namespace Xv6.Proofs

open Function (update update_of_ne update_self)
open List

variable {s : Sys} {i : Fin NBUF} {p : Nat} {a : Act} {cur : Disk}

variable {s' : Sys}

/-! ### What a step leaves alone -/

/-- A buffer that some process uses has a reference. -/
theorem Core.refcnt_pos {c k m : Nat} (h : Core s c k m) {u : Use} (hu : u ∈ s.uses) :
    0 < (s.bc.buf u.buf).refcnt := by
  have hpos : 0 < users s.uses u.buf := countP_pos_iff.mpr ⟨u, hu, by simp⟩
  have := h.refs.refcnt u.buf
  omega

/-- A step that is no change and no `log_write`: buffers with references keep their blocks,
and the buffers with an unlogged change keep their contents. -/
structure Frame (s s' : Sys) : Prop where
  abs : s'.abs = s.abs
  area : ∀ b, s'.log.InArea b ↔ s.log.InArea b
  keys : ∀ i, 0 < (s.bc.buf i).refcnt → (s'.bc.buf i).dev = (s.bc.buf i).dev ∧
    (s'.bc.buf i).blockno = (s.bc.buf i).blockno
  dirty : ∀ u : Use, u.phase = .held true false → (u ∈ s'.uses ↔ u ∈ s.uses)
  data : ∀ u ∈ s.uses, u.phase = .held true false →
    (s'.bc.buf u.buf).data = (s.bc.buf u.buf).data

theorem frame_bread {b : Nat} (hs : s.startBread p b = some (i, s')) : Frame s s' := by
  unfold Sys.startBread at hs
  obtain ⟨⟨i', bc'⟩, hget, heq⟩ := Option.map_eq_some_iff.mp hs
  obtain ⟨rfl, rfl⟩ := Prod.mk.inj heq
  rcases bget_cases hget with ⟨-, -, rfl⟩ | ⟨-, hz, rfl⟩ <;> constructor <;> grind [set_buf]

theorem frame_releasesleep (hs : s.releasesleep p i = some s') : Frame s s' := by
  unfold Sys.releasesleep at hs
  obtain ⟨f, hf, hs⟩ := Option.bind_eq_some_iff.mp hs
  rw [Option.ite_none_right_eq_some] at hs
  obtain ⟨⟨-, hrule⟩, hs⟩ := hs
  cases hs
  have herase := erase_spec s.uses ⟨p, i, .held f.1 f.2⟩
  constructor <;> grind [set_buf, Sys.move]

/-- What a statement of `commit` does, apart from moving on. -/
inductive CommitEffect (s : Sys) (p : Nat) : Sys → Prop
  | skip : CommitEffect s p s
  | bread {b : Nat} {i : Fin NBUF} {s' : Sys} (hs : s.startBread p b = some (i, s')) :
      CommitEffect s p s'
  | write {i : Fin NBUF} {data : Block} (hu : ⟨p, i, .held false false⟩ ∈ s.uses) :
      CommitEffect s p { s with
        bc := s.bc.set i { s.bc.buf i with data := data }
        disk := Function.update s.disk (s.bc.buf i).blockno data }
  | brelse {i : Fin NBUF} {s' : Sys} (hs : s.releasesleep p i = some s') : CommitEffect s p s'
  | unpin {i : Fin NBUF} : CommitEffect s p { s with bc := s.bc.bunpin i }
  | setLog {log : Log} (hstart : log.start = s.log.start) (hsize : log.size = s.log.size) :
      CommitEffect s p { s with log := log }

/-- Every statement of `commit` has one of these effects. -/
theorem commitStep_effect (h : SysInv s) (hs : s.commitStep = some s') :
    ∃ p s'' c, CommitEffect s p s'' ∧ s' = { s'' with commit := c } := by
  unfold Sys.commitStep at hs
  cases hcommit : s.commit with
  | none => rw [hcommit] at hs; cases hs
  | some c =>
  obtain ⟨p, pc⟩ := c
  have hpc := h.pc p pc hcommit
  rw [hcommit] at hs
  simp only [Option.ite_none_right_eq_some] at hs
  obtain ⟨hidle, hs⟩ := hs
  have hbread : ∀ {b} {next : Fin NBUF → CommitPc},
      (s.startBread p b).map (fun r => r.2.goto p (next r.1)) = some s' →
      ∃ p s'' c, CommitEffect s p s'' ∧ s' = { s'' with commit := c } := by
    intro b next hmap
    obtain ⟨⟨i, s''⟩, hb, rfl⟩ := Option.map_eq_some_iff.mp hmap
    exact ⟨p, s'', _, .bread hb, rfl⟩
  have hbrelse : ∀ {i} {next : CommitPc},
      (s.releasesleep p i).map (fun s'' => s''.goto p next) = some s' →
      ∃ p s'' c, CommitEffect s p s'' ∧ s' = { s'' with commit := c } := by
    intro i next hmap
    obtain ⟨s'', hb, rfl⟩ := Option.map_eq_some_iff.mp hmap
    exact ⟨p, s'', _, .brelse hb, rfl⟩
  have hwrite : ∀ {i b data} {next : CommitPc}, Has s p i b →
      (s.bwrite p i data).map (fun s'' => s''.goto p next) = some s' →
      ∃ p s'' c, CommitEffect s p s'' ∧ s' = { s'' with commit := c } := by
    intro i b data next hhas hmap
    obtain ⟨s'', hb, rfl⟩ := Option.map_eq_some_iff.mp hmap
    obtain rfl := bwrite_some hb
    exact ⟨p, _, _, .write (hhas.held hidle), rfl⟩
  cases pc with
  | wlTo | itLog =>
    simp only at hs
    split at hs
    · exact hbread hs
    · cases hs
      exact ⟨p, s, _, .skip, rfl⟩
  | wlFrom | hdBread | itDst => exact hbread hs
  | wlCopy t i j => exact hwrite hpc.2.1 hs
  | hdWrite cleared i => exact hwrite hpc.2 hs
  | itCopy t i j => exact hwrite hpc.2.2 hs
  | wlRelFrom | wlRelTo | hdRel | itRelLog | itRelDst => exact hbrelse hs
  | itUnpin t i j =>
    cases hs
    exact ⟨p, _, _, .unpin, rfl⟩
  | clear =>
    cases hs
    exact ⟨p, { s with log := s.log.setN 0 }, _, .setLog rfl rfl, rfl⟩
  | done =>
    cases hs
    exact ⟨p, { s with log := s.log.endCommit }, _, .setLog rfl rfl, rfl⟩

/-- No statement of `commit` changes the abstract disk. -/
theorem frame_commit (h : SysInv s) (hs : s.commitStep = some s') : Frame s s' := by
  obtain ⟨p, s'', c, heffect, rfl⟩ := commitStep_effect h hs
  suffices hf : Frame s s'' from ⟨hf.abs, hf.area, hf.keys, hf.dirty, hf.data⟩
  cases heffect with
  | bread hs => exact frame_bread hs
  | brelse hs => exact frame_releasesleep hs
  | write hu =>
    -- nobody else holds the buffer
    have hunique := fun v (hv : v ∈ s.uses) hbuf hph => h.core.locks.unique hv hu hbuf hph rfl
    constructor <;> grind [set_buf, Phase.locks]
  | _ => constructor <;> grind [set_buf, BCache.bunpin, Log.InArea]

/-- The history after one more step: a change gives its block new contents. -/
def noteModify (s : Sys) (cur : Disk) : Act → Disk
  | .modify _ i data => Function.update cur (s.bc.buf i).blockno data
  | _ => cur

/-- The steps that are no change and no `log_write`. -/
theorem frame_step (h : SysInv s) (hs : Step s a s') (cur : Disk) :
    (Frame s s' ∧ noteModify s cur a = cur) ∨ (∃ p i data, a = .modify p i data) ∨
      ∃ p i, a = .logWrite p i := by
  cases hs with
  | @modify p i data => exact .inr (.inl ⟨p, i, data, rfl⟩)
  | @logWrite p i => exact .inr (.inr ⟨p, i, rfl⟩)
  | bread hs => exact .inl ⟨frame_bread hs, rfl⟩
  | brelse _ hs => exact .inl ⟨frame_releasesleep hs, rfl⟩
  | commit hs => exact .inl ⟨frame_commit h hs, rfl⟩
  | beginOp hlog =>
    obtain ⟨-, -, rfl⟩ := beginOp_some hlog
    exact .inl ⟨by constructor <;> grind [Log.InArea], rfl⟩
  | endOp _ hlog =>
    obtain ⟨-, -, rfl⟩ := endOp_ok hlog
    exact .inl ⟨by constructor <;> grind [Log.InArea], rfl⟩
  | @acquire p i =>
    have herase := erase_spec s.uses ⟨p, i, .waiting⟩
    exact .inl ⟨by constructor <;> grind [set_buf, Sys.move], rfl⟩
  | @fill p i =>
    -- a changed buffer is valid, and is not read again
    have hvalid := h.core.locks.heldValid
    have herase := erase_spec s.uses ⟨p, i, .reading⟩
    exact .inl ⟨by constructor <;> grind [set_buf, Sys.move, Phase.isHeld], rfl⟩
  | @unref p i =>
    have herase := erase_spec s.uses ⟨p, i, .releasing⟩
    exact .inl ⟨by constructor <;> grind [unref_buf, set_buf], rfl⟩

/-- A step recycles only a buffer without references. -/
theorem keys_step (h : SysInv s) (hs : Step s a s') (i : Fin NBUF) (hrc : 0 < (s.bc.buf i).refcnt) :
    (s'.bc.buf i).dev = (s.bc.buf i).dev ∧
      (s'.bc.buf i).blockno = (s.bc.buf i).blockno := by
  rcases frame_step h hs s.disk with ⟨hf, -⟩ | ⟨p, j, data, rfl⟩ | ⟨p, j, rfl⟩
  · exact hf.keys i hrc
  · cases hs
    grind [set_buf]
  · cases hs
    grind [set_buf, BCache.bpin]

/-! ### The history of the changes -/

/-- For every block the contents that the last change of the run gave it; `cur` where the
run does not change it. -/
def lastModified (s : Sys) (cur : Disk) : List Act → Disk
  | [] => cur
  | a :: acts =>
    match stepSys s a with
    | none => cur
    | some s' => lastModified s' (noteModify s cur a) acts

/-- No process holds block `b` with a change that it has not passed to `log_write`. -/
def NoUnlogged (s : Sys) (b : Nat) : Prop :=
  ∀ u ∈ s.uses, u.phase = .held true false → (s.bc.buf u.buf).blockno ≠ b

/-- The history `cur` and the abstract disk agree, except on blocks that are changed and not
logged; of those, the history is in the buffer. -/
structure Follows (s : Sys) (cur : Disk) : Prop where
  agree : ∀ b, ¬ s.log.InArea b → NoUnlogged s b → cur b = s.abs b
  dirty : ∀ u ∈ s.uses, u.phase = .held true false →
    (s.bc.buf u.buf).data = cur (s.bc.buf u.buf).blockno

section

variable (h : SysInv s) (hf : Follows s cur)
include h hf

/-- The history is the same after a step that changes no block. -/
theorem Follows.frame (hs : Frame s s') : Follows s' cur where
  agree := by
    intro b hb hno
    rw [hs.abs]
    refine hf.agree b (fun hc => hb ((hs.area b).mpr hc)) fun u hu hph => ?_
    rw [← (hs.keys _ (h.core.refcnt_pos hu)).2]
    exact hno u ((hs.dirty u hph).mpr hu) hph
  dirty := by
    intro u hu hph
    have hu' := (hs.dirty u hph).mp hu
    rw [hs.data u hu' hph, (hs.keys _ (h.core.refcnt_pos hu')).2]
    exact hf.dirty u hu' hph

/-- A change goes into the history at once, and into the abstract disk if the block is logged. -/
theorem Follows.modify {f : Bool × Bool} (hu : ⟨p, i, .held f.1 f.2⟩ ∈ s.uses) (data : Block) :
    Follows { s.move ⟨p, i, .held f.1 f.2⟩ (.held true f.2) with
      bc := s.bc.set i { s.bc.buf i with data := data }
      abs := if f.2 then update s.abs (s.bc.buf i).blockno data else s.abs }
      (update cur (s.bc.buf i).blockno data) := by
  have herase := erase_spec s.uses ⟨p, i, .held f.1 f.2⟩
  constructor
  · intro b hb hno
    have := hf.agree b
    have := hno ⟨p, i, .held true f.2⟩ mem_cons_self
    grind [set_buf, Sys.move, NoUnlogged]
  · have := hf.dirty
    have := h.core.keys.useDev
    have := fun j => h.core.keys.uniq j i
    grind [set_buf, Sys.move]

/-- The contents of a held block are those of the history. -/
theorem held_data {d l : Bool} (hu : ⟨p, i, .held d l⟩ ∈ s.uses)
    (hout : ¬ s.log.InArea (s.bc.buf i).blockno) :
    (s.bc.buf i).data = cur (s.bc.buf i).blockno := by
  by_cases hdl : (Phase.held d l) = .held true false
  · exact hf.dirty _ hu hdl
  · -- another holder with an unlogged change would hold the same lock
    have hnone : ∀ u ∈ s.uses, u.phase = .held true false → u.buf ≠ i := by
      intro u hu' hph hbuf
      have := h.core.locks.unique hu' hu hbuf (by rw [hph]; rfl) rfl
      rw [this] at hph
      exact hdl hph
    have hdev := h.core.keys.useDev _ hu
    rw [hf.agree _ hout fun u hu' hph heq => hnone u hu' hph
      (h.core.keys.uniq _ _ (h.core.keys.useDev u hu') hdev heq)]
    exact h.core.contents.clean i hdev (h.core.locks.heldValid _ hu rfl) hout
      fun u hu' hbuf hph => hnone u hu' hph hbuf

/-- `log_write` makes an earlier change of the block visible in the abstract disk. -/
theorem Follows.logWrite {f : Bool × Bool} {log : Log} {added : Bool}
    (hout : ¬ s.log.InArea (s.bc.buf i).blockno) (hu : ⟨p, i, .held f.1 f.2⟩ ∈ s.uses)
    (hlw : s.log.logWrite (s.bc.buf i).blockno = .ok (log, added)) :
    Follows { s.move ⟨p, i, .held f.1 f.2⟩ (.held f.1 true) with
      bc := if added then s.bc.bpin i else s.bc
      log := log
      abs := update s.abs (s.bc.buf i).blockno (s.bc.buf i).data } cur := by
  obtain ⟨-, hstart, hsize, -⟩ := logWrite_list hlw h.log.nonneg h.core.nodup
  have herase := erase_spec s.uses ⟨p, i, .held f.1 f.2⟩
  have hdata := held_data h hf hu hout
  constructor
  · have := hf.agree
    grind [set_buf, Sys.move, NoUnlogged, BCache.bpin, Log.InArea]
  · have := hf.dirty
    grind [set_buf, Sys.move, BCache.bpin]

/-- The history follows every step. -/
theorem follows_step (hs : Step s a s') : Follows s' (noteModify s cur a) := by
  rcases frame_step h hs cur with ⟨hframe, hcur⟩ | ⟨p, i, data, rfl⟩ | ⟨p, i, rfl⟩
  · exact hcur.symm ▸ hf.frame h hframe
  · cases hs with | modify hp hout hu => exact hf.modify h hu data
  · cases hs with | logWrite hp hout hu hlw => exact hf.logWrite h hout hu hlw

/-- The invariant and the history along a run. -/
theorem sysInv_run {acts : List Act} (hrun : runSys s acts = some s') :
    SysInv s' ∧ Follows s' (lastModified s cur acts) := by
  induction acts generalizing s cur with
  | nil =>
    cases hrun
    exact ⟨h, hf⟩
  | cons a acts ih =>
    obtain ⟨s₁, hstep, hrest⟩ := Option.bind_eq_some_iff.mp hrun
    have hs := stepSys_step hstep
    simp only [lastModified, hstep]
    exact ih (sysInv_step h hs) (follows_step h hf hs) hrest

end

/-! ### The refinement -/

/-- A recovered log and a cache that no one uses. -/
structure Recovered (s : Sys) : Prop where
  n : s.log.lh.n = 0
  size : 1 ≤ s.log.size
  outstanding : s.log.outstanding = 0
  committing : s.log.committing = false
  uses : s.uses = []
  active : s.active = []
  commit : s.commit = none
  lru : ∀ i, i ∈ s.bc.lru
  refcnt : ∀ i, (s.bc.buf i).refcnt = 0
  lock : ∀ i, (s.bc.buf i).lock = none
  uniq : ∀ i j, (s.bc.buf i).dev = s.log.dev → (s.bc.buf j).dev = s.log.dev →
    (s.bc.buf i).blockno = (s.bc.buf j).blockno → i = j
  data : ∀ i, (s.bc.buf i).dev = s.log.dev → (s.bc.buf i).valid = true →
    (s.bc.buf i).data = s.disk (s.bc.buf i).blockno
  abs : s.abs = s.disk

/-- The invariant holds after recovery. -/
theorem Recovered.sysInv (h : Recovered s) : SysInv s := by
  have hnil : lhList s.log = [] := by
    unfold lhList
    rw [h.n]
    rfl
  refine .of_core_none h.commit ⟨?_, ?_, ?_, ?_, ?_, ?_, Nat.le_refl 0, Nat.le_refl 0⟩ ?_
  · exact ⟨h.lru, h.uniq, by simp [h.uses]⟩
  · refine ⟨fun i => ?_, by simp [hnil]⟩
    simp [h.refcnt, h.uses, hnil, users, pins]
  · refine ⟨fun i => ?_, by simp [h.uses], by simp [h.uses]⟩
    simp [h.lock, h.uses, lockers]
  · refine ⟨?_, ?_, ?_, by simp [h.uses], by omega⟩
    · intro i hd hv _ _
      rw [h.abs]
      exact h.data i hd hv
    · exact fun i hd hv _ => h.data i hd hv
    · intro b _ _
      rw [h.abs]
  · rw [hnil]
    exact nodup_nil
  · simp [hnil]
  · have := h.size
    refine ⟨?_, ?_, ?_, by rw [h.n], by rw [h.n]; omega, fun _ _ => h.n⟩
    · rw [h.outstanding, h.active]
      rfl
    · rw [h.committing, h.commit]
      rfl
    · simp [h.commit]

theorem Recovered.follows (h : Recovered s) : Follows s s.disk where
  agree := by
    intro b _ _
    rw [h.abs]
  dirty := by simp [h.uses]

/-- `bread` returns the contents that the history gives its block; a block of the log area
is returned as it is on the disk. -/
theorem fill_returns (h : SysInv s) (hf : Follows s cur) (hstep : stepSys s (.fill p i) = some s') :
    (¬ s.log.InArea (s.bc.buf i).blockno →
      (s'.bc.buf i).data = cur (s.bc.buf i).blockno) ∧
    (s.log.InArea (s.bc.buf i).blockno →
      (s'.bc.buf i).data = s.disk (s.bc.buf i).blockno) := by
  have hs := stepSys_step hstep
  have h' := sysInv_step h hs
  have hf' := follows_step h hf hs
  cases hs with
  | fill hu =>
    have hbno := (keys_step h (.fill hu) i (h.core.refcnt_pos hu)).2
    have hheld : (⟨p, i, .held false false⟩ : Use)
        ∈ ⟨p, i, .held false false⟩ :: s.uses.erase ⟨p, i, .reading⟩ := mem_cons_self
    constructor
    · intro hout
      exact (held_data h' hf' hheld (by rwa [hbno])).trans (congrArg cur hbno)
    · intro harea
      refine Eq.trans (h'.core.contents.logClean i (h'.core.keys.useDev _ hheld)
        (h'.core.locks.heldValid _ hheld rfl) (by rwa [hbno])) (congrArg s.disk hbno)

/-- A step recycles a buffer only if no process uses it and its block does not wait to be
installed. -/
theorem recycle_only_installed (h : SysInv s) (hstep : stepSys s a = some s')
    (hchange : ¬ ((s'.bc.buf i).dev = (s.bc.buf i).dev ∧
      (s'.bc.buf i).blockno = (s.bc.buf i).blockno)) :
    (∀ u ∈ s.uses, u.buf ≠ i) ∧ ((s.bc.buf i).dev = s.log.dev →
      (s.bc.buf i).blockno ∈ lhList s.log →
      (s.bc.buf i).blockno ∉ (lhList s.log).drop (installed s) ∧
      s.disk (s.bc.buf i).blockno = s.abs (s.bc.buf i).blockno) := by
  have hz : (s.bc.buf i).refcnt = 0 := by
    by_contra hne
    exact hchange (keys_step h (stepSys_step hstep) i (Nat.pos_of_ne_zero hne))
  have hrc := h.core.refs.refcnt i
  refine ⟨users_eq_zero (by omega), fun hdev hmem => ?_⟩
  have hnot : (s.bc.buf i).blockno ∉ (lhList s.log).drop (installed s) := by
    intro hwait
    have hpin : pins (s.bc.buf i) s.log.dev ((lhList s.log).drop (unpinned s)) = 1 :=
      if_pos ⟨hdev, mem_drop_of_le h.core.unpinned_le hwait⟩
    omega
  exact ⟨hnot, h.core.contents.home _ (h.core.outside _ hmem) hnot⟩

/-- **The buffer cache and the log refine one disk.** In every state of every run from a
recovered log:

* `bread` finds a buffer of its block, and when it returns, the buffer has the contents that
  the last change of the block gave it, or those of the disk if there was none;
* no step takes a buffer from a process that uses it, nor one whose block is listed in
  `log.lh` and not yet written home;
* the reference count of a buffer is the number of its holders and waiters, plus one if its
  block is listed and `install_trans` has not unpinned it;
* when no operation is outstanding and no commit is in progress, every block outside the log
  area has its abstract contents on the disk. -/
theorem cache_log_refine_disk {s₀ s : Sys} {acts : List Act} (hstart : Recovered s₀)
    (hrun : runSys s₀ acts = some s) :
    (∀ p b s', stepSys s (.bread p b) = some s' → ∃ i, s'.uses = ⟨p, i, .waiting⟩ :: s.uses ∧
      (s'.bc.buf i).dev = s.log.dev ∧ (s'.bc.buf i).blockno = b) ∧
    (∀ p i s', stepSys s (.fill p i) = some s' →
      (¬ s.log.InArea (s.bc.buf i).blockno →
        (s'.bc.buf i).data = lastModified s₀ s₀.disk acts (s.bc.buf i).blockno) ∧
      (s.log.InArea (s.bc.buf i).blockno →
        (s'.bc.buf i).data = s.disk (s.bc.buf i).blockno)) ∧
    (∀ a s', stepSys s a = some s' → ∀ i, ¬ ((s'.bc.buf i).dev = (s.bc.buf i).dev ∧
        (s'.bc.buf i).blockno = (s.bc.buf i).blockno) →
      (∀ u ∈ s.uses, u.buf ≠ i) ∧ ((s.bc.buf i).dev = s.log.dev →
        (s.bc.buf i).blockno ∈ lhList s.log →
        (s.bc.buf i).blockno ∉ (lhList s.log).drop (installed s) ∧
        s.disk (s.bc.buf i).blockno = s.abs (s.bc.buf i).blockno)) ∧
    (∀ i, (s.bc.buf i).refcnt
      = users s.uses i + pins (s.bc.buf i) s.log.dev ((lhList s.log).drop (unpinned s))) ∧
    (s.log.outstanding = 0 → s.log.committing = false → ∀ b, ¬ s.log.InArea b →
      s.disk b = s.abs b ∧
      (NoUnlogged s b → s.disk b = lastModified s₀ s₀.disk acts b)) := by
  obtain ⟨h, hf⟩ := sysInv_run hstart.sysInv hstart.follows hrun
  refine ⟨?_, fun p i s' hstep => fill_returns h hf hstep,
    fun a s' hstep i => recycle_only_installed h hstep, h.core.refs.refcnt, ?_⟩
  · intro p b s' hstep
    have h' := sysInv_step h (stepSys_step hstep)
    cases stepSys_step hstep with
    | @bread _ _ i _ hs =>
      obtain ⟨-, hhas, -, hsame⟩ := startBread_spec h.core hs
      have hdev := hhas.dev h'.core
      rw [hsame.log] at hdev
      refine ⟨i, ?_, hdev, hhas.2⟩
      unfold Sys.startBread at hs
      obtain ⟨r, -, heq⟩ := Option.map_eq_some_iff.mp hs
      obtain ⟨rfl, rfl⟩ := Prod.mk.inj heq
      rfl
  · intro hout hcommitting b hb
    have hcommit := h.log.commit_none hcommitting
    have hactive : s.active = [] := by
      have := h.log.outstanding
      rw [hout] at this
      exact length_eq_zero_iff.mp (by omega)
    have hnil : lhList s.log = [] := by
      unfold lhList
      rw [h.log.empty hcommit hactive]
      rfl
    have hdisk := h.core.contents.home b hb (by rw [hnil, drop_nil]; exact not_mem_nil)
    exact ⟨hdisk, fun hno => hdisk.trans (hf.agree b hb hno).symm⟩

/-- A booted system with an empty disk: the log of `mkfs` at blocks 2 to 31, and the cache
of `binit`. -/
def bootedSys : Sys :=
  { disk := fun _ _ => 0
    bc := BCache.binit
    log := mkfsLog
    uses := []
    active := []
    commit := none
    abs := fun _ _ => 0 }

/-- The booted system is a recovered one. -/
theorem bootedSys_recovered : Recovered bootedSys where
  n := rfl
  size := by decide
  outstanding := rfl
  committing := rfl
  uses := rfl
  active := rfl
  commit := rfl
  lru := fun i => mem_reverse.mpr (mem_finRange i)
  refcnt := fun _ => rfl
  lock := fun _ => rfl
  uniq := fun _ _ h => absurd (show 0 = ROOTDEV from h) (by decide)
  data := fun _ h => absurd (show 0 = ROOTDEV from h) (by decide)
  abs := rfl

/-- The buffers that the runs below use, for block 100, a log block and the header block. -/
def dataBuf : Fin NBUF := ⟨0, by decide⟩
def logBuf : Fin NBUF := ⟨1, by decide⟩
def headBuf : Fin NBUF := ⟨2, by decide⟩

/-- Process 1 reads block 100, changes it, logs it and releases it. -/
def oneWrite : List Act :=
  [.beginOp 1, .bread 1 100, .acquire 1 dataBuf, .fill 1 dataBuf,
    .modify 1 dataBuf (fun _ => 7), .logWrite 1 dataBuf, .brelse 1 dataBuf, .unref 1 dataBuf]

/-- The operation ends, and its commit goes on until `install_trans` has unpinned the
block. -/
def untilUnpin : List Act :=
  [.endOp 1,
    -- write_log
    .commit, .acquire 1 logBuf, .fill 1 logBuf, .commit, .acquire 1 dataBuf, .fill 1 dataBuf,
    .commit, .commit, .unref 1 dataBuf, .commit, .unref 1 logBuf, .commit,
    -- write_head
    .commit, .acquire 1 headBuf, .fill 1 headBuf, .commit, .commit, .unref 1 headBuf,
    -- install_trans, up to bunpin
    .commit, .acquire 1 logBuf, .fill 1 logBuf, .commit, .acquire 1 dataBuf, .fill 1 dataBuf,
    .commit, .commit]

/-- The rest of the commit. -/
def untilDone : List Act :=
  [.commit, .unref 1 logBuf, .commit, .unref 1 dataBuf, .commit, .commit,
    .commit, .acquire 1 headBuf, .fill 1 headBuf, .commit, .commit, .unref 1 headBuf, .commit]

/-- After its commit the change is on the disk. -/
theorem cache_log_refine_disk_oneWrite :
    ∃ s, runSys bootedSys (oneWrite ++ untilUnpin ++ untilDone) = some s ∧
      s.disk 100 = fun _ => 7 := by
  have hend : (runSys bootedSys (oneWrite ++ untilUnpin ++ untilDone)).any (fun s =>
      s.log.outstanding == 0 && !s.log.committing && s.uses.isEmpty &&
        !decide (s.log.InArea 100)) = true := by decide +kernel
  obtain ⟨s, hrun, hs⟩ := (Option.any_eq_true _ _).mp hend
  simp only [Bool.and_eq_true, beq_iff_eq, Bool.not_eq_true', List.isEmpty_iff,
    decide_eq_false_iff_not] at hs
  obtain ⟨⟨⟨hout, hcommitting⟩, huses⟩, harea⟩ := hs
  refine ⟨s, hrun, ?_⟩
  refine Eq.trans (((cache_log_refine_disk bootedSys_recovered hrun).2.2.2.2 hout hcommitting
    100 harea).2 ?_) ?_
  · unfold NoUnlogged
    rw [huses]
    exact nofun
  · rfl

/-- Between `bunpin` and `log.lh.n = 0` a listed block has no pin. -/
theorem listed_block_unpinned :
    ∃ acts s, Recovered bootedSys ∧ runSys bootedSys acts = some s ∧
      (s.bc.buf dataBuf).dev = s.log.dev ∧ (s.bc.buf dataBuf).blockno ∈ lhList s.log ∧
      (s.bc.buf dataBuf).refcnt ≠ users s.uses dataBuf + 1 := by
  have hend : (runSys bootedSys (oneWrite ++ untilUnpin)).any (fun s =>
      decide ((s.bc.buf dataBuf).dev = s.log.dev ∧ (s.bc.buf dataBuf).blockno ∈ lhList s.log ∧
        (s.bc.buf dataBuf).refcnt ≠ users s.uses dataBuf + 1)) = true := by decide +kernel
  obtain ⟨s, hrun, hs⟩ := (Option.any_eq_true _ _).mp hend
  exact ⟨_, s, bootedSys_recovered, hrun, of_decide_eq_true hs⟩

end Xv6.Proofs
