import Xv6.Proofs.Bio.Refine
import Xv6.Proofs.Log.CrashAtomicity

/-!
# `Xv6.Proofs.Bio.Crash`: a crash between any two steps

The machine stops at some point of a run of the cache and the log. The buffers are lost, and
`recover_from_log` runs on the disk as it is, again and again if it is stopped as well. Before a
commit has written its header the disk holds the contents of the last commit. From then on, until
the header is cleared, the log holds the blocks that the disk may lack (`CrashInv`).
-/

set_option autoImplicit false

namespace Xv6

/-- The header on the disk may list a group at this statement. -/
def CommitPc.headed : CommitPc → Bool
  | .hdRel false _ | .itLog _ | .itDst _ _ | .itCopy _ _ _ | .itUnpin _ _ _ | .itRelLog _ _ _
  | .itRelDst _ _ | .clear | .hdBread true | .hdWrite true _ => true
  | _ => false

def Sys.headed (s : Sys) : Bool := s.commit.any fun c => c.2.headed

namespace Proofs

open Lib List
open Function (update update_of_ne update_self)

variable {boot : Log} {com d : Disk} {s s' : Sys} {b p : Nat} {pc : CommitPc} {i : Fin NBUF}

/-! ### What a recovery makes of a disk -/

/-- The blocks outside the log area hold `com`, or the log holds what they lack. -/
def Recoverable (boot : Log) (com d : Disk) : Prop :=
  Clean boot com d ∨
    ∃ lh, LoggedGroup { boot with lh := lh } ∧ Pending { boot with lh := lh } com com d

theorem Recoverable.clean (h : Recoverable boot com d) (hz : headN (d boot.start) = 0) :
    Clean boot com d := by
  refine h.resolve_right ?_
  rintro ⟨lh, -, hp⟩
  have hpos := hp.pos
  rw [← hp.count, show headN (d _) = 0 from hz] at hpos
  exact absurd hpos (by decide)

/-- A recovery that is stopped anywhere leaves a disk from which recovery is still possible, and one
that runs to its end leaves the blocks of the last commit. -/
theorem Recoverable.stopped (h : Recoverable boot com d) :
    (∀ k, Recoverable boot com ((recoverFromLog boot).crashAt k d)) ∧
      Clean boot com ((recoverFromLog boot).after d) := by
  rcases h with h | ⟨lh, hg, hp⟩
  · rw [WProg.after_eq_crashAt]
    simp only [clean_crash_recover h.1]
    exact ⟨fun _ => .inl h, h⟩
  · have hstart : boot.start = { boot with lh := lh }.start := rfl
    obtain ⟨hcrash, hend⟩ := pending_crash_recover hstart rfl hg hp
    have hsame : afterGroup { boot with lh := lh } com com = com := funext fun _ => ite_self _
    rw [hsame] at hcrash hend
    exact ⟨fun k => (hcrash k).symm.imp_right fun hp' => ⟨lh, hg, hp'⟩, hend⟩

/-- Writing to a block outside the log area what it held at the last commit. -/
theorem Recoverable.home (h : Recoverable boot com d) (hsize : 1 ≤ boot.size)
    (hb : ¬ boot.InArea b) : Recoverable boot com (update d b (com b)) := by
  have harea : ∀ b', boot.InArea b' → update d b (com b) b' = d b' := by
    refine fun b' hb' => update_of_ne ?_ _ _
    rintro rfl
    exact hb hb'
  have hhome : ∀ b', d b' = com b' → update d b (com b) b' = com b' := by
    intro b' hd
    by_cases heq : b' = b <;> simp [heq, hd]
  have hhead := harea boot.start ⟨Nat.le_refl _, by omega⟩
  rcases h with ⟨hn, hd⟩ | ⟨lh, hg, hp⟩
  · exact .inl ⟨by rw [hhead, hn], fun b' hb' => hhome b' (hd b' hb')⟩
  · refine .inr ⟨lh, hg, hp.pos, (congrArg headN hhead).trans hp.count,
      fun t ht => (congrArg (headBlock · t) hhead).trans (hp.entries t ht),
      fun t ht => (harea _ ?_).trans (hp.logged t ht),
      fun b' hb' hl => hhome b' (hp.others b' hb' hl)⟩
    have hfits := hg.fits
    dsimp only at hfits ht ⊢
    unfold Log.InArea
    omega

/-! ### The invariant -/

/-- The contents of the last commit, after a step. -/
def noteCommit (s : Sys) (com : Disk) : Act → Disk
  | .commit =>
    match s.commit with
    | some (_, .hdWrite false _) => s.abs
    | _ => com
  | _ => com

/-- The abstract disk when the run last wrote a header that lists a group, `com` if it never did.
No operation is outstanding then, so these are the changes of whole operations. -/
def lastCommitted (s : Sys) (com : Disk) : List Act → Disk
  | [] => com
  | a :: acts =>
    match stepSys s a with
    | none => com
    | some s' => lastCommitted s' (noteCommit s com a) acts

structure CrashInv (boot : Log) (s : Sys) (com : Disk) : Prop where
  fits : boot.size < 2 ^ 31 ∧ boot.start + boot.size ≤ 2 ^ 32
  start : s.log.start = boot.start
  size : s.log.size = boot.size
  disk : Recoverable boot com s.disk
  clear : s.headed = false → headN (s.disk boot.start) = 0
  abs : s.headed = true → ∀ b, ¬ boot.InArea b → s.abs b = com b
  /-- `blockno` is a `uint` -/
  small : ∀ i, (s.bc.buf i).blockno < 2 ^ 32

/-! ### The steps -/

section

variable (h : CrashInv boot s com)
include h

theorem CrashInv.area (b : Nat) : s.log.InArea b ↔ boot.InArea b := by
  unfold Log.InArea
  rw [h.start, h.size]

theorem CrashInv.set {x : Buf} (hdev : x.dev = (s.bc.buf i).dev)
    (hbno : x.blockno = (s.bc.buf i).blockno) (j : Fin NBUF) :
    ((s.bc.set i x).buf j).blockno < 2 ^ 32 :=
  ((sameKeys_set hdev hbno).blockno j).symm ▸ h.small j

theorem CrashInv.goto (hpc : s.headed = pc.headed) : CrashInv boot (s.goto p pc) com :=
  { h with clear := fun hc => h.clear (hpc.trans hc), abs := fun hc => h.abs (hpc.trans hc) }

/-- `bread` touches the cache only. -/
theorem CrashInv.bread (hs : s.startBread p b = some (i, s')) (hb : b < 2 ^ 32) :
    CrashInv boot s' com ∧ s'.headed = s.headed := by
  unfold Sys.startBread at hs
  obtain ⟨⟨i', bc'⟩, hget, heq⟩ := Option.map_eq_some_iff.mp hs
  obtain ⟨rfl, rfl⟩ := Prod.mk.inj heq
  refine ⟨{ h with small := fun j => ?_ }, rfl⟩
  rcases bget_cases hget with ⟨-, -, rfl⟩ | ⟨-, -, rfl⟩
  · exact h.set (by rfl) (by rfl) j
  · by_cases hj : j = i'
    · rw [hj, set_buf_self]
      exact hb
    · rw [set_buf_of_ne _ _ hj]
      exact h.small j

theorem CrashInv.releasesleep (hs : s.releasesleep p i = some s') :
    CrashInv boot s' com ∧ s'.headed = s.headed := by
  unfold Sys.releasesleep at hs
  obtain ⟨f, -, hs⟩ := Option.bind_eq_some_iff.mp hs
  rw [Option.ite_none_right_eq_some] at hs
  cases hs.2
  exact ⟨{ h with small := h.set rfl rfl }, rfl⟩

/-- A listed block that is still pinned is in the cache. -/
theorem CrashInv.block_lt {c k m t : Nat} (hcore : Core s c k m) (hm : m ≤ t)
    (ht : t < s.log.lh.n.toNat) : s.log.lh.block t < 2 ^ 32 := by
  have hmem : s.log.lh.block t ∈ (lhList s.log).drop m :=
    mem_drop_of_le hm (by rw [drop_lhList ht]; exact mem_cons_self)
  obtain ⟨i, -, hi, -⟩ := hcore.refs.pinValid _ hmem
  exact hi ▸ h.small i

variable (hinv : SysInv s)
include hinv

/-- The header is written. All blocks of the group are in the log. -/
theorem CrashInv.written (hcore : Core s s.log.lh.n.toNat 0 0) (buf : Block) :
    headN (putHead s.log.lh buf) = s.log.lh.n ∧
      Recoverable boot s.abs (update s.disk boot.start (putHead s.log.lh buf)) := by
  have hn := hinv.log.nonneg
  have hroom := hinv.log.room
  have hfits := h.fits
  rw [h.size] at hroom
  have hcount := headN_putHead buf hn (by omega)
  have hhome : ∀ b, ¬ boot.InArea b → b ∉ lhList s.log →
      update s.disk boot.start (putHead s.log.lh buf) b = s.abs b := by
    intro b hb hl
    rw [update_of_ne, hcore.contents.home b (mt (h.area b).mp hb) hl]
    rintro rfl
    exact hb ⟨Nat.le_refl _, by omega⟩
  refine ⟨hcount, ?_⟩
  by_cases hz : s.log.lh.n = 0
  · exact .inl ⟨by rw [update_self, hcount, hz], fun b hb => hhome b hb (by simp [lhList, hz])⟩
  · refine .inr ⟨s.log.lh, ⟨hroom, fun t ht => ?_, fun t t' ht ht' heq => ?_, fun t ht => ?_,
        hfits.1⟩,
      by dsimp only; omega, by rw [update_self, hcount], fun t ht => ?_, fun t ht => ?_,
      fun b hb hl => hhome b hb (mt mem_lhList.mp hl)⟩
    · exact mt (h.area _).mpr (hcore.outside _ (mem_lhList.mpr ⟨t, ht, rfl⟩))
    · exact inj_on_of_nodup_map hcore.nodup (mem_range.mpr ht) (mem_range.mpr ht') heq
    · exact h.block_lt hcore (Nat.zero_le t) ht
    · rw [update_self]
      exact headBlock_putHead buf ht (h.block_lt hcore (Nat.zero_le t) ht)
    · rw [update_of_ne (by dsimp only; omega)]
      exact h.start ▸ hcore.contents.copies t ht ht

/-- A statement of `commit`. The three that write are the copy to the log, while the header lists
nothing, the header, and the copy home of what the log holds. -/
theorem CrashInv.commit (hs : s.commitStep = some s') :
    CrashInv boot s' (noteCommit s com .commit) := by
  unfold Sys.commitStep at hs
  unfold noteCommit
  cases hcommit : s.commit with
  | none =>
    rw [hcommit] at hs
    cases hs
  | some c =>
  obtain ⟨p, pc⟩ := c
  have hpc := hinv.pc p pc hcommit
  have hhead : s.headed = pc.headed := by simp [Sys.headed, hcommit]
  have hcore := hinv.core
  have hroom := hinv.log.room
  have hn := hinv.log.nonneg
  have hfits := h.fits
  rw [h.size] at hroom
  simp only [copied, installed, unpinned, commitCount, hcommit] at hcore
  rw [hcommit] at hs
  simp only [Option.ite_none_right_eq_some] at hs
  obtain ⟨hidle, hs⟩ := hs
  have hbread : ∀ {b} {next : Fin NBUF → CommitPc},
      (s.startBread p b).map (fun r => r.2.goto p (next r.1)) = some s' → b < 2 ^ 32 →
      (∀ i, (next i).headed = pc.headed) → CrashInv boot s' com := by
    intro b next hmap hb hnext
    obtain ⟨⟨i, s''⟩, hr, rfl⟩ := Option.map_eq_some_iff.mp hmap
    obtain ⟨h', hh⟩ := h.bread hr hb
    exact h'.goto (by rw [hh, hhead, hnext])
  have hbrelse : ∀ {i} {next : CommitPc},
      (s.releasesleep p i).map (fun s'' => s''.goto p next) = some s' →
      next.headed = pc.headed → CrashInv boot s' com := by
    intro i next hmap hnext
    obtain ⟨s'', hr, rfl⟩ := Option.map_eq_some_iff.mp hmap
    obtain ⟨h', hh⟩ := h.releasesleep hr
    exact h'.goto (by rw [hh, hhead, hnext])
  have hbwrite : ∀ {i b data com'} {next : CommitPc},
      (s.bwrite p i data).map (fun s'' => s''.goto p next) = some s' → Has s p i b →
      Recoverable boot com' (update s.disk b data) →
      (next.headed = false → headN (update s.disk b data boot.start) = 0) →
      (next.headed = true → ∀ b, ¬ boot.InArea b → s.abs b = com' b) →
      CrashInv boot s' com' := by
    intro i b data com' next hmap hhas hdisk hclear habs
    obtain ⟨s'', hr, rfl⟩ := Option.map_eq_some_iff.mp hmap
    obtain rfl := bwrite_some hr
    rw [← hhas.2] at hdisk hclear
    exact { h with disk := hdisk, clear := hclear, abs := habs, small := h.set rfl rfl }
  cases pc with
  | wlTo t | itLog t =>
    simp only at hs
    split at hs
    · exact hbread hs (by rw [h.start]; omega) fun _ => rfl
    · cases hs
      exact h.goto hhead
  | wlFrom t i => exact hbread hs (h.block_lt hcore (Nat.zero_le t) hpc.1) fun _ => rfl
  | itDst t i => exact hbread hs (h.block_lt hcore (Nat.le_refl t) hpc.1) fun _ => rfl
  | hdBread cleared => exact hbread hs (by rw [h.start]; omega) fun i => by cases cleared <;> rfl
  | wlCopy t i j =>
    have hclean := h.disk.clean (h.clear hhead)
    have hzero : ∀ data, headN (update s.disk (s.log.start + t + 1) data boot.start) = 0 := by
      intro data
      rw [update_of_ne (by rw [h.start]; omega), hclean.1]
    refine hbwrite hs hpc.2.1 (.inl ⟨hzero _, fun b hb => ?_⟩) (fun _ => hzero _)
      fun hc => by cases hc
    rw [update_of_ne, hclean.2 b hb]
    rintro rfl
    exact hb ((h.area _).mp (hinv.log.inArea hpc.1))
  | hdWrite cleared i =>
    have hhas := hpc.2
    rw [h.start] at hhas
    obtain ⟨hcount, hdisk⟩ := h.written hinv hcore (s.bc.buf i).data
    cases cleared with
    | false => exact hbwrite hs hhas hdisk (fun hc => by cases hc) fun _ _ _ => rfl
    | true =>
      -- the group is installed
      rw [hpc.1 rfl] at hcount
      have hclean := hdisk.clean (by rw [update_self, hcount])
      have hcom := fun b hb => (hclean.2 b hb).trans (h.abs hhead b hb)
      exact hbwrite hs hhas (.inl ⟨hclean.1, hcom⟩) (fun _ => hclean.1) fun hc => by cases hc
  | itCopy t i j =>
    have hhome := mt (h.area _).mpr (hcore.outside _ (mem_lhList.mpr ⟨t, hpc.1, rfl⟩))
    have hdata : (s.bc.buf i).data = com (s.log.lh.block t) := by
      rw [data_eq_disk hcore hpc.2.1 hidle (hinv.log.inArea hpc.1),
        hcore.contents.copies t hpc.1 hpc.1, h.abs hhead _ hhome]
    refine hbwrite hs hpc.2.2 ?_ (fun hc => by cases hc) fun _ => h.abs hhead
    rw [hdata]
    exact h.disk.home (by omega) hhome
  | hdRel cleared i => exact hbrelse hs (by cases cleared <;> rfl)
  | wlRelFrom | wlRelTo | itRelLog | itRelDst => exact hbrelse hs rfl
  | itUnpin | clear | done =>
    cases hs
    refine { h with
      clear := fun hc => h.clear (hhead.trans hc)
      abs := fun hc => h.abs (hhead.trans hc)
      small := ?_ }
    first | exact h.small | exact h.set rfl rfl

end

/-- While the header lists a group nobody has a logged buffer, and no operation is outstanding. -/
theorem SysInv.quiet (h : SysInv s) (hhead : s.headed = true) :
    (∀ u ∈ s.uses, ∀ dirty, u.phase ≠ .held dirty true) ∧ s.log.outstanding = 0 := by
  obtain ⟨⟨p, pc⟩, hcommit, hpc⟩ := (Option.any_eq_true _ _).mp hhead
  have hcopied : copied s = s.log.lh.n.toNat := by
    simp only [copied, commitCount, hcommit]
    cases pc <;> first | rfl | cases hpc
  refine ⟨fun u hu dirty hph => ?_, ?_⟩
  · have hmem := h.core.contents.logged u hu dirty hph
    rw [hcopied, drop_eq_nil_of_le (by rw [length_lhList])] at hmem
    cases hmem
  · rw [h.log.outstanding, h.log.quiet (by rw [hcommit]; rfl)]
    rfl

/-- Every step keeps the invariant. The header write of a commit is where the contents of the last
commit change. -/
theorem CrashInv.step (h : CrashInv boot s com) (hinv : SysInv s) {a : Act} (hs : Step s a s')
    (hread : ∀ p b, a = .bread p b → b < 2 ^ 32) : CrashInv boot s' (noteCommit s com a) := by
  cases hs with
  | bread hs => exact (h.bread hs (hread _ _ rfl)).1
  | brelse _ hs => exact (h.releasesleep hs).1
  | commit hs => exact h.commit hinv hs
  | @modify p i data f _ _ hu =>
    refine { h with abs := fun hhead b hb => .trans ?_ (h.abs hhead b hb), small := h.set rfl rfl }
    refine congrFun (if_neg fun hf => ?_) b
    exact (hinv.quiet hhead).1 _ hu f.1 (by rw [hf])
  | @logWrite p i f log added _ _ _ hlw =>
    obtain ⟨-, hstart, hlen, -⟩ := logWrite_list hlw hinv.log.nonneg hinv.core.nodup
    refine ⟨h.fits, hstart.trans h.start, hlen.trans h.size, h.disk, h.clear, fun hhead => ?_, ?_⟩
    · rw [Log.logWrite, (hinv.quiet hhead).2] at hlw
      split at hlw <;> cases hlw
    · cases added
      · exact h.small
      · exact h.set rfl rfl
  | beginOp hlog =>
    obtain ⟨-, -, rfl⟩ := beginOp_some hlog
    exact { h with }
  | @endOp p log doCommit _ hlog =>
    obtain ⟨hfree, -, rfl⟩ := endOp_ok hlog
    have hnone := hinv.log.commit_none hfree
    have hclear := h.clear (by simp [Sys.headed, hnone])
    refine { h with clear := fun _ => hclear, abs := fun hhead => ?_ }
    simp only [Sys.headed, hnone] at hhead
    cases doCommit
    · cases hhead
    · by_cases hpos : s.log.lh.n > 0 <;> simp [hpos, CommitPc.headed] at hhead
  | acquire => exact { h with small := h.set rfl rfl }
  | fill => exact { h with small := h.set (by split <;> rfl) (by split <;> rfl) }
  | unref => exact { h with small := fun j => (unref_field Buf.blockno rfl j).symm ▸ h.small j }

/-- The invariant along a run. -/
theorem CrashInv.run (h : CrashInv boot s com) (hinv : SysInv s) {acts : List Act}
    (hreads : ∀ p b, .bread p b ∈ acts → b < 2 ^ 32) (hrun : runSys s acts = some s') :
    CrashInv boot s' (lastCommitted s com acts) := by
  induction acts generalizing s com with
  | nil =>
    cases hrun
    exact h
  | cons a acts ih =>
    obtain ⟨s₁, hstep, hrest⟩ := Option.bind_eq_some_iff.mp hrun
    have hs := stepSys_step hstep
    simp only [lastCommitted, hstep]
    refine ih (h.step hinv hs fun p b heq => ?_) (sysInv_step hinv hs)
      (fun p b hmem => hreads p b (mem_cons_of_mem a hmem)) hrest
    exact hreads p b (heq ▸ mem_cons_self)

/-- The machine crashes after any step of any run. Recovery, stopped any number of times before it
runs to its end, leaves the blocks outside the log area as they were at the last commit. If no
operation is outstanding and no commit is under way, that is as the last change of the run left
them. -/
theorem crash_after_any_step {s₀ : Sys} {acts : List Act} (hstart : Recovered s₀)
    (hclear : headN (s₀.disk s₀.log.start) = 0)
    (hfits : s₀.log.size < 2 ^ 31 ∧ s₀.log.start + s₀.log.size ≤ 2 ^ 32)
    (hsmall : ∀ i, (s₀.bc.buf i).blockno < 2 ^ 32)
    (hreads : ∀ p b, .bread p b ∈ acts → b < 2 ^ 32) (hrun : runSys s₀ acts = some s)
    (ks : List Nat) (hd : d = (recoverFromLog s₀.log).after
      ((recoverFromLog s₀.log).crashes ks s.disk)) :
    headN (d s₀.log.start) = 0 ∧
    (∀ b, ¬ s₀.log.InArea b → d b = lastCommitted s₀ s₀.disk acts b) ∧
    (s.active = [] → s.commit = none → ∀ b, ¬ s₀.log.InArea b → NoUnlogged s b →
      d b = lastModified s₀ s₀.disk acts b) := by
  have hboot : CrashInv s₀.log s₀ s₀.disk := by
    refine ⟨hfits, rfl, rfl, .inl ⟨hclear, fun _ _ => rfl⟩, fun _ => hclear, ?_, hsmall⟩
    simp [Sys.headed, hstart.commit]
  have h := hboot.run hstart.sysInv hreads hrun
  obtain ⟨hinv, hfollows⟩ := sysInv_run hstart.sysInv hstart.follows hrun
  have hdisk := WProg.crashes_induction (fun _ hd => hd.stopped.1) ks _ h.disk
  obtain ⟨hzero, hcom⟩ := hd ▸ hdisk.stopped.2
  refine ⟨hzero, hcom, fun hactive hcommit b hb hno => ?_⟩
  -- the log is empty, so the disk has the abstract contents, and recovery leaves it alone
  have hb' := mt (h.area b).mp hb
  have hempty := hinv.log.empty hcommit hactive
  have hhome := (hinv.core_none hcommit).contents.home b hb' (by simp [lhList, hempty])
  have hclean := h.disk.clean (h.clear (by simp [Sys.headed, hcommit]))
  rw [hfollows.agree b hb' hno, ← hhome, hcom b hb, hclean.2 b hb]

/-- A crash while the group is being installed. -/
theorem crash_after_any_step_install : ∃ s,
    runSys bootedSys (oneWrite ++ untilUnpin) = some s ∧ s.commit ≠ none ∧
      (recoverFromLog mkfsLog).after ((recoverFromLog mkfsLog).crashes [1] s.disk) 100
        = fun _ => 7 := by
  have hend : (runSys bootedSys (oneWrite ++ untilUnpin)).any (·.commit.isSome) = true := by
    decide +kernel
  obtain ⟨s, hrun, hs⟩ := (Option.any_eq_true _ _).mp hend
  have hreads : ∀ p b, .bread p b ∈ oneWrite ++ untilUnpin → b < 2 ^ 32 := by
    simp [oneWrite, untilUnpin]
  obtain ⟨-, hcom, -⟩ := crash_after_any_step bootedSys_recovered rfl (by decide)
    (fun _ => Nat.two_pow_pos 32) hreads hrun [1] rfl
  exact ⟨s, hrun, Option.isSome_iff_ne_none.mp hs, (hcom 100 (by decide)).trans rfl⟩

end Proofs

end Xv6
