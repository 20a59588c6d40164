import Xv6.Proofs.Bio.Commit

/-!
# `Xv6.Proofs.Bio.Run`: the invariant along a run

`Step` lists what a step of the system can do, with its guards, and `sysInv_step` carries
the invariant of `Xv6.Proofs.Bio.Inv` through it.
-/

set_option autoImplicit false

namespace Xv6.Proofs

variable {p : Nat} {s s' : Sys}

/-! ### What a step can do -/

/-- The steps of the system, with their guards. -/
inductive Step (s : Sys) : Act → Sys → Prop
  | bread {p b : Nat} {i : Fin NBUF} {s' : Sys} (hs : s.startBread p b = some (i, s')) :
      Step s (.bread p b) s'
  | modify {p : Nat} {i : Fin NBUF} {data : Block} {f : Bool × Bool}
      (hp : s.caller p = true) (hout : ¬ s.log.InArea (s.bc.buf i).blockno)
      (hu : ⟨p, i, .held f.1 f.2⟩ ∈ s.uses) :
      Step s (.modify p i data) { s.move ⟨p, i, .held f.1 f.2⟩ (.held true f.2) with
        bc := s.bc.set i { s.bc.buf i with data := data }
        abs := if f.2 then Function.update s.abs (s.bc.buf i).blockno data else s.abs }
  | logWrite {p : Nat} {i : Fin NBUF} {f : Bool × Bool} {log : Log} {added : Bool}
      (hp : s.caller p = true) (hout : ¬ s.log.InArea (s.bc.buf i).blockno)
      (hu : ⟨p, i, .held f.1 f.2⟩ ∈ s.uses)
      (hlw : s.log.logWrite (s.bc.buf i).blockno = .ok (log, added)) :
      Step s (.logWrite p i) { s.move ⟨p, i, .held f.1 f.2⟩ (.held f.1 true) with
        bc := if added then s.bc.bpin i else s.bc
        log := log
        abs := Function.update s.abs (s.bc.buf i).blockno (s.bc.buf i).data }
  | brelse {p : Nat} {i : Fin NBUF} {s' : Sys} (hp : s.caller p = true)
      (hs : s.releasesleep p i = some s') : Step s (.brelse p i) s'
  | beginOp {p : Nat} {log : Log} (hlog : s.log.beginOp = some log) :
      Step s (.beginOp p) { s with log := log, active := p :: s.active }
  | endOp {p : Nat} {log : Log} {doCommit : Bool} (hp : p ∈ s.active)
      (hlog : s.log.endOp = .ok (log, doCommit)) :
      Step s (.endOp p) { s with
        log := log
        active := s.active.erase p
        commit :=
          if doCommit then some (p, if log.lh.n > 0 then .wlTo 0 else .done) else s.commit }
  | acquire {p : Nat} {i : Fin NBUF} (hu : ⟨p, i, .waiting⟩ ∈ s.uses)
      (hfree : (s.bc.buf i).lock = none) :
      Step s (.acquire p i) { s.move ⟨p, i, .waiting⟩ .reading with
        bc := s.bc.set i { s.bc.buf i with lock := some p } }
  | fill {p : Nat} {i : Fin NBUF} (hu : ⟨p, i, .reading⟩ ∈ s.uses) :
      Step s (.fill p i) { s.move ⟨p, i, .reading⟩ (.held false false) with
        bc := s.bc.set i (if (s.bc.buf i).valid then s.bc.buf i
          else { s.bc.buf i with data := s.disk (s.bc.buf i).blockno, valid := true }) }
  | unref {p : Nat} {i : Fin NBUF} (hu : ⟨p, i, .releasing⟩ ∈ s.uses) :
      Step s (.unref p i) { s with
        bc := s.bc.unref i, uses := s.uses.erase ⟨p, i, .releasing⟩ }
  | commit {s' : Sys} (hs : s.commitStep = some s') : Step s .commit s'

/-- A step that is possible is one of the listed ones. -/
theorem stepSys_step {a : Act} (h : stepSys s a = some s') : Step s a s' := by
  cases a with
  | bread p b =>
    simp only [stepSys, Option.ite_none_right_eq_some] at h
    obtain ⟨⟨i, s''⟩, hs, rfl⟩ := Option.map_eq_some_iff.mp h.2
    exact .bread hs
  | modify p i data =>
    simp only [stepSys, Sys.modify, Option.ite_none_right_eq_some,
      Option.ite_none_left_eq_some] at h
    obtain ⟨hp, hout, h⟩ := h
    obtain ⟨f, hf, rfl⟩ := Option.map_eq_some_iff.mp h
    exact .modify hp hout (heldBy_mem hf)
  | logWrite p i =>
    simp only [stepSys, Sys.logWrite, Option.ite_none_right_eq_some,
      Option.ite_none_left_eq_some] at h
    obtain ⟨hp, hout, h⟩ := h
    obtain ⟨f, hf, h⟩ := Option.bind_eq_some_iff.mp h
    split at h
    · cases h
    · rename_i hlw
      cases h
      exact .logWrite hp hout (heldBy_mem hf) hlw
  | brelse p i =>
    simp only [stepSys, Option.ite_none_right_eq_some] at h
    exact .brelse h.1 h.2
  | beginOp p =>
    simp only [stepSys, Sys.beginOp, Option.ite_none_right_eq_some,
      Option.ite_none_left_eq_some] at h
    obtain ⟨log, hlog, rfl⟩ := Option.map_eq_some_iff.mp h.2.2
    exact .beginOp hlog
  | endOp p =>
    simp only [stepSys, Sys.endOp, Option.ite_none_right_eq_some] at h
    obtain ⟨-, hp, h⟩ := h
    split at h
    · cases h
    · rename_i hlog
      cases h
      exact .endOp hp hlog
  | acquire p i =>
    simp only [stepSys, Sys.acquire, Option.ite_none_right_eq_some] at h
    obtain ⟨⟨hu, hfree⟩, h⟩ := h
    cases h
    exact .acquire hu hfree
  | fill p i =>
    simp only [stepSys, Sys.fill, Option.ite_none_right_eq_some] at h
    obtain ⟨hu, h⟩ := h
    cases h
    exact .fill hu
  | unref p i =>
    simp only [stepSys, Sys.unref, Option.ite_none_right_eq_some] at h
    obtain ⟨hu, h⟩ := h
    cases h
    exact .unref hu
  | commit => exact .commit h

/-! ### The invariant along a run -/

/-- A step that leaves the log alone. -/
theorem SysInv.of_core (h : SysInv s) (hs : SameLog s s')
    (hcore : Core s' (copied s) (installed s) (unpinned s))
    (hhas : ∀ p pc, s.commit = some (p, pc) → ∀ i b, Has s p i b → Has s' p i b) : SysInv s' where
  core := by
    unfold copied installed unpinned commitCount at hcore ⊢
    rw [hs.commit, hs.log]
    exact hcore
  log := h.log.congr hs
  pc := by
    intro p pc hcommit
    rw [hs.commit] at hcommit
    exact (h.pc p pc hcommit).congr hs.log (hhas p pc hcommit)

/-- The caller of a function is not the process inside `commit`. -/
theorem caller_ne {q : Nat} {pc : CommitPc} (hp : s.caller p = true)
    (hcommit : s.commit = some (q, pc)) : p ≠ q := by
  rintro rfl
  simp [Sys.caller, hcommit] at hp

/-- Outside a commit the three counts are 0. -/
theorem SysInv.core_none (h : SysInv s) (hcommit : s.commit = none) : Core s 0 0 0 := by
  have := h.core
  simpa only [copied, installed, unpinned, commitCount, hcommit] using this

theorem SysInv.of_core_none (hcommit : s.commit = none) (hcore : Core s 0 0 0) (hlog : LogOk s) :
    SysInv s where
  core := by simpa only [copied, installed, unpinned, commitCount, hcommit] using hcore
  log := hlog
  pc := by
    intro p pc heq
    rw [hcommit] at heq
    cases heq

/-- While an operation is outstanding no commit is in progress. -/
theorem LogOk.commit_none (h : LogOk s) (hne : s.log.committing = false) : s.commit = none := by
  have := h.committing
  rw [hne] at this
  exact Option.isSome_eq_false_iff.mp this.symm |> Option.isNone_iff_eq_none.mp

/-- `log_write` adds the block to the list and pins its buffer, if it is not there yet. -/
theorem sysInv_logWrite (h : SysInv s) {i : Fin NBUF} {f : Bool × Bool} {log : Log} {added : Bool}
    (hout : ¬ s.log.InArea (s.bc.buf i).blockno) (hu : ⟨p, i, .held f.1 f.2⟩ ∈ s.uses)
    (hlw : s.log.logWrite (s.bc.buf i).blockno = .ok (log, added)) :
    SysInv { s.move ⟨p, i, .held f.1 f.2⟩ (.held f.1 true) with
      bc := if added then s.bc.bpin i else s.bc
      log := log
      abs := Function.update s.abs (s.bc.buf i).blockno (s.bc.buf i).data } := by
  have hactive : s.active ≠ [] := by
    intro hnil
    have := h.log.outstanding
    have := logWrite_outstanding hlw
    simp only [hnil, List.length_nil] at *
    omega
  have hcommit : s.commit = none := by
    by_contra hne
    exact hactive (h.log.quiet (Option.isSome_iff_ne_none.mpr hne))
  refine .of_core_none hcommit
    (core_logWrite (h.core_none hcommit) hu hout h.log.nonneg hlw) ?_
  have hroom := h.log.room
  have hn := h.log.nonneg
  obtain ⟨hlt, ⟨-, -, rfl⟩ | ⟨-, -, rfl⟩⟩ := logWrite_ok hlw h.log.nonneg
  · exact ⟨h.log.outstanding, h.log.committing, h.log.quiet, hn, hroom, h.log.empty⟩
  · refine ⟨h.log.outstanding, h.log.committing, h.log.quiet, ?_, ?_, ?_⟩
    · show 0 ≤ s.log.lh.n + 1
      omega
    · show s.log.lh.n + 1 ≤ s.log.size - 1
      omega
    · exact fun _ hnil => absurd hnil hactive

/-- The last operation to end starts the commit. -/
theorem sysInv_endOp (h : SysInv s) {log : Log} {doCommit : Bool} (hp : p ∈ s.active)
    (hlog : s.log.endOp = .ok (log, doCommit)) :
    SysInv { s with
      log := log
      active := s.active.erase p
      commit :=
        if doCommit then some (p, if log.lh.n > 0 then .wlTo 0 else .done) else s.commit } := by
  obtain ⟨hfree, hdo, rfl⟩ := endOp_ok hlog
  have hcommit := h.log.commit_none hfree
  have hcore := h.core_none hcommit
  have hn := h.log.nonneg
  have hlen : s.log.outstanding - 1 = ((s.active.erase p).length : Int) := by
    have hout := h.log.outstanding
    have := List.length_erase_of_mem hp
    have := List.length_pos_of_mem hp
    omega
  have hlast : doCommit = true ↔ s.active.erase p = [] := by
    rw [hdo, decide_eq_true_iff, hlen, ← List.length_eq_zero_iff]
    omega
  cases doCommit with
  | false =>
    refine .of_core_none hcommit { hcore with contents := { hcore.contents with } }
      ⟨hlen, ?_, ?_, hn, h.log.room, ?_⟩
    · show false = s.commit.isSome
      rw [hcommit]
      rfl
    · show s.commit.isSome = true → _
      rw [hcommit]
      exact nofun
    · intro _ hnil
      have := hlast.mpr hnil
      cases this
  | true =>
    have hlog : ∀ pc, LogOk { s with
        log := { s.log with outstanding := s.log.outstanding - 1, committing := true }
        active := s.active.erase p, commit := some (p, pc) } :=
      fun _ => ⟨hlen, rfl, fun _ => hlast.mp rfl, hn, h.log.room, nofun⟩
    have hcore' : ∀ pc, Core { s with
        log := { s.log with outstanding := s.log.outstanding - 1, committing := true }
        active := s.active.erase p, commit := some (p, pc) } 0 0 0 :=
      fun _ => { hcore with contents := { hcore.contents with } }
    by_cases hpos : s.log.lh.n > 0
    · simp only [if_true, if_pos hpos]
      refine ⟨hcore' _, hlog _, ?_⟩
      intro q pc heq
      cases heq
      exact Nat.zero_le _
    · have hz : s.log.lh.n = 0 := by omega
      simp only [if_true, if_neg hpos]
      refine ⟨?_, hlog _, ?_⟩
      · simp only [copied, installed, unpinned, commitCount, CommitPc.copied, hz]
        exact hcore' _
      · intro q pc heq
        cases heq
        exact hz

/-- Every step keeps the invariant. -/
theorem sysInv_step {a : Act} (h : SysInv s) (hs : Step s a s') : SysInv s' := by
  cases hs with
  | bread hs =>
    obtain ⟨hcore, -, hkeep, hsame⟩ := startBread_spec h.core hs
    exact h.of_core hsame hcore fun p _ _ => hkeep p
  | @modify p i data f hp hout hu =>
    refine h.of_core ⟨rfl, rfl, rfl⟩ (core_modify h.core hu hout data) ?_
    intro q pc hcommit j b hhas
    have hk : SameKeys s.bc (s.bc.set i { s.bc.buf i with data := data }) := sameKeys_set rfl rfl
    exact ⟨(hhas.1.erase (Or.inl (caller_ne hp hcommit))).cons _, (hk.blockno j).trans hhas.2⟩
  | logWrite hp hout hu hlw => exact sysInv_logWrite h hout hu hlw
  | brelse hp hs =>
    obtain ⟨hcore, hkeep, hsame⟩ := releasesleep_spec h.core hs
    exact h.of_core hsame hcore fun q _ hcommit i b =>
      hkeep q i b (Or.inl (Ne.symm (caller_ne hp hcommit)))
  | beginOp hlog =>
    obtain ⟨hfree, -, rfl⟩ := beginOp_some hlog
    have hcommit := h.log.commit_none hfree
    have hcore := h.core_none hcommit
    refine .of_core_none hcommit { hcore with contents := { hcore.contents with } } ?_
    refine ⟨?_, h.log.committing, ?_, h.log.nonneg, h.log.room, nofun⟩
    · have := h.log.outstanding
      simp only [List.length_cons]
      push_cast
      omega
    · rw [hcommit]
      exact nofun
  | endOp hp hlog => exact sysInv_endOp h hp hlog
  | @acquire p i hu hfree =>
    refine h.of_core ⟨rfl, rfl, rfl⟩ (core_acquire h.core hu hfree) ?_
    intro q pc hcommit j b hhas
    have hk : SameKeys s.bc (s.bc.set i { s.bc.buf i with lock := some p }) :=
      sameKeys_set rfl rfl
    exact ⟨hhas.1.advance (Or.inl rfl), (hk.blockno j).trans hhas.2⟩
  | @fill p i hu =>
    refine h.of_core ⟨rfl, rfl, rfl⟩ (core_fill h.core hu rfl) ?_
    intro q pc hcommit j b hhas
    refine ⟨hhas.1.advance (Or.inr rfl), Eq.trans (set_field Buf.blockno s.bc i _ ?_ j) hhas.2⟩
    split <;> rfl
  | @unref p i hu =>
    refine h.of_core ⟨rfl, rfl, rfl⟩ (core_unref h.core hu) ?_
    intro q pc hcommit j b hhas
    refine ⟨hhas.1.erase (Or.inr (Or.inr rfl)), ?_⟩
    exact (unref_field Buf.blockno rfl j).trans hhas.2
  | commit hs => exact commitStep_inv h hs

end Xv6.Proofs
