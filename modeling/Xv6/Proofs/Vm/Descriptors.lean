import Xv6.Proofs.Vm.Files
import Xv6.Proofs.Vm.UserMemory

/-!
# `Xv6.Proofs.Vm.Descriptors`: the calls on descriptors

`sys_dup`, `sys_close`, `sys_open` and `sys_pipe` keep `Inv`, on all their exits. The reference
counts and the numbers of descriptors are out of step inside a call: `sys_dup` takes a descriptor
before it counts it, and a new file is counted before it has one. Each proof adds up what the
steps did to both.
-/

set_option autoImplicit false

namespace Xv6.Proofs

open Lib List
open Function (update update_comm update_eq_self update_idem update_of_ne update_self)

section Descriptors

variable {s : Os} {G : Ghost} {p : Slot}

theorem FdStep.refl (h : OsInv s G) (p : Slot) : FdStep s G p s G :=
  ⟨h, rfl, fun _ => rfl, fun _ _ => rfl⟩

theorem FdStep.trans {s₁ s₂ : Os} {G₁ G₂ : Ghost} (h₁ : FdStep s G p s₁ G₁)
    (h₂ : FdStep s₁ G₁ p s₂ G₂) : FdStep s G p s₂ G₂ :=
  ⟨h₂.inv, by rw [h₂.ghost, h₁.ghost], fun i => (h₂.state i).trans (h₁.state i),
    fun i hi => (h₂.other i hi).trans (h₁.other i hi)⟩

theorem FileStep.fdStep {s' : Os} {G' : Ghost} (h : FileStep s G s' G') (p : Slot) :
    FdStep s G p s' G' :=
  ⟨h.inv, h.ghost, fun i => by rw [h.proc], fun i _ => by rw [h.proc]⟩

theorem fdStep_setFd (h : OsInv s G) (p : Slot) (fd : Fin NOFILE) (v : Option FileId) :
    FdStep s G p { s with proc := setFd s.proc p fd v } G := by
  refine ⟨h.setProc rfl rfl rfl, rfl, fun i => setFd_state _ _ _ _ _, fun i hi => ?_⟩
  show (Function.update s.proc p _ i).ofile = _
  rw [Function.update_of_ne hi]

theorem clearFd_run (s : Os) (p : Slot) (fd : Fin NOFILE) :
    (clearFd p fd).run s = .ok ((), { s with proc := setFd s.proc p fd none }) := rfl

/-- `fdalloc` takes a free descriptor, if there is one. -/
theorem fdalloc_run (s : Os) (p : Slot) (f : FileId) :
    ((∀ fd, (s.proc p).ofile fd ≠ none) ∧ (fdalloc p f).run s = .ok (none, s)) ∨
    ∃ fd, (s.proc p).ofile fd = none ∧
      (fdalloc p f).run s = .ok (some fd, { s with proc := setFd s.proc p fd (some f) }) := by
  unfold fdalloc
  rw [run_bind_ok (StateT.run_get s)]
  dsimp only
  cases hfind : (List.finRange NOFILE).find? fun fd => decide ((s.proc p).ofile fd = none) with
  | none =>
    exact Or.inl ⟨fun fd => by simpa using List.find?_eq_none.mp hfind fd (mem_finRange fd), rfl⟩
  | some fd => exact Or.inr ⟨fd, by simpa using List.find?_some hfind, rfl⟩

theorem setFd_ofile_ne {proc : Slot → UProc} {fd fd' : Fin NOFILE} (h : fd' ≠ fd)
    (p : Slot) (v : Option FileId) : (setFd proc p fd v p).ofile fd' = (proc p).ofile fd' := by
  unfold setFd
  rw [Function.update_self]
  exact Function.update_of_ne h _ _

/-! ### `sys_dup`, `sys_close`, `sys_open` -/

/-- `dup` keeps the invariant. -/
theorem sys_dup_spec (h : Inv s G) (hp : Active s p) (fd : Fin NOFILE) :
    ∃ r s' G', (sys_dup p fd).run s = .ok (r, s') ∧ CallPost G s' G' := by
  unfold sys_dup
  rw [run_bind_ok (StateT.run_get s)]
  cases hfd : (s.proc p).ofile fd with
  | none => exact ⟨-1, s, G, rfl, h.post⟩
  | some f =>
    dsimp only
    rcases fdalloc_run s p f with ⟨-, hnone⟩ | ⟨fd', hfree, hrun₁⟩
    · rw [run_bind_ok hnone]
      exact ⟨-1, s, G, rfl, h.post⟩
    · have hstep₁ := fdStep_setFd h.sys p fd' (some f)
      have href : 1 ≤ (s.file f).ref := h.files.count f ▸ fdcount_pos hfd
      obtain ⟨s₂, hrun₂, hinv₂, hproc₂, href₂⟩ := filedup_spec hstep₁.inv href
      refine ⟨fd', s₂, G, ?_, h.post_fdStep hp (hstep₁.trans (FileStep.fdStep
        ⟨hinv₂, rfl, hproc₂⟩ p)) fun g => ?_⟩
      · rw [run_bind_ok hrun₁]
        dsimp only
        rw [run_bind_ok hrun₂]
        rfl
      · rw [href₂, hproc₂, fdcount_open hfree, h.files.count]

/-- `close` keeps the invariant. -/
theorem sys_close_spec (h : Inv s G) (hp : Active s p) (fd : Fin NOFILE) :
    ∃ r s' G', (sys_close p fd).run s = .ok (r, s') ∧ CallPost G s' G' := by
  unfold sys_close
  rw [run_bind_ok (StateT.run_get s)]
  cases hfd : (s.proc p).ofile fd with
  | none => exact ⟨-1, s, G, rfl, h.post⟩
  | some f =>
    dsimp only
    have hstep₁ := fdStep_setFd h.sys p fd none
    have href : 1 ≤ (s.file f).ref := h.files.count f ▸ fdcount_pos hfd
    obtain ⟨s₂, G₂, hrun₂, hstep₂, href₂⟩ := fileclose_spec hstep₁.inv href
    refine ⟨0, s₂, G₂, ?_, h.post_fdStep hp (hstep₁.trans (hstep₂.fdStep p)) fun g => ?_⟩
    · rw [run_bind_ok (clearFd_run s p fd), run_bind_ok hrun₂]
      rfl
    · have hcount := fdcount_close hfd g
      have := h.files.count g
      have := href₂ g
      rw [hstep₂.proc]
      dsimp only at *
      omega

/-- `open` keeps the invariant. -/
theorem sys_open_spec (h : Inv s G) (hp : Active s p) (found : Option Target)
    (omode : BitVec 32) :
    ∃ r s' G', (sys_open p found omode).run s = .ok (r, s') ∧ CallPost G s' G' := by
  unfold sys_open
  cases found with
  | none => exact ⟨-1, s, G, rfl, h.post⟩
  | some ip =>
    dsimp only
    rcases filealloc_spec h.sys with hnone | ⟨f, s₁, hrun₁, hstep₁, -, hf, href₁, htype₁⟩
    · rw [run_bind_ok hnone]
      exact ⟨-1, s, G, rfl, h.post⟩
    · rw [run_bind_ok hrun₁]
      dsimp only
      rcases fdalloc_run s₁ p f with ⟨-, hnone⟩ | ⟨fd, hfree, hrun₂⟩
      · -- no descriptor: the file is of no type yet, and closing it only frees the entry
        obtain ⟨s₂, G₂, hrun₂, hstep₂, href₂⟩ := fileclose_spec hstep₁.inv (f := f)
          (by rw [href₁, ind_self]; omega)
        refine ⟨-1, s₂, G₂, ?_, h.post_fdStep hp ((hstep₁.trans hstep₂).fdStep p) fun g => ?_⟩
        · rw [run_bind_ok hnone]
          dsimp only
          rw [run_bind_ok hrun₂]
          rfl
        · have := href₁ g
          have := href₂ g
          have := h.files.count g
          rw [hstep₂.proc, hstep₁.proc]
          omega
      · have hstep₂ := fdStep_setFd hstep₁.inv p fd (some f)
        have hnew : (s₁.file f).ref = 1 := by rw [href₁, hf, ind_self]
        have hold : (s₁.file f).type ≠ .pipe := by
          rw [htype₁, h.sys.pipes.closed f hf]
          decide
        set x : File := { s₁.file f with
          type := if ip = .device then .device else .inode
          readable := decide (omode &&& O_WRONLY = 0)
          writable := decide (omode &&& O_WRONLY ≠ 0 ∨ omode &&& O_RDWR ≠ 0) } with hx
        have hxtype : x.type ≠ .pipe := by
          show (if ip = .device then FileType.device else .inode) ≠ .pipe
          cases ip <;> decide
        have hxref : x.ref = 1 := hnew
        have hinv₃ := hstep₂.inv.setFile (f := f) (x := x) hold hxtype
          fun h0 => absurd (h0.symm.trans hxref) (by decide)
        have hstep₃ : FileStep { s₁ with proc := setFd s₁.proc p fd (some f) } G _ G :=
          ⟨hinv₃, rfl, rfl⟩
        refine ⟨fd, _, G, ?_, h.post_fdStep hp ((hstep₁.fdStep p).trans (hstep₂.trans
          (hstep₃.fdStep p))) fun g => ?_⟩
        · rw [run_bind_ok hrun₂]
          rfl
        · rw [setFile_file]
          show _ = fdcount (setFd s₁.proc p fd (some f)) g
          rw [fdcount_open hfree, hstep₁.proc, ← h.files.count]
          split
          · rename_i hg
            rw [hxref, hg, hf, ind_self]
          · exact href₁ g

/-! ### `sys_pipe` -/

/-- Every address space of the system, with all other pages in use as pages of others. -/
theorem OsInv.addressSpace (h : OsInv s G) {sp : Space} (hp : G.held p = .space sp) :
    AddressSpace s.phys sp.d (tfEntry sp.trapframe) sp.es
      (G.others p ++ (G.pipes ++ G.kernel)) := by
  obtain ⟨-, -, hsp⟩ := h.space hp
  have howns := h.owns.perm (G.split p).symm
  rw [hp] at howns
  refine ⟨hsp.chain, show PTE_TRAPFRAME &&& PTE_PLV = 0 by decide, ?_, howns⟩
  rw [hsp.length]
  exact npages_le hsp.le

/-- `copyout` to a process: its pages may change, and nothing else. -/
theorem onPhys_copyout (h : OsInv s G) {sp : Space} (hp : G.held p = .space sp)
    (dstva : Nat) (src : List UInt8) :
    ∃ r s', (onPhys (copyout (s.proc p).pagetable dstva src)).run s = .ok (r, s') ∧
      FileStep s G s' G ∧ s'.file = s.file := by
  have has := h.addressSpace hp
  obtain ⟨r, mem', n, hrun, -, hcopied⟩ := copyoutLoop_exact src.length dstva src has le_rfl
  rw [(h.space hp).2.1]
  exact ⟨r, _, onPhys_run hrun, ⟨h.onContents hp (hcopied.userWrites.moves sp.d)
    (has.after hcopied.userWrites).chain, rfl, rfl⟩, rfl⟩

theorem ofile_setFd (proc : Slot → UProc) (p q : Slot) (fd : Fin NOFILE) (v : Option FileId) :
    (setFd proc p fd v q).ofile
      = if q = p then update (proc p).ofile fd v else (proc q).ofile := by
  unfold setFd
  by_cases hq : q = p
  · rw [hq, update_self, if_pos rfl]
  · rw [update_of_ne hq, if_neg hq]

theorem setFd_pagetable (proc : Slot → UProc) (p q : Slot) (fd : Fin NOFILE) (v : Option FileId) :
    (setFd proc p fd v q).pagetable = (proc q).pagetable := by
  unfold setFd
  by_cases hq : q = p
  · rw [hq, update_self]
  · rw [update_of_ne hq]

/-- A descriptor is taken and given back. -/
theorem setFd_undo {proc : Slot → UProc} {fd : Fin NOFILE} (h : (proc p).ofile fd = none)
    (v : Option FileId) : setFd (setFd proc p fd v) p fd none = proc := by
  unfold setFd
  rw [update_idem, update_self, update_idem, ← h, update_eq_self, update_eq_self]

theorem setFd_comm {proc : Slot → UProc} {fd fd' : Fin NOFILE} (h : fd ≠ fd')
    (v v' : Option FileId) :
    setFd (setFd proc p fd v) p fd' v' = setFd (setFd proc p fd' v') p fd v := by
  unfold setFd
  simp only [update_idem, update_self]
  rw [update_comm h]

section Pipe

variable {d : Dirs} {tf : Entry} {es : List Entry} {other : List Nat}

/-- The first free page is given to someone else. -/
theorem AddressSpace.alloc {ph ph' : Phys} (h : AddressSpace ph d tf es other) {pi : Nat}
    (hpage : ph.freelist = pi :: ph'.freelist)
    (hmem : ∀ a, ¬ InPage ramPages pi a → ph'.mem a = ph.mem a) :
    AddressSpace ph' d tf es (pi :: other) := by
  have hperm : (ph'.freelist ++ (tf.page :: (spacePages d es ++ pi :: other))).Perm
      (ph.freelist ++ (tf.page :: (spacePages d es ++ other))) := by
    rw [hpage, cons_append]
    refine (List.Perm.append_left _ (List.Perm.cons _ perm_middle)).trans ?_
    refine (List.Perm.append_left _ (List.Perm.swap pi tf.page _)).trans ?_
    exact perm_middle
  have howns : Owns ramPages ph' (tf.page :: (spacePages d es ++ pi :: other)) :=
    ⟨hperm.nodup_iff.mpr h.owns.nodup, fun pg hpg => h.owns.valid pg (hperm.subset hpg)⟩
  refine ⟨h.chain.congr fun pg hpg a ha => hmem a fun hpi => ?_, h.trapframe, h.length, howns⟩
  -- the tables are not in the page
  have hin : pg ∈ ph.freelist ++ (tf.page :: (spacePages d es ++ other)) :=
    mem_append_right _ (mem_cons_of_mem _ (mem_append_left _
      (mem_append_left _ hpg)))
  have hpi' : pi ∈ ph.freelist := hpage ▸ mem_cons_self
  have heq := inPage_unique (K := ramPages) (h.owns.valid pg hin)
    (h.owns.valid pi (mem_append_left _ hpi')) ha hpi
  obtain ⟨-, -, hdisj⟩ := nodup_append.mp h.owns.nodup
  exact hdisj pi hpi' pg (mem_cons_of_mem _ (mem_append_left _
    (mem_append_left _ hpg))) heq.symm

/-- What a copy to the user does once the pipe is made. -/
theorem copyout_keeps_pipe {ph : Phys} {pi : Nat} (h : AddressSpace ph d tf es (pi :: other))
    (hopen : ∀ w, getLE ph.mem (pi + endOff w) 4 = 1) (va : Nat) (src : List UInt8) :
    ∃ r mem' n, (copyout d.root va src).run ph = .ok (r, ⟨mem', ph.freelist⟩) ∧
      Extent es va src.length n r ∧ CopiedOut es va src n ph.mem mem' ∧
      AddressSpace ⟨mem', ph.freelist⟩ d tf es (pi :: other) ∧
      ∀ w, getLE mem' (pi + endOff w) 4 = 1 := by
  obtain ⟨r, mem', n, hrun, hext, hcopied⟩ := copyoutLoop_exact src.length va src h le_rfl
  refine ⟨r, mem', n, hrun, hext, hcopied, h.after hcopied.userWrites, fun w => ?_⟩
  rw [← hopen w]
  refine getLE_congr fun x hx hx' => h.untouched hcopied.userWrites ?_ (endOff_in hx hx')
  unfold kernelSide
  simp

/-- `sys_pipe` has made a pipe, in state `s₁`, and has given the process two descriptors for it,
with their numbers in the user array. -/
structure PipeGiven (s s₁ : Os) (p : Slot) (d : Dirs) (tf : Entry) (es : List Entry)
    (other : List Nat) (fdarray : Nat) (mem' : Bytes) (fd0 fd1 : Fin NOFILE) (rf wf : FileId)
    (pi : Nat) : Prop where
  others : s₁ = { s with phys := s₁.phys, file := s₁.file }
  made : MadePipe s s₁ rf wf pi
  fdNe : fd1 ≠ fd0
  empty : (s.proc p).ofile fd0 = none ∧ (s.proc p).ofile fd1 = none
  isOpen : ∀ w, getLE mem' (pi + endOff w) 4 = 1
  space : AddressSpace ⟨mem', s₁.phys.freelist⟩ d tf es (pi :: other)
  copied : CopiedOut es fdarray (leBytes 4 fd0 ++ leBytes 4 fd1) (4 + 4) s₁.phys.mem mem'
  reach : ∀ k < 4 + 4, userPage es (fdarray + k) ≠ none

/-- There is all that a pipe takes: two files, a page, two descriptors and the user array. -/
structure PipeRoom (s : Os) (p : Slot) (es : List Entry) (fdarray : Nat) : Prop where
  files : FileRoom s
  fds : ∃ fd fd', fd ≠ fd' ∧ (s.proc p).ofile fd = none ∧ (s.proc p).ofile fd' = none
  array : ∀ k < 8, userPage es (fdarray + k) ≠ none

/-- All exits of `sys_pipe`. -/
theorem sys_pipe_exact (hclosed : ∀ f, (s.file f).ref = 0 → (s.file f).type = .none)
    (hspace : AddressSpace s.phys d tf es other) (hroot : (s.proc p).pagetable = d.root)
    (fdarray : Nat) :
    ∃ r s', (sys_pipe p fdarray).run s = .ok (r, s') ∧
      ((r = -1 ∧ ¬ PipeRoom s p es fdarray ∧ NotMade s s' (es.map Entry.page)) ∨
        (r = 0 ∧ ∃ fd0 fd1 rf wf pi s₁ mem',
          s' = { s₁ with
            proc := setFd (setFd s.proc p fd0 (some rf)) p fd1 (some wf)
            phys := ⟨mem', s₁.phys.freelist⟩ } ∧
          PipeGiven s s₁ p d tf es other fdarray mem' fd0 fd1 rf wf pi)) := by
  unfold sys_pipe
  rcases pipealloc_exact hclosed with ⟨s₁, hrun₁, hroom, hnone⟩ |
    ⟨rf, wf, pi, s₁, hrun₁, hs₁, hmade⟩
  · rw [run_bind_ok hrun₁]
    exact ⟨-1, s₁, rfl, .inl ⟨rfl, fun h => hroom h.files, hnone _⟩⟩
  rw [run_bind_ok hrun₁]
  dsimp only
  have hpi : IsPage pi := hspace.owns.valid pi
    (mem_append_left _ (by rw [hmade.page]; exact mem_cons_self))
  rcases fdalloc_run s₁ p rf with ⟨hall, hnone⟩ | ⟨fd0, hfree₀, hrun₂⟩
  · -- no first descriptor
    rw [run_bind_ok hnone]
    obtain ⟨s₂, hrun₂, hnot⟩ := hmade.closeEnds hs₁ hpi hmade.isOpen fun _ _ => rfl
    refine ⟨-1, s₂, hrun₂, .inl ⟨rfl, fun h => ?_, hnot⟩⟩
    obtain ⟨fd, -, -, hfd, -⟩ := h.fds
    exact hall fd (hmade.proc ▸ hfd)
  rw [run_bind_ok hrun₂]
  dsimp only
  rcases fdalloc_run { s₁ with proc := setFd s₁.proc p fd0 (some rf) } p wf
    with ⟨hall, hnone⟩ | ⟨fd1, hfree₁, hrun₃⟩
  · -- no second descriptor
    rw [run_bind_ok hnone]
    dsimp only
    rw [run_bind_ok (clearFd_run _ _ _)]
    obtain ⟨s₂, hrun₂, hnot⟩ := hmade.closeEnds hs₁ hpi hmade.isOpen fun _ _ => rfl
    refine ⟨-1, s₂, ?_, .inl ⟨rfl, fun h => ?_, hnot⟩⟩
    · rw [← hrun₂]
      dsimp only
      rw [setFd_undo hfree₀]
    · obtain ⟨fd, fd', hne, hfd, hfd'⟩ := h.fds
      have honly : ∀ x, (s.proc p).ofile x = none → x = fd0 := fun x hx => by
        by_contra hx0
        exact hall x ((setFd_ofile_ne hx0 p (some rf)).trans (hmade.proc ▸ hx))
      exact hne ((honly fd hfd).trans (honly fd' hfd').symm)
  -- both descriptors are taken
  have hne : fd1 ≠ fd0 := by
    rintro rfl
    rw [show _ = some rf from setFd_ofile s₁.proc p fd1 (some rf)] at hfree₁
    cases hfree₁
  replace hfree₁ : (s₁.proc p).ofile fd1 = none :=
    (setFd_ofile_ne hne p (some rf)).symm.trans hfree₁
  rw [run_bind_ok hrun₃]
  dsimp only
  set proc₃ := setFd (setFd s₁.proc p fd0 (some rf)) p fd1 (some wf) with hproc₃
  have hundo : setFd (setFd proc₃ p fd0 none) p fd1 none = s₁.proc := by
    rw [setFd_comm (Ne.symm hne), hproc₃, setFd_undo (by rw [setFd_ofile_ne hne, hfree₁]),
      setFd_undo hfree₀]
  have hroot₃ : (proc₃ p).pagetable = d.root := by
    rw [hproc₃, setFd_pagetable, setFd_pagetable, hmade.proc, hroot]
  -- the exit after a failed copy
  have hbad : ∀ mem', (∀ w, getLE mem' (pi + endOff w) 4 = 1) →
      UserWrites es s₁.phys.mem mem' →
      ∃ s', (do clearFd p fd0; clearFd p fd1; fileclose rf; fileclose wf; return -1 :
          OsM Int).run { s₁ with proc := proc₃, phys := ⟨mem', s₁.phys.freelist⟩ } = .ok (-1, s') ∧
        NotMade s s' (es.map Entry.page) := by
    intro mem' hopen hwrites
    obtain ⟨s₂, hrun₂, hnot⟩ := hmade.closeEnds hs₁ hpi hopen fun _ => hwrites.agree
    refine ⟨s₂, ?_, hnot⟩
    rw [run_bind_ok (clearFd_run _ _ _), run_bind_ok (clearFd_run _ _ _), ← hrun₂]
    dsimp only
    rw [hundo]
  rw [run_bind_ok (StateT.run_get _)]
  dsimp only
  rw [hroot₃]
  obtain ⟨r₄, mem₄, n₄, hrun₄, hext₄, hcopied₄, hspace₄, hopen₄⟩ :=
    copyout_keeps_pipe (hspace.alloc hmade.page hmade.mem) hmade.isOpen fdarray (leBytes 4 fd0)
  rw [run_bind_ok (onPhys_run (s := { s₁ with proc := proc₃ }) hrun₄)]
  by_cases hneg₄ : r₄ < 0
  · rw [if_pos hneg₄]
    obtain ⟨s', hrun', hnot⟩ := hbad mem₄ hopen₄ hcopied₄.userWrites
    refine ⟨-1, s', hrun', .inl ⟨rfl, fun h => ?_, hnot⟩⟩
    rcases hext₄.stop with ⟨hr, -⟩ | ⟨-, hlt, hout, -⟩
    · omega
    · rw [length_leBytes] at hlt
      exact h.array n₄ (by omega) hout
  rw [if_neg hneg₄]
  obtain ⟨-, hn₄⟩ : r₄ = 0 ∧ n₄ = (leBytes 4 fd0).length := by
    rcases hext₄.stop with hok | ⟨hr, -⟩
    · exact hok
    · omega
  rw [length_leBytes] at hn₄
  -- the first number ends below MAXVA, so the address of the second does not wrap around
  have hwrap : (fdarray + 4) % 2 ^ 64 = fdarray + 4 := by
    have hlast := hspace.below (hext₄.reach 3 (by omega))
    unfold MAXVA at hlast
    exact Nat.mod_eq_of_lt (by omega)
  rw [hwrap]
  obtain ⟨r₅, mem₅, n₅, hrun₅, hext₅, hcopied₅, hspace₅, hopen₅⟩ :=
    copyout_keeps_pipe hspace₄ hopen₄ (fdarray + 4) (leBytes 4 fd1)
  rw [run_bind_ok (onPhys_run
    (s := { s₁ with proc := proc₃, phys := ⟨mem₄, s₁.phys.freelist⟩ }) hrun₅)]
  -- the second copy writes elsewhere
  subst hn₄
  have hboth : CopiedOut es fdarray (leBytes 4 fd0 ++ leBytes 4 fd1) (4 + n₅) s₁.phys.mem mem₅ := by
    refine CopiedOut.append hspace ⟨fun k hk pg hpg => ?_, hcopied₄.frame⟩ ?_
    · rw [List.getElem?_append_left (by rw [length_leBytes]; exact hk)]
      exact hcopied₄.wrote k hk pg hpg
    · rw [List.drop_left' (length_leBytes 4 _)]
      exact hcopied₅
  by_cases hneg₅ : r₅ < 0
  · rw [if_pos hneg₅]
    obtain ⟨s', hrun', hnot⟩ := hbad mem₅ hopen₅ hboth.userWrites
    refine ⟨-1, s', hrun', .inl ⟨rfl, fun h => ?_, hnot⟩⟩
    rcases hext₅.stop with ⟨hr, -⟩ | ⟨-, hlt, hout, -⟩
    · omega
    · rw [length_leBytes] at hlt
      exact h.array (4 + n₅) (by omega) (Nat.add_assoc fdarray 4 n₅ ▸ hout)
  rw [if_neg hneg₅]
  obtain ⟨-, hn₅⟩ : r₅ = 0 ∧ n₅ = (leBytes 4 fd1).length := by
    rcases hext₅.stop with hok | ⟨hr, -⟩
    · exact hok
    · omega
  rw [length_leBytes] at hn₅
  subst hn₅
  refine ⟨0, _, rfl, .inr ⟨rfl, fd0, fd1, rf, wf, pi, s₁, mem₅, by rw [hproc₃, hmade.proc], hs₁,
    hmade, hne, hmade.proc ▸ ⟨hfree₀, hfree₁⟩, hopen₅, hspace₅, hboth, fun k hk => ?_⟩⟩
  by_cases hk4 : k < 4
  · exact hext₄.reach k hk4
  · have := hext₅.reach (k - 4) (by omega)
    rwa [show fdarray + 4 + (k - 4) = fdarray + k by omega] at this

end Pipe

/-- Nothing is left of the pipe but other bytes in the user's pages. -/
theorem OsInv.notMade {s' : Os} {sp : Space} (h : OsInv s G) (hp : G.held p = .space sp)
    (hnot : NotMade s s' (sp.es.map Entry.page)) : OsInv s' G := by
  have hperm : (sp.es.map Entry.page ++ sp.d.list).Perm (spacePages sp.d sp.es) := perm_append_comm
  have hm : Moves ramPages s.phys (spacePages sp.d sp.es) s'.phys (spacePages sp.d sp.es) :=
    ((Moves.of_perm hperm).trans (hnot.moves.frame _)).trans (Moves.of_perm hperm.symm)
  have hc := (h.space hp).2.2.chain.kept hnot.moves ((h.space_owns hp).perm hperm)
    fun pg hpg => hpg
  have h₁ := h.onContents hp hm hc
  have hpipes : PipesOk s'.phys.mem s'.file G.pipes := by
    refine h₁.pipes.of_ends (fun pi w g => ?_) fun g hg => ?_
    · rcases hnot.files g with hg | ⟨hold, -, hnew⟩
      · unfold IsEnd
        rw [hg]
      · simp [IsEnd, hnew, h.pipes.closed g hold]
    · rcases hnot.files g with heq | ⟨-, -, hnew⟩
      · rw [heq] at hg ⊢
        exact h.pipes.closed g hg
      · exact hnew
  rw [hnot.others]
  exact h₁.onPipes (Moves.refl _ _) hpipes

/-- `pipe` keeps the invariant. -/
theorem sys_pipe_spec (h : Inv s G) (hp : Active s p) (fdarray : Nat) :
    ∃ r s' G', (sys_pipe p fdarray).run s = .ok (r, s') ∧ CallPost G s' G' := by
  obtain ⟨sp, hheld⟩ := h.settled.used p hp.1
  obtain ⟨r, s', hrun, ⟨-, -, hnot⟩ | ⟨-, fd0, fd1, rf, wf, pi, s₁, mem', rfl, hgiven⟩⟩ :=
    sys_pipe_exact h.sys.pipes.closed (h.sys.addressSpace hheld) (h.sys.space hheld).2.1 fdarray
  · have hproc : s'.proc = s.proc := by rw [hnot.others]
    refine ⟨r, s', G, hrun, h.post_fdStep hp (FileStep.fdStep ⟨h.sys.notMade hheld hnot, rfl,
      hproc⟩ p) fun g => ?_⟩
    rw [hproc, ← h.files.count]
    rcases hnot.files g with hg | ⟨hold, hnew, -⟩
    · rw [hg]
    · rw [hold, hnew]
  · have hmade := hgiven.made
    have hm : Moves ramPages s.phys G.pipes s₁.phys (pi :: G.pipes) :=
      Moves.alloc hmade.page hmade.mem
    have ho := h.sys.pipes_owns.moves hm
    have hinv := h.sys.onPipes hm (h.sys.pipes.add hmade (fun pg hpg => ho.own_valid hpg)
      (nodup_cons.mp (nodup_append.mp ho.nodup).2.1).1)
    rw [← hgiven.others] at hinv
    have hstep₁ := FileStep.fdStep ⟨hinv, rfl, hmade.proc⟩ p
    have hstep₂ := hstep₁.trans (fdStep_setFd hinv p fd0 (some rf))
    have hstep₃ := hstep₂.trans (fdStep_setFd hstep₂.inv p fd1 (some wf))
    rw [hmade.proc] at hstep₃
    refine ⟨r, _, _, hrun, h.post_fdStep hp ⟨hstep₃.inv.onContents hheld
      (hgiven.copied.userWrites.moves sp.d) hgiven.space.chain, rfl, hstep₃.state, hstep₃.other⟩
      fun g => ?_⟩
    have hempty : (setFd s.proc p fd0 (some rf) p).ofile fd1 = none := by
      rw [setFd_ofile_ne hgiven.fdNe, hgiven.empty.2]
    show (s₁.file g).ref = fdcount (setFd (setFd s.proc p fd0 (some rf)) p fd1 (some wf)) g
    rw [fdcount_open hempty, fdcount_open hgiven.empty.1, ← h.files.count, hmade.ref]

end Descriptors

end Xv6.Proofs
