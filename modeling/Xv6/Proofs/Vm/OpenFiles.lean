import Xv6.Proofs.Vm.PipeCall

/-!
# `Xv6.Proofs.Vm.OpenFiles`: reference counts of open files

Between two calls the reference count of an entry of `ftable` is the number of descriptors that
hold it, and the two words `readopen` and `writeopen` of a pipe say whether a descriptor holds the
read or the write file. The page of a pipe is not on the free list while one of them does, and it
is there once after the call that closes the last.

`piperead`, `pipewrite` and `pipeclose` reach a pipe through a file that is open. So no page that
they work on is free.
-/

set_option autoImplicit false

namespace Xv6.Proofs

open Lib

/-- Some descriptor holds `f`. -/
def IsOpen (s : Os) (f : FileId) : Prop := ∃ p fd, (s.proc p).ofile fd = some f

/-- What holds of the file table between two calls. -/
structure OpenFiles (s : Os) : Prop where
  count : ∀ f, (s.file f).ref = fdcount s.proc f
  closed : ∀ f, (s.file f).ref = 0 ↔ ¬ IsOpen s f
  type : ∀ f, (s.file f).ref = 0 → (s.file f).type = .none
  unused : ∀ p, (s.proc p).state = .unused → ∀ fd, (s.proc p).ofile fd = none
  /-- `readopen` and `writeopen` are 1 or 0 -/
  word : ∀ pi ∈ pipePages s, ∀ w,
    (getLE s.phys.mem (pi + endOff w) 4 = 1 ↔ ∃ f, IsOpen s f ∧ IsEnd s.file pi w f) ∧
    (getLE s.phys.mem (pi + endOff w) 4 = 0 ↔ ¬ ∃ f, IsOpen s f ∧ IsEnd s.file pi w f)
  inUse : ∀ pi ∈ pipePages s, s.phys.freelist.count pi = 0

theorem fdcount_eq_zero {s : Os} {f : FileId} : fdcount s.proc f = 0 ↔ ¬ IsOpen s f := by
  unfold fdcount IsOpen
  rw [Finset.card_eq_zero, Finset.filter_eq_empty_iff]
  constructor
  · rintro h ⟨p, fd, hfd⟩
    exact h (Finset.mem_univ (p, fd)) hfd
  · exact fun h x _ hx => h ⟨x.1, x.2, hx⟩

/-- The invariant gives the property of the open files. -/
theorem openFiles_of_inv {s : Os} {G : Ghost} (h : Inv s G) : OpenFiles s := by
  have hpipes := h.sys.pipes
  have hin : ∀ pi ∈ pipePages s, pi ∈ G.pipes := fun pi hpi => (pipePages_perm h.sys).subset hpi
  have hclosed : ∀ f, (s.file f).ref = 0 ↔ ¬ IsOpen s f := fun f => by
    rw [h.files.count, fdcount_eq_zero]
  -- an end is an open file, because a closed one has no type
  have hend : ∀ pi w, (∃ f, IsOpen s f ∧ IsEnd s.file pi w f) ↔ ∃ f, IsEnd s.file pi w f := by
    refine fun pi w => ⟨fun ⟨f, _, hf⟩ => ⟨f, hf⟩, fun ⟨f, hf⟩ => ⟨f, ?_, hf⟩⟩
    by_contra hno
    have htype := hpipes.closed f ((hclosed f).mpr hno)
    exact absurd (htype.symm.trans hf.1) (by decide)
  refine ⟨h.files.count, hclosed, hpipes.closed, fun p hp => h.files.closed p (Or.inl hp),
    fun pi hpi w => ?_, fun pi hpi => ?_⟩
  · rw [hend, ← hpipes.ends pi (hin pi hpi) w]
    have hbit := hpipes.bit pi (hin pi hpi) w
    omega
  · refine List.count_eq_zero_of_not_mem fun hfree => ?_
    have hmem : pi ∈ G.pages := by simp [Ghost.pages, hin pi hpi]
    exact (List.nodup_append.mp h.sys.owns.nodup).2.2 pi hfree pi hmem rfl

/-- The file table between two calls, and the page of a pipe that a call closes for good: it is
freed, once. -/
theorem open_file_references {mem : Bytes} {s₀ s : Os} {free : List Nat}
    {calls : List (Slot × Call)} (hrun : RunWith mem s₀ free calls s) :
    OpenFiles s ∧
      ∀ p c s', (call p c).run s = .ok ((), s') → ∀ pi ∈ pipePages s, pi ∉ pipePages s' →
        s'.phys.freelist.count pi = 1 := by
  obtain ⟨G, h, -⟩ := hrun.inv
  refine ⟨openFiles_of_inv h, fun p c s' hcall pi hpi hgone => ?_⟩
  obtain ⟨G', hpost⟩ := wp_ok (call_spec h p c) hcall
  have hnot : pi ∉ G'.pipes := fun hin => hgone ((pipePages_perm hpost.inv.sys).symm.subset hin)
  have hfree := (hpost.pipes pi ((pipePages_perm h.sys).subset hpi)).resolve_left hnot
  have hnodup : s'.phys.freelist.Nodup := (List.nodup_append.mp hpost.inv.sys.owns.nodup).1
  exact List.count_eq_one_of_mem hnodup hfree

/-- The first process has made a pipe. -/
theorem open_file_references_openPipe :
    ∃ s₀ s rf wf, RunWith (fun _ => 0) s₀ s₀.phys.freelist [(initproc, .pipe 0)] s ∧
      rf ≠ wf ∧ (s.file rf).ref = 1 ∧ (s.file wf).ref = 1 ∧ OpenFiles s := by
  obtain ⟨s₀, G, pg, hbooted, hcount, hboot⟩ := run_eq fun _ => 0
  obtain ⟨d, other, hroot, hspace⟩ := hbooted.addressSpace
  have hfree : s₀.phys.freelist ≠ [] := fun hnil => by
    rw [hnil] at hcount
    cases hcount
  obtain ⟨r, s, hcall, ⟨-, hno, -⟩ | ⟨-, fd0, fd1, rf, wf, pi, s₁, mem', hs, hgiven⟩⟩ :=
    sys_pipe_exact hbooted.inv.sys.pipes.closed hspace hroot 0
  · exact absurd (hbooted.pipeRoom hfree) hno
  have hfile : s.file = s₁.file := by rw [hs]
  have hmade := hgiven.made
  have hrun : RunWith (fun _ => 0) s₀ s₀.phys.freelist [(initproc, .pipe 0)] s := by
    refine ⟨hboot [], List.Sublist.refl _, ?_⟩
    show (do call initproc (.pipe 0); pure () : OsM Unit).run s₀ = _
    unfold call
    rw [bind_assoc, run_bind_ok (StateT.run_get s₀), if_pos hbooted.state]
    dsimp only
    rw [bind_assoc, run_bind_ok hcall]
    rfl
  exact ⟨s₀, s, rf, wf, hrun, hmade.ne, hfile ▸ hmade.reading.ref, hfile ▸ hmade.writing.ref,
    (open_file_references hrun).1⟩

end Xv6.Proofs
