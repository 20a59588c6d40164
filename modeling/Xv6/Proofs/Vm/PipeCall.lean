import Xv6.Proofs.Vm.UserCopy

/-!
# `Xv6.Proofs.Vm.PipeCall`: all or nothing in `sys_pipe`

`sys_pipe` takes two files, a page and two descriptors, one after the other, and may fail at each of
them and at both copies to user memory. `pipealloc_exact` and `MadePipe.closeEnds` say what it has
taken and what the exits give back: the two calls of `fileclose` find an end of the pipe each, so
that the second one frees the page.

The file table is arbitrary, except that free entries have no type: `fileclose` looks at the type of
an entry that `filealloc` has just taken.
-/

set_option autoImplicit false

namespace Xv6.Proofs

open Lib List

/-- Descriptors, the reference counts and types of files, and the free pages are the same. -/
structure NoTrace (s s' : Os) : Prop where
  ofile : ∀ q, (s'.proc q).ofile = (s.proc q).ofile
  ref : ∀ f, (s'.file f).ref = (s.file f).ref
  type : ∀ f, (s'.file f).type = (s.file f).type
  free : s'.phys.freelist.Perm s.phys.freelist

/-- A pipe that was not made leaves no trace. -/
theorem NotMade.noTrace {s s' : Os} {own : List Nat} (h : NotMade s s' own)
    (hclosed : ∀ f, (s.file f).ref = 0 → (s.file f).type = .none) : NoTrace s s' := by
  refine ⟨fun q => by rw [h.others], fun f => ?_, fun f => ?_,
    (perm_append_right_iff _).mp h.moves.perm⟩
  · rcases h.files f with hf | ⟨hold, hnew, -⟩
    · rw [hf]
    · rw [hold, hnew]
  · rcases h.files f with hf | ⟨hold, -, hnew⟩
    · rw [hf]
    · rw [hnew, hclosed f hold]

/-! ### The call -/

/-- The two descriptors, which were empty, refer to the ends of a new pipe in a page that was free,
and their numbers are in the user array. -/
structure GotPipe (s s' : Os) (p : Slot) (fdarray : Nat) (fd0 fd1 : Fin NOFILE) (rf wf : FileId)
    (pi : Nat) : Prop where
  fdNe : fd1 ≠ fd0
  empty : (s.proc p).ofile fd0 = none ∧ (s.proc p).ofile fd1 = none
  ofile : (s'.proc p).ofile =
    Function.update (Function.update (s.proc p).ofile fd0 (some rf)) fd1 (some wf)
  otherProcs : ∀ q, q ≠ p → (s'.proc q).ofile = (s.proc q).ofile
  fileNe : rf ≠ wf
  unused : (s.file rf).ref = 0 ∧ (s.file wf).ref = 0
  reading : OnlyEnd (s'.file rf) pi false
  writing : OnlyEnd (s'.file wf) pi true
  otherFiles : ∀ f, f ≠ rf → f ≠ wf → s'.file f = s.file f
  page : s.phys.freelist = pi :: s'.phys.freelist
  isOpen : ∀ w, getLE s'.phys.mem (pi + endOff w) 4 = 1
  numbers : ∀ k < 8, ∃ a, userByte s'.phys (s'.proc p).pagetable (fdarray + k) = some a ∧
    (leBytes 4 fd0 ++ leBytes 4 fd1)[k]? = some (s'.phys.mem a)

section Call

variable {s : Os} {p : Slot} {d : Dirs} {tf : Entry} {es : List Entry} {other : List Nat}

/-- A pipe is made whole, or not at all because something that it takes is missing. -/
theorem sys_pipe_all_or_nothing (hclosed : ∀ f, (s.file f).ref = 0 → (s.file f).type = .none)
    (hspace : AddressSpace s.phys d tf es other) (hroot : (s.proc p).pagetable = d.root)
    (fdarray : Nat) :
    ∃ r s', (sys_pipe p fdarray).run s = .ok (r, s') ∧
      ((r = -1 ∧ ¬ PipeRoom s p es fdarray ∧ NoTrace s s') ∨
        (r = 0 ∧ ∃ fd0 fd1 rf wf pi, GotPipe s s' p fdarray fd0 fd1 rf wf pi)) := by
  obtain ⟨r, s', hrun, ⟨hr, hroom, hnot⟩ | ⟨hr, fd0, fd1, rf, wf, pi, s₁, mem', rfl, hgiven⟩⟩ :=
    sys_pipe_exact hclosed hspace hroot fdarray
  · exact ⟨r, s', hrun, .inl ⟨hr, hroom, hnot.noTrace hclosed⟩⟩
  have hmade := hgiven.made
  refine ⟨r, _, hrun, .inr ⟨hr, fd0, fd1, rf, wf, pi, hgiven.fdNe, hgiven.empty, ?_, fun q hq => ?_,
    hmade.ne, hmade.unused, hmade.reading, hmade.writing, hmade.other, hmade.page, hgiven.isOpen,
    fun k hk => ?_⟩⟩
  · show (setFd (setFd s.proc p fd0 _) p fd1 _ p).ofile = _
    rw [ofile_setFd, if_pos rfl, ofile_setFd, if_pos rfl]
  · show (setFd (setFd s.proc p fd0 _) p fd1 _ q).ofile = _
    rw [ofile_setFd, if_neg hq, ofile_setFd, if_neg hq]
  · obtain ⟨pg, hpg⟩ := Option.ne_none_iff_exists'.mp (hgiven.reach k hk)
    refine ⟨pg + (fdarray + k) % PGSIZE, ?_, hgiven.copied.wrote k hk pg hpg⟩
    show userByte _ (setFd (setFd s.proc p fd0 _) p fd1 _ p).pagetable _ = _
    rw [setFd_pagetable, setFd_pagetable, hroot, hgiven.space.userByte, hpg]
    rfl

end Call

/-- The first process has room for a pipe. -/
theorem Booted.pipeRoom {s : Os} {G : Ghost} {pg : Nat} (h : Booted s G pg)
    (hfree : s.phys.freelist ≠ []) : PipeRoom s initproc [⟨pg, PTE_INIT⟩] 0 := by
  have hzero : ∀ f, (s.file f).ref = 0 := fun f => by
    rw [h.inv.files.count]
    simp [fdcount, h.ofile]
  refine ⟨⟨⟨⟨0, by decide⟩, ⟨1, by decide⟩, by decide, hzero _, hzero _⟩, hfree⟩,
    ⟨⟨0, by decide⟩, ⟨1, by decide⟩, by decide, h.ofile _ _, h.ofile _ _⟩, fun k hk => ?_⟩
  rw [userPage_init pg (by unfold PGSIZE; omega)]
  exact Option.some_ne_none pg

/-- The first process makes a pipe. -/
theorem sys_pipe_all_or_nothing_init : ∃ s s', run (fun _ => 0) [] = .ok s ∧
    (sys_pipe initproc 0).run s = .ok (0, s') ∧
      ∃ fd0 fd1 rf wf pi, GotPipe s s' initproc 0 fd0 fd1 rf wf pi := by
  obtain ⟨s, G, pg, hbooted, hcount, hrun⟩ := run_eq fun _ => 0
  obtain ⟨d, other, hroot, hspace⟩ := hbooted.addressSpace
  have hfree : s.phys.freelist ≠ [] := fun hnil => by
    rw [hnil] at hcount
    cases hcount
  obtain ⟨r, s', hcall, ⟨-, hno, -⟩ | ⟨rfl, hgot⟩⟩ :=
    sys_pipe_all_or_nothing hbooted.inv.sys.pipes.closed hspace hroot 0
  · exact absurd (hbooted.pipeRoom hfree) hno
  · exact ⟨s, s', hrun [], hcall, hgot⟩

end Xv6.Proofs
