import Xv6.Proofs.Vm.Run

/-!
# `Xv6.Proofs.Vm.ExecPanic`: which executables make `exec` panic

`exec_returns_iff` is about the call of `exec` that `sys_exec` makes in any reachable state, with
any contents of the file and any number of free pages: it returns, with -1 or the new image
installed, unless the image runs over the trapframe and there are pages enough to get there.
`exec_overrun` is such a file, met by the first process right after booting.
-/

set_option autoImplicit false

namespace Xv6.Proofs

open Lib

/-! ### When `exec` returns -/

/-- `exec` with the arguments that `sys_exec` fetched, for every file and every choice of the pages
that are still free. The `31` strings of an argument vector are the most that `fetchArgs` returns
in its `MAXARG` rounds. -/
theorem exec_returns_iff {mem : Bytes} {calls : List (Slot × Call)} {s s' : Os} {p : Slot}
    {uargv : Nat} {pages : List Nat} {argv : List (List UInt8)} {free : List Nat}
    (file : List UInt8) (hrun : run mem calls = .ok s) (hp : (s.proc p).state = .runnable)
    (hargs : (fetchArgs p uargv MAXARG [] []).run s = .ok ((pages, some argv), s'))
    (hfree : free.Sublist s'.phys.freelist) :
    (∃ r t, (exec p (some file) argv).run (withFree s' free) = .ok (r, t) ∧
        ExecResult (withFree s' free) p (some file) argv r t) ↔
      ¬ (EXEC_PAGES ≤ free.length ∧ fileRunsOver file = true) := by
  obtain ⟨G, h⟩ := run_inv hrun
  obtain ⟨sp, hheld⟩ := h.settled.used p (by rw [hp]; decide)
  have hsys : OsInv s { G with args := [] } := by
    have := h.sys
    rwa [← h.settled.args]
  obtain ⟨pages', r', s₁, hrun₁, hstep₁⟩ := fetchArgs_spec uargv MAXARG [] [] hsys hheld
  obtain ⟨⟨-, -⟩, rfl⟩ := Prod.mk.inj (Except.ok.inj (hrun₁.symm.trans hargs))
  obtain ⟨lost, -, hinv⟩ := hstep₁.inv.withFree hfree
  have hwp := exec_spec hinv hheld (some file) argv
  have hpanics : ExecPanics (withFree s₁ free).phys (some file) ↔
      EXEC_PAGES ≤ free.length ∧ fileRunsOver file = true := by
    constructor
    · rintro ⟨f, hf, hcond⟩
      obtain rfl : file = f := Option.some.inj hf
      exact hcond
    · exact fun hcond => ⟨file, rfl, hcond⟩
  rw [← hpanics]
  cases hexec : (exec p (some file) argv).run (withFree s₁ free) with
  | error e =>
    have := wp_error hwp hexec
    constructor
    · rintro ⟨r, t, hok, -⟩
      exact absurd hok nofun
    · exact fun hcalm => absurd this.2 hcalm
  | ok res =>
    obtain ⟨⟨sp', hpost⟩, hcalm⟩ := wp_ok hwp hexec
    exact ⟨fun _ => hcalm, fun _ => ⟨res.1, res.2, rfl, hpost.result⟩⟩

/-- `exec` panics if the image runs over the trapframe and there are pages enough to get there. -/
theorem exec_remap {s : Os} {G : Ghost} {p : Slot} (h : OsInv s G) {sp : Space}
    (hp : G.held p = .space sp) {file : Option (List UInt8)} (argv : List (List UInt8))
    (hpanics : ExecPanics s.phys file) : (exec p file argv).run s = .error .remap := by
  have hwp := exec_spec h hp file argv
  cases hexec : (exec p file argv).run s with
  | error e => rw [(wp_error hwp hexec).1]
  | ok res => exact absurd hpanics (wp_ok hwp hexec).2

/-! ### A file that makes it panic -/

/-- An executable with one segment of 1 MiB and nothing in it. -/
def overrun : List UInt8 :=
  -- `struct elfhdr`: magic, `phoff` = 64, `phnum` = 1
  [0x7f, 0x45, 0x4c, 0x46] ++ List.replicate 28 0 ++ [64, 0, 0, 0, 0, 0, 0, 0] ++
    List.replicate 16 0 ++ [1, 0] ++ List.replicate 6 0 ++
  -- `struct proghdr`: type, `memsz` = 0x100000
  [1, 0, 0, 0] ++ List.replicate 36 0 ++ [0, 0, 0x10, 0, 0, 0, 0, 0] ++ List.replicate 8 0

theorem overrun_runsOver : fileRunsOver overrun = true := by decide +kernel

/-- The eight bytes at address 48 of the first process are 0: an empty argument vector. -/
theorem fetchArgs_empty {s : Os} {G : Ghost} {pg : Nat} (h : Booted s G pg) :
    (fetchArgs initproc 48 MAXARG [] []).run s = .ok (([], some []), s) := by
  obtain ⟨sp, hheld, hes⟩ := h.space
  obtain ⟨-, hroot, hsp⟩ := h.inv.sys.space hheld
  have hpage : IsPage pg := by
    have := h.inv.sys.slot_owns initproc
    rw [hheld] at this
    exact this.own_valid (List.mem_cons_of_mem _ (List.mem_append_right _ (by rw [hes]; simp)))
  have haddr : (walkaddr sp.d.root (PGROUNDDOWN 48)).run s.phys = .ok (phys pg, s.phys) := by
    rw [walkaddr_chain hsp.chain, if_pos (by decide), hes]
    show Except.ok (if PTE_INIT &&& PTE_PLV = 0 then 0 else phys pg, s.phys) = _
    rw [if_neg (by decide)]
  have hbytes : getBytes s.phys.mem (dmwin (phys pg + (48 - PGROUNDDOWN 48))) 8
      = List.replicate 8 0 := by
    rw [dmwin_phys hpage (by decide), getBytes, List.eq_replicate_iff]
    refine ⟨by simp, fun b hb => ?_⟩
    obtain ⟨i, hi, rfl⟩ := List.mem_map.mp hb
    have hi' := List.mem_range.mp hi
    show s.phys.mem (pg + 48 + i) = 0
    rw [Nat.add_assoc, h.code (48 + i) (by unfold PGSIZE; omega)]
    have hzero : ∀ j < 8, initcode.getD (48 + j) 0 = 0 := by decide
    exact hzero i hi'
  have hcopyin : (copyin sp.d.root 48 8).run s.phys = .ok ((List.replicate 8 0, 0), s.phys) := by
    unfold copyin
    rw [copyinLoop, if_neg (by decide), run_bind_ok haddr, if_neg (phys_ne_zero hpage),
      run_bind_ok (StateT.run_get _)]
    dsimp only
    rw [show min (PGSIZE - (48 - PGROUNDDOWN 48)) 8 = 8 by decide, hbytes, copyinLoop,
      if_pos rfl]
    rfl
  have hfetch : (fetchaddr initproc 48).run s = .ok (some 0, s) := by
    unfold fetchaddr
    rw [run_bind_ok (StateT.run_get s)]
    dsimp only
    rw [h.sz, if_neg (by decide), hroot, run_bind_ok (onPhys_run hcopyin)]
    rfl
  rw [show MAXARG = 31 + 1 from rfl, fetchArgs]
  rw [run_bind_ok (show (fetchaddr initproc
    ((48 + 8 * ([] : List (List UInt8)).length) % 2 ^ 64)).run s = .ok (some 0, s) from hfetch)]
  rfl

/-- The first process executes `overrun`, and the kernel panics with "mappages: remap". -/
theorem exec_overrun :
    ∃ s, run (fun _ => 0) [] = .ok s ∧ (s.proc initproc).state = .runnable ∧
      (fetchArgs initproc 48 MAXARG [] []).run s = .ok (([], some []), s) ∧
      (exec initproc (some overrun) []).run s = .error .remap := by
  obtain ⟨s, G, pg, hbooted, hfree, hrun⟩ := run_eq fun _ => 0
  obtain ⟨sp, hheld, -⟩ := hbooted.space
  refine ⟨s, hrun [], hbooted.state, fetchArgs_empty hbooted, ?_⟩
  have hpanics : ExecPanics s.phys (some overrun) := by
    have hpages : EXEC_PAGES = 260 := by decide
    have hnproc : NPROC = 32 := rfl
    exact ⟨overrun, rfl, by omega, overrun_runsOver⟩
  exact exec_remap hbooted.inv.sys hheld [] hpanics

/-- An executable with one segment of four bytes, and one more byte of memory. -/
def tiny : List UInt8 :=
  -- `struct elfhdr`: magic, `entry` = 8, `phoff` = 64, `phnum` = 1
  [0x7f, 0x45, 0x4c, 0x46] ++ List.replicate 20 0 ++ [8, 0, 0, 0, 0, 0, 0, 0] ++
    [64, 0, 0, 0, 0, 0, 0, 0] ++ List.replicate 16 0 ++ [1, 0] ++ List.replicate 6 0 ++
  -- `struct proghdr`: type, `off` = 120, `vaddr` = 0, `filesz` = 4, `memsz` = 5
  [1, 0, 0, 0] ++ List.replicate 4 0 ++ [120, 0, 0, 0, 0, 0, 0, 0] ++ List.replicate 16 0 ++
    [4, 0, 0, 0, 0, 0, 0, 0] ++ [5, 0, 0, 0, 0, 0, 0, 0] ++ List.replicate 8 0 ++
  [10, 20, 30, 40]

/-- It does not come near the trapframe, so `exec` returns. -/
theorem exec_returns_tiny :
    ∃ s r t, run (fun _ => 0) [] = .ok s ∧
      (exec initproc (some tiny) []).run (withFree s s.phys.freelist) = .ok (r, t) ∧
      ExecResult (withFree s s.phys.freelist) initproc (some tiny) [] r t := by
  obtain ⟨s, G, pg, hbooted, -, hrun⟩ := run_eq fun _ => 0
  have hcalm : ¬ (EXEC_PAGES ≤ s.phys.freelist.length ∧ fileRunsOver tiny = true) := by
    rintro ⟨-, hover⟩
    have hnot : fileRunsOver tiny = false := by decide +kernel
    rw [hnot] at hover
    cases hover
  obtain ⟨r, t, hexec, hres⟩ := (exec_returns_iff tiny (hrun []) hbooted.state
    (fetchArgs_empty hbooted) (List.Sublist.refl _)).mpr hcalm
  exact ⟨s, r, t, hrun [], hexec, hres⟩

end Xv6.Proofs
