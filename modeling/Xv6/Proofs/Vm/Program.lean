import Xv6.Proofs.Vm.ExecPanic
import Xv6.Proofs.Vm.Strings

/-!
# `Xv6.Proofs.Vm.Program`: what a program finds when it starts

When the new image is complete, `exec` writes the trapframe and frees the old image. Neither touches
the pages of the new one, so the process has in its memory what `Xv6.Proofs.Vm.Image` says
(`exec_exact`). Read through the new page table this is the image of the file
(`exec_loads_image`) and the argument stack (`exec_argument_stack`).

`exec_succeeds` gives a condition under which there is a new image: the segments can be loaded, the
arguments fit, and there are free pages enough.
-/

set_option autoImplicit false

namespace Xv6.Proofs

open Lib List

variable {a base : Nat} {file : List UInt8}

section Exec

variable {s : Os} {G : Ghost} {p : Slot} {sp : Space}

/-! ### Read through the page table -/

section Read

variable {ph : Phys} {argv : List (List UInt8)} {im : Image} {d : Dirs} {tf : Entry}
  {es : List Entry} {addrs other : List Nat} {c : Bytes}

section

variable (h : NewImage argv im ph.mem es addrs c)
include h

/-- What the user finds at an address outside the page below the stack. -/
theorem NewImage.userAt (hspace : AddressSpace ph d tf es other) (ha : a < im.sz)
    (hguard : a + 2 * PGSIZE < im.sz ∨ im.sz ≤ a + PGSIZE) :
    userAt ph d.root a = some (writeAll c (addrs ++ [im.sp]) (stackBytes argv addrs) a) := by
  have hlen := h.length
  have hlt : a / PGSIZE < es.length := by
    unfold PGSIZE at *
    omega
  have he : es[a / PGSIZE]? = some es[a / PGSIZE] := List.getElem?_eq_getElem hlt
  have hflags := h.user _ _ he (by unfold PGSIZE at *; omega)
  have hpg : userPage es a = some es[a / PGSIZE].page :=
    userPage_eq_some.mpr ⟨_, he, by rw [hflags]; decide, rfl⟩
  have hbyte := h.holds _ _ he _ (Nat.mod_lt a (by decide))
  rw [Nat.div_add_mod'] at hbyte
  rw [hspace.userAt, hpg, Option.map_some, hbyte]

/-- The guard page is not accessible to the program. -/
theorem NewImage.not_reachable (hspace : AddressSpace ph d tf es other)
    (hlo : im.sz ≤ a + 2 * PGSIZE) (hhi : a + PGSIZE < im.sz) : ¬ Reachable ph d.root a := by
  rw [hspace.reachable_iff, not_not]
  have hlen := h.length
  cases hpg : userPage es a with
  | none => rfl
  | some pg =>
    obtain ⟨e, he, hplv, -⟩ := userPage_eq_some.mp hpg
    exact absurd (h.guard _ e he (by unfold PGSIZE at *; omega)) hplv

theorem NewImage.length_addrs : addrs.length = argv.length := by
  have hlen := congrArg List.length h.slots
  rw [length_slots, stackSizes, strSizes] at hlen
  simp at hlen
  omega

theorem NewImage.sizes : (stackBytes argv addrs).map List.length = stackSizes argv := by
  simp [stackBytes, stackSizes, strSizes, length_pointerBytes, h.length_addrs]

/-- Below the stack nothing is written. -/
theorem NewImage.below (ha : a + PGSIZE < im.sz) :
    writeAll c (addrs ++ [im.sp]) (stackBytes argv addrs) a = c a := by
  obtain ⟨base, hbase, hfits⟩ := h.fits
  rw [← h.sizes] at hfits
  have hslots := h.slots
  rw [← h.sizes] at hslots
  rw [← hslots]
  exact writeAll_above _ c hfits a (Or.inr (by omega))

end

end Read

/-! ### When there is a new image -/

/-- `exec` starts the program. -/
theorem exec_succeeds (h : OsInv s G) (hp : G.held p = .space sp) {argv : List (List UInt8)}
    (hfile : Executable file) (hfits : StackFits argv) (hargc : argv.length ≤ MAXARG)
    (hmany : EXEC_PAGES ≤ s.phys.freelist.length) :
    ∃ r s', (exec p (some file) argv).run s = .ok (r, s') ∧ r ≠ -1 := by
  have ho := h.slot_owns p
  rw [hp] at ho
  have hexec := exec_exact h hp file argv
  have himage := execImage_spec file argv ho
  cases hrun : (exec p (some file) argv).run s with
  | error e =>
    have hpanic := wp_error (E := fun e => (execImage sp.trapframe file argv).run s.phys = .error e)
      hexec hrun
    exact absurd hfile (wp_error himage hpanic).2.2.2
  | ok res =>
    obtain ⟨r, s'⟩ := res
    refine ⟨r, s', rfl, ?_⟩
    rcases wp_ok hexec hrun with ⟨-, ph, hnone, -⟩ | ⟨im, d, es, addrs, c, hstart, -⟩
    · exact absurd ⟨hfile, hfits, hargc⟩ (((wp_ok himage hnone).2 hmany).2 rfl)
    · rw [hstart.ret]
      omega

/-! ### The image -/

/-- `exec` loads the image that the file describes. -/
theorem exec_loads_image {s' : Os} {r : Int} {file : List UInt8} {argv : List (List UInt8)}
    (h : OsInv s G) (hp : G.held p = .space sp) (hsmall : SmallOffsets file)
    (hrun : (exec p (some file) argv).run s = .ok (r, s')) (hr : r ≠ -1) :
    (∀ a < imageEnd 0 (fileSegs file), userAt s'.phys (s'.proc p).pagetable a =
      (lastCovering (fileSegs file) a).elim (some 0) fun hdr =>
        file[hdr.off + (a - hdr.vaddr)]?) ∧
    (s'.proc p).sz = PGROUNDUP (imageEnd 0 (fileSegs file)) + 2 * PGSIZE ∧
    (∀ a, PGROUNDUP (imageEnd 0 (fileSegs file)) ≤ a →
      a < PGROUNDUP (imageEnd 0 (fileSegs file)) + PGSIZE →
      ¬ Reachable s'.phys (s'.proc p).pagetable a) ∧
    getLE s'.phys.mem ((s'.proc p).trapframe + TF_ERA) 8
      = (elfhdr (readContents file 0 ELFHDR_SIZE)).entry := by
  obtain ⟨hneg, -⟩ | ⟨im, d, es, addrs, c, hstart, -⟩ := wp_ok (exec_exact h hp file argv) hrun
  · exact absurd hneg hr
  obtain ⟨hentry, hdescr⟩ := hstart.file
  obtain ⟨hsz, hc, hle, hin⟩ := hdescr hsmall
  have hround : imageEnd 0 (fileSegs file) ≤ PGROUNDUP (imageEnd 0 (fileSegs file)) := by
    rw [pgroundup_eq]
    exact le_npages hle
  rw [hstart.proc]
  generalize PGROUNDUP (imageEnd 0 (fileSegs file)) = round at hsz hround ⊢
  refine ⟨fun a ha => ?_, hsz, fun a hlo hhi => ?_, hstart.regs.2.2.trans hentry⟩
  · have hlt : a + 2 * PGSIZE < im.sz := by omega
    show userAt s'.phys d.root a = _
    rw [hstart.image.userAt hstart.space (by omega) (Or.inl hlt),
      hstart.image.below (by omega), hc, imageBytes_eq]
    cases hlast : lastCovering (fileSegs file) a with
    | none => rfl
    | some hdr =>
      have hcover := find?_some hlast
      rw [decide_eq_true_eq] at hcover
      have hmem : hdr ∈ fileSegs file := mem_reverse.mp (mem_of_find?_eq_some hlast)
      have hidx := hin hdr hmem (a - hdr.vaddr) (by omega)
      rw [Option.elim_some, Option.elim_some, getD_eq_getElem?_getD,
        List.getElem?_eq_getElem hidx, Option.getD_some]
  · exact hstart.image.not_reachable hstart.space (by omega) (by omega)

theorem tiny_executable : Executable tiny where
  header := by decide +kernel
  magic := by decide +kernel
  offsets := ⟨by decide +kernel, by decide +kernel⟩
  headers := by decide +kernel
  loads := by decide +kernel
  room := by decide +kernel

/-- The first process executes it. -/
theorem exec_tiny : ∃ s G sp r s', run (fun _ => 0) [] = .ok s ∧ OsInv s G ∧
    G.held initproc = .space sp ∧
    (exec initproc (some tiny) [[104, 105], []]).run s = .ok (r, s') ∧ r ≠ -1 := by
  obtain ⟨s, G, pg, hbooted, hfree, hrun⟩ := run_eq fun _ => 0
  obtain ⟨sp, hheld, -⟩ := hbooted.space
  have hpages : EXEC_PAGES = 260 := by decide
  have hnproc : NPROC = 32 := rfl
  obtain ⟨r, s', hexec, hr⟩ := exec_succeeds hbooted.inv.sys hheld tiny_executable
    (show StackFits [[104, 105], []] by unfold StackFits; decide) (by decide) (by omega)
  exact ⟨s, G, sp, r, s', hrun [], hbooted.inv.sys, hheld, hexec, hr⟩

/-- The first process starts a file with one segment of four bytes. -/
theorem exec_loads_image_tiny :
    ∃ s s' r, run (fun _ => 0) [] = .ok s ∧
      (exec initproc (some tiny) [[104, 105], []]).run s = .ok (r, s') ∧ r ≠ -1 ∧
      userAt s'.phys (s'.proc initproc).pagetable 3 = some 40 ∧
      userAt s'.phys (s'.proc initproc).pagetable 4 = some 0 ∧
      (s'.proc initproc).sz = 3 * PGSIZE ∧
      ¬ Reachable s'.phys (s'.proc initproc).pagetable PGSIZE ∧
      getLE s'.phys.mem ((s'.proc initproc).trapframe + TF_ERA) 8 = 8 := by
  obtain ⟨s, G, sp, r, s', hrun, hinv, hheld, hexec, hr⟩ := exec_tiny
  obtain ⟨hbytes, hsz, hguard, hentry⟩ :=
    exec_loads_image hinv hheld tiny_executable.offsets hexec hr
  have hend : imageEnd 0 (fileSegs tiny) = 5 := by decide +kernel
  rw [hend] at hbytes hsz hguard
  refine ⟨s, s', r, hrun, hexec, hr, ?_, ?_, hsz, hguard _ (by decide) (by decide), ?_⟩
  · rw [hbytes 3 (by decide)]
    decide +kernel
  · rw [hbytes 4 (by decide)]
    decide +kernel
  · rw [hentry]
    decide +kernel

/-! ### The arguments -/

/-- The bytes `bs` are at address `a` of the memory `f`. -/
def HoldsAt (f : Nat → Option UInt8) (a : Nat) (bs : List UInt8) : Prop :=
  ∀ j b, bs[j]? = some b → f (a + j) = some b

/-- The strings and the array of pointers, each as its address and its size. -/
def regions (argv : List (List UInt8)) (addrs : List Nat) (sp : Nat) : List (Nat × Nat) :=
  (addrs ++ [sp]).zip (stackSizes argv)

/-- The stack of a program of size `sz` in memory `f`: the arguments are at `addrs`, and the
pointers to them at `sp`. -/
structure ArgStack (f : Nat → Option UInt8) (sz sp : Nat) (argv : List (List UInt8))
    (addrs : List Nat) : Prop where
  aligned : sp % 16 = 0
  length : addrs.length = argv.length
  pointers : HoldsAt f sp (pointerBytes addrs)
  strings : ∀ (i : Nat) (str : List UInt8) (a : Nat), argv[i]? = some str → addrs[i]? = some a →
    HoldsAt f a (str ++ [0])
  inside : ∀ x ∈ regions argv addrs sp, sz ≤ x.1 + PGSIZE ∧ x.1 + x.2 ≤ sz
  disjoint : (regions argv addrs sp).Pairwise fun x y => x.1 + x.2 ≤ y.1 ∨ y.1 + y.2 ≤ x.1

section Stack

variable {ph : Phys} {argv : List (List UInt8)} {im : Image} {d : Dirs} {tf : Entry}
  {es : List Entry} {addrs other : List Nat} {c : Bytes}

/-- Everything that was pushed can be read. -/
theorem NewImage.pushed (h : NewImage argv im ph.mem es addrs c)
    (hspace : AddressSpace ph d tf es other) {i : Nat} {bs : List UInt8}
    (ha : (addrs ++ [im.sp])[i]? = some a) (hbs : (stackBytes argv addrs)[i]? = some bs) :
    HoldsAt (Proofs.userAt ph d.root) a bs := by
  intro j b hb
  obtain ⟨base, hbase, hfits⟩ := h.fits
  have hslots := h.slots
  have hn : (stackSizes argv)[i]? = some bs.length := by
    rw [← h.sizes, List.getElem?_map, hbs]
    rfl
  rw [← hslots] at ha
  obtain ⟨hlo, hhi, -⟩ := hfits.bounds _ i a bs.length ha hn
  have hj := (List.getElem?_eq_some_iff.mp hb).1
  rw [h.userAt hspace (by omega) (Or.inr (by omega))]
  rw [← h.sizes] at hfits hslots ha
  rw [← hslots]
  exact congrArg some (writeAll_apply _ c hfits i a bs ha hbs j b hb)

/-- The arguments are on the stack of the new image. -/
theorem NewImage.argStack (h : NewImage argv im ph.mem es addrs c)
    (hspace : AddressSpace ph d tf es other) :
    ArgStack (Proofs.userAt ph d.root) im.sz im.sp argv addrs := by
  obtain ⟨base, hbase, hfits⟩ := h.fits
  have hlen := h.length_addrs
  have hslots := h.slots
  -- a region is a slot with its size
  have hregion : ∀ (i : Nat) (x : Nat × Nat), (regions argv addrs im.sp)[i]? = some x →
      (Proofs.slots im.sz (stackSizes argv))[i]? = some x.1 ∧ (stackSizes argv)[i]? = some x.2 := by
    intro i x hx
    rw [hslots]
    exact List.getElem?_zip_eq_some.mp hx
  have hlast : (addrs ++ [im.sp])[argv.length]? = some im.sp := by
    rw [← hlen, List.getElem?_concat_length]
  refine ⟨?_, hlen, h.pushed hspace hlast ?_, fun i str a hstr ha => ?_, fun x hx => ?_, ?_⟩
  · rw [← hslots] at hlast
    have hsize : (stackSizes argv)[argv.length]? = some ((argv.length + 1) * 8) := by
      simp [stackSizes, strSizes]
    exact (hfits.bounds _ _ _ _ hlast hsize).2.2
  · simp [stackBytes]
  · have hi := (List.getElem?_eq_some_iff.mp hstr).1
    refine h.pushed hspace (i := i) ?_ ?_
    · rw [List.getElem?_append_left (by omega), ha]
    · rw [stackBytes, List.getElem?_append_left (by rwa [length_map]), List.getElem?_map, hstr]
      rfl
  · obtain ⟨i, hi⟩ := mem_iff_getElem?.mp hx
    obtain ⟨ha, hn⟩ := hregion i x hi
    obtain ⟨hlo, hhi, -⟩ := hfits.bounds _ i _ _ ha hn
    exact ⟨by omega, hhi⟩
  · rw [pairwise_iff_getElem]
    intro i j hi hj hij
    obtain ⟨ha, -⟩ := hregion i _ (List.getElem?_eq_getElem hi)
    obtain ⟨hb, hn⟩ := hregion j _ (List.getElem?_eq_getElem hj)
    exact Or.inr (hfits.below _ i j _ _ _ hij ha hb hn)

end Stack

/-- `fetchArgs` gives at most one argument per round, and one round finds the end. -/
theorem fetchArgs_length (uargv rounds : Nat) :
    ∀ (s : Os) (pages : List Nat) (argv : List (List UInt8)),
      wp (fetchArgs p uargv rounds pages argv)
        (fun r _ => ∀ args, r.2 = some args → args.length < argv.length + rounds)
        (fun _ => True) s := by
  induction rounds with
  | zero => exact fun s pages argv _ h => absurd h.symm (Option.some_ne_none _)
  | succ rounds ih =>
    intro s pages argv
    rw [fetchArgs, wp_bind]
    refine wp_any (fun uarg s₁ => ?_) fun _ => trivial
    cases uarg with
    | none => exact fun _ h => absurd h.symm (Option.some_ne_none _)
    | some uarg =>
      dsimp only
      refine wp_ite (fun _ => ?_) fun _ => ?_
      · rintro args ⟨⟩
        omega
      · rw [wp_bind]
        refine wp_any (fun page s₂ => ?_) fun _ => trivial
        cases page with
        | none => exact fun _ h => absurd h.symm (Option.some_ne_none _)
        | some page =>
          dsimp only
          rw [wp_bind]
          refine wp_any (fun bs s₃ => ?_) fun _ => trivial
          rw [wp_bind]
          refine wp_any (fun _ s₄ => ?_) fun _ => trivial
          refine wp_ite (fun _ _ h => absurd h.symm (Option.some_ne_none _)) fun _ => ?_
          refine wp_post (ih s₄ _ _) fun r s' hr args hargs => ?_
          have := hr args hargs
          rw [length_append, length_singleton] at this
          omega

/-- The bytes that a failed `exec` may have changed were free before. -/
theorem execImage_none {ph ph' : Phys} {trapframe : Nat} {other : List Nat}
    (ho : Owns ramPages ph (trapframe :: other)) {argv : List (List UInt8)}
    (hrun : (execImage trapframe file argv).run ph = .ok (none, ph')) :
    ∀ a, (∀ pg ∈ ph.freelist, ¬ InPage ramPages pg a) → ph'.mem a = ph.mem a := by
  obtain ⟨⟨-, hm⟩ | ⟨im, d, es, addrs, c, him, -⟩, -⟩ := wp_ok (execImage_spec file argv ho) hrun
  · intro a ha
    refine hm.agree a fun pg hpg => ha pg ?_
    rwa [append_nil] at hpg
  · cases him

/-- One entry of `ustack` per argument. -/
theorem pushArgs_length (pagetable base : Nat) (argv : List (List UInt8)) :
    ∀ (ph : Phys) (sp : Nat) (ustack : List Nat),
      wp (pushArgs pagetable base argv sp ustack)
        (fun r _ => ∀ sp' us, r = some (sp', us) → us.length = ustack.length + argv.length)
        (fun _ => True) ph := by
  induction argv with
  | nil =>
    rintro ph sp ustack sp' us ⟨⟩
    rfl
  | cons str argv ih =>
    intro ph sp ustack
    rw [pushArgs]
    refine wp_ite (fun _ _ _ h => absurd h.symm (Option.some_ne_none _)) fun _ => ?_
    refine wp_ite (fun _ _ _ h => absurd h.symm (Option.some_ne_none _)) fun _ => ?_
    rw [wp_bind]
    refine wp_any (fun r ph₁ => ?_) fun _ => trivial
    refine wp_ite (fun _ _ _ h => absurd h.symm (Option.some_ne_none _)) fun _ => ?_
    refine wp_post (ih ph₁ _ _) fun r' ph' hr sp' us hus => ?_
    rw [hr sp' us hus, length_append, length_singleton, length_cons]
    omega

/-- The pushes stay in the stack page, and fail if the page is too small. -/
theorem pushStack_page {ph : Phys} {d : Dirs} {tf : Entry} {es : List Entry} {other : List Nat}
    (hs : StackPage es base) (h : AddressSpace ph d tf es other) {argv : List (List UInt8)}
    (hargc : argv.length ≤ MAXARG) :
    ∃ r ph', (pushStack d.root base (base + PGSIZE) argv).run ph = .ok (r, ph') ∧
      (r = none ↔ ¬ StackFits argv) ∧
      ∀ a, ph'.mem a ≠ ph.mem a →
        ∃ va, base ≤ va ∧ va < base + PGSIZE ∧ userByte ph d.root va = some a := by
  obtain ⟨r, mem', hrun, hw, hcase⟩ := pushStack_exact hs h argv
  rw [fits_page rfl hs.aligned] at hcase
  refine ⟨r, _, hrun, ?_, fun a ha => ?_⟩
  · rcases hcase with ⟨rfl, hno⟩ | ⟨hfits, -, addrs, sp, -, -, rfl, -⟩
    · exact iff_of_true rfl fun hfits => hno ⟨hfits, hargc⟩
    · exact iff_of_false (Option.some_ne_none _) (not_not_intro hfits)
  · obtain ⟨va, pg, hlo, hpg, rfl⟩ := hw a ha
    refine ⟨va, hlo, ?_, ?_⟩
    · by_contra hhi
      rw [hs.last va (Nat.le_of_not_lt hhi)] at hpg
      cases hpg
    · rw [h.userByte, hpg]
      rfl

/-- The argument stack of a new program. -/
theorem exec_argument_stack (h : OsInv s G) (hp : G.held p = .space sp) (file : List UInt8)
    {argv : List (List UInt8)} (hargc : argv.length ≤ 31) :
    (∀ r s', (exec p (some file) argv).run s = .ok (r, s') → r ≠ -1 → r = argv.length ∧
      getLE s'.phys.mem ((s'.proc p).trapframe + TF_A1) 8
        = getLE s'.phys.mem ((s'.proc p).trapframe + TF_SP) 8 ∧
      ∃ addrs, ArgStack (userAt s'.phys (s'.proc p).pagetable) (s'.proc p).sz
        (getLE s'.phys.mem ((s'.proc p).trapframe + TF_SP) 8) argv addrs) ∧
    -- if they do not fit, `exec` fails; a panic comes before there is a stack
    (¬ StackFits argv → ExecPanics s.phys (some file) ∨
      ∃ s', (exec p (some file) argv).run s = .ok (-1, s') ∧ s'.proc p = s.proc p ∧
        ∀ a, (∀ pg ∈ s.phys.freelist, ¬ InPage ramPages pg a) →
          s'.phys.mem a = s.phys.mem a) ∧
    -- what is pushed goes to the stack page
    (∀ ph d tf es other base, StackPage es base → AddressSpace ph d tf es other →
      ∃ r ph', (pushStack d.root base (base + PGSIZE) argv).run ph = .ok (r, ph') ∧
        (r = none ↔ ¬ StackFits argv) ∧
        ∀ a, ph'.mem a ≠ ph.mem a →
          ∃ va, base ≤ va ∧ va < base + PGSIZE ∧ userByte ph d.root va = some a) ∧
    -- the entries of `ustack`, with the 0 that follows them
    (∀ (ph ph' : Phys) (pagetable base sp sp' : Nat) (ustack : List Nat),
      (pushArgs pagetable base argv sp []).run ph = .ok (some (sp', ustack), ph') →
      ∀ i < (ustack ++ [0]).length, i < MAXARG) ∧
    ∀ uargv pages args s', (fetchArgs p uargv MAXARG [] []).run s = .ok ((pages, some args), s') →
      args.length ≤ 31 := by
  have hmax : MAXARG = 32 := rfl
  have hexec := exec_exact h hp file argv
  refine ⟨fun r s' hrun hr => ?_, fun hno => ?_, fun ph d tf es other base hs hspace =>
    pushStack_page hs hspace (by omega), fun ph ph' pagetable base sp₀ sp' ustack hrun i hi => ?_,
    fun uargv pages args s' hrun => ?_⟩
  · obtain ⟨hneg, -⟩ | ⟨im, d, es, addrs, c, hstart, -⟩ := wp_ok hexec hrun
    · exact absurd hneg hr
    · obtain ⟨hsp, ha1, -⟩ := hstart.regs
      rw [hstart.proc]
      refine ⟨hstart.ret, ha1.trans hsp.symm, addrs, ?_⟩
      rw [hsp]
      exact hstart.image.argStack hstart.space
  · cases hrun : (exec p (some file) argv).run s with
    | error e => exact Or.inl (wp_error (exec_spec h hp (some file) argv) hrun).2
    | ok res =>
      obtain ⟨r, s'⟩ := res
      obtain ⟨rfl, ph, hnone, rfl⟩ | ⟨im, d, es, addrs, c, hstart, -⟩ := wp_ok hexec hrun
      · have ho := h.slot_owns p
        rw [hp] at ho
        exact Or.inr ⟨_, rfl, rfl, execImage_none ho hnone⟩
      · obtain ⟨base, hbase, hfits⟩ := hstart.image.fits
        refine absurd ((fits_page hbase ?_ argv).mp hfits) hno
        have hlen := hstart.image.length
        unfold PGSIZE at *
        omega
  · have hlen := wp_ok (pushArgs_length pagetable base argv ph sp₀ []) hrun sp' ustack rfl
    rw [length_nil] at hlen
    rw [length_append, length_singleton] at hi
    omega
  · have hlen := wp_ok (fetchArgs_length uargv MAXARG s [] []) hrun args rfl
    rw [length_nil] at hlen
    omega

/-- The first process starts with two arguments, and a page is too small for one of 4096 bytes. -/
theorem exec_argument_stack_tiny :
    (∃ s s' r addrs, run (fun _ => 0) [] = .ok s ∧
      (exec initproc (some tiny) [[104, 105], []]).run s = .ok (r, s') ∧ r = 2 ∧
      ArgStack (userAt s'.phys (s'.proc initproc).pagetable) (s'.proc initproc).sz
        (getLE s'.phys.mem ((s'.proc initproc).trapframe + TF_SP) 8) [[104, 105], []] addrs) ∧
    ¬ StackFits [List.replicate 4096 1] := by
  constructor
  · obtain ⟨s, G, sp, r, s', hrun, hinv, hheld, hexec, hr⟩ := exec_tiny
    obtain ⟨hstack, -⟩ := exec_argument_stack hinv hheld tiny
      (by decide : ([[104, 105], []] : List (List UInt8)).length ≤ 31)
    obtain ⟨hret, -, addrs, hargs⟩ := hstack r s' hexec hr
    exact ⟨s, s', r, addrs, hrun, hexec, hret, hargs⟩
  · unfold StackFits stackSizes strSizes
    rw [map_singleton, length_replicate]
    decide

end Exec

end Xv6.Proofs
