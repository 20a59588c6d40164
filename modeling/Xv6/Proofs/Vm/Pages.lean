import Xv6.Proofs.Vm.Run

/-!
# `Xv6.Proofs.Vm.Pages`: page conservation and the shape of address spaces

`owners s` lists the pages in use, with repetitions if there were any, by reading the system as the
kernel does: it follows the entries of the page tables in memory, asks `walk` for the user's pages,
and goes through the process table and the file table. Together with the free list these are all
pages, each once (`page_conservation`).

`space_shape` says what an address space looks like through `walk`, which is why the calls on
processes do not panic.
-/

set_option autoImplicit false

namespace Xv6.Proofs

open Lib List

/-! ### The owners -/

/-- The pages of a page table with `level` levels of directories. -/
def tablePages (mem : Bytes) : (level pagetable : Nat) → List Nat
  | 0, pagetable => [pagetable]
  | level + 1, pagetable => pagetable :: (List.range 512).flatMap fun i =>
      if pteAt mem (pagetable + 8 * i) &&& PTE_V ≠ 0 then
        tablePages mem level (dmwin (PTE2PA (pteAt mem (pagetable + 8 * i))))
      else []

/-- The page that is mapped at `va`. -/
def mappedAt (ph : Phys) (pagetable va : Nat) : Option Nat :=
  let pte := entryAt ph pagetable va
  if pte &&& PTE_V ≠ 0 then some (dmwin (PTE2PA pte)) else none

/-- The page table, the pages mapped below `sz` and the trapframe of a live or zombie process. -/
def procPages (s : Os) (p : Slot) : List Nat :=
  if (s.proc p).state = .unused then []
  else
    tablePages s.phys.mem 3 (s.proc p).pagetable ++
      (List.range (PGROUNDUP (s.proc p).sz / PGSIZE)).filterMap
        (fun i => mappedAt s.phys (s.proc p).pagetable (i * PGSIZE)) ++
      [(s.proc p).trapframe]

/-- The pipe structures with a live end. -/
def pipePages (s : Os) : List Nat :=
  ((List.finRange NFILE).filterMap fun f =>
    if 0 < (s.file f).ref ∧ (s.file f).type = .pipe then some (s.file f).pipe else none).dedup

/-- The kernel's page table and the kernel stacks. -/
def kernelPages (s : Os) : List Nat :=
  tablePages s.phys.mem 3 s.kpgtbl ++
    (List.range NPROC).filterMap fun p => mappedAt s.phys s.kpgtbl (KSTACK p)

def owners (s : Os) : List Nat :=
  (List.finRange NPROC).flatMap (procPages s) ++ (pipePages s ++ kernelPages s)

/-! ### The owners are those of the ghost state -/

/-- A directory and the table below it. -/
theorem tablePages_dir {mem : Bytes} {pg next : Nat} (level : Nat)
    (hw : Words mem pg (onlyDir next)) (hnext : IsPage next) :
    tablePages mem (level + 1) pg = pg :: tablePages mem level next := by
  have hfirst : pteAt mem (pg + 8 * 0) = dirPte next := hw 0 (by decide)
  have hrest : ∀ i ∈ List.range 511, pteAt mem (pg + 8 * (i + 1)) = 0 := fun i hi => by
    have hi' := mem_range.mp hi
    exact hw (i + 1) (by omega)
  rw [tablePages, range_succ_eq_map, flatMap_cons, hfirst, if_pos (dirPte_v next),
    dirPte_dmwin hnext, flatMap_map]
  congr 1
  refine (congrArg _ (flatMap_eq_nil_iff.mpr fun i hi => ?_)).trans (append_nil _)
  show (if pteAt mem (pg + 8 * (i + 1)) &&& PTE_V ≠ 0 then _ else _) = _
  rw [hrest i hi]
  rfl

theorem tablePages_chain {mem : Bytes} {d : Dirs} {m : PageMap} (hc : Chain mem d m) :
    tablePages mem 3 d.root = d.list := by
  have hpage : ∀ pg ∈ d.list, IsPage pg := hc.pages
  rw [tablePages_dir 2 hc.root (hpage _ (by simp [Dirs.list])),
    tablePages_dir 1 hc.p2 (hpage _ (by simp [Dirs.list])),
    tablePages_dir 0 hc.p1 (hpage _ (by simp [Dirs.list])), tablePages]
  rfl

theorem Tables.mappedAt_va {ph : Phys} {d : Dirs} {m : PageMap} (hc : Tables ph.mem d m) {va : Nat}
    (hva : va < MAXVA) : mappedAt ph d.root va = (m (va / PGSIZE)).map Entry.page := by
  unfold mappedAt
  rw [hc.entryAt_va hva]
  cases hm : m (va / PGSIZE) with
  | none => rfl
  | some e =>
    rw [pteOf_some]
    dsimp only
    rw [if_pos (Entry.pte_v e), (hc.valid _ e hm).dmwin]
    rfl

theorem mappedAt_chain {ph : Phys} {d : Dirs} {m : PageMap} (hc : Chain ph.mem d m) {i : Nat}
    (hi : i < MAXVA / PGSIZE) : mappedAt ph d.root (i * PGSIZE) = (m i).map Entry.page := by
  have hva : i * PGSIZE < MAXVA := by
    unfold MAXVA PGSIZE at *
    omega
  rw [hc.mappedAt_va hva, Nat.mul_div_cancel i (by decide)]

/-- Reading a list by its indices. -/
theorem filterMap_range {α : Type} (xs : List α) {f : Nat → Option α}
    (h : ∀ i, i < xs.length → f i = xs[i]?) : (List.range xs.length).filterMap f = xs := by
  have hmap : ∀ i ∈ List.range xs.length, f i = xs[i]? := fun i hi => h i (mem_range.mp hi)
  rw [filterMap_congr hmap]
  clear h hmap
  induction xs with
  | nil => rfl
  | cons x xs ih =>
    rw [length_cons, range_succ_eq_map, filterMap_cons, filterMap_map]
    show x :: _ = _
    congr 1

section Owners

variable {s : Os} {G : Ghost}

/-- The pages that are found from a slot are those that it holds. -/
theorem procPages_perm (h : Inv s G) (p : Slot) : (procPages s p).Perm (G.held p).pages := by
  unfold procPages
  by_cases hst : (s.proc p).state = .unused
  · rw [if_pos hst, h.settled.unused p hst]
    exact List.Perm.refl _
  · obtain ⟨sp, hheld⟩ := h.settled.used p hst
    obtain ⟨htf, hroot, hsp⟩ := h.sys.space hheld
    have hlen : (sp.es.map Entry.page).length = npages (s.proc p).sz := by
      rw [length_map, hsp.length]
    have hle := npages_le hsp.le
    have hmapped : (List.range (npages (s.proc p).sz)).filterMap
        (fun i => mappedAt s.phys sp.d.root (i * PGSIZE)) = sp.es.map Entry.page := by
      rw [← hlen]
      refine filterMap_range _ fun i hi => ?_
      rw [hlen] at hi
      rw [tfIndex_eq] at hle
      rw [mappedAt_chain hsp.chain (by unfold MAXVA PGSIZE; omega), userMap_get (by
        rw [tfIndex_eq]; omega), getElem?_map]
    rw [if_neg hst, hheld, htf, hroot, tablePages_chain hsp.chain]
    show (sp.d.list ++ (List.range (npages (s.proc p).sz)).filterMap _ ++ [sp.trapframe]).Perm _
    rw [hmapped]
    exact perm_append_singleton _ _

/-- The pages that are found from the files are those of the pipes. -/
theorem pipePages_perm (h : OsInv s G) : (pipePages s).Perm G.pipes := by
  have hnodup : G.pipes.Nodup := (nodup_append.mp h.pipes_owns.nodup).2.1
  refine (perm_ext_iff_of_nodup (nodup_dedup _) hnodup).mpr fun pi => ?_
  rw [mem_dedup, mem_filterMap]
  constructor
  · rintro ⟨f, -, hf⟩
    split at hf
    · rename_i hlive
      exact h.pipes.page pi _ f ⟨hlive.2, Option.some.inj hf, rfl⟩
    · exact absurd hf nofun
  · intro hpi
    obtain ⟨w, f, htype, hpipe, -⟩ := h.pipes.live pi hpi
    refine ⟨f, mem_finRange f, ?_⟩
    have href : 0 < (s.file f).ref := by
      refine Nat.pos_of_ne_zero fun hzero => ?_
      rw [h.pipes.closed f hzero] at htype
      exact absurd htype nofun
    rw [if_pos ⟨href, htype⟩, hpipe]

/-- The pages that are found from the kernel page table. -/
theorem kernelPages_eq (h : OsInv s G) : kernelPages s = G.kd.list ++ G.kstack := by
  unfold kernelPages
  rw [h.kpgtbl, tablePages_chain h.kernel, ← h.nstacks]
  congr 1
  refine filterMap_range _ fun k hk => ?_
  obtain ⟨hva, halign, hidx⟩ := kstack_index (h.nstacks ▸ hk)
  have hva' : KSTACK k = (253 - 2 * k) * PGSIZE := by
    rw [← hidx]
    exact (Nat.div_mul_cancel (Nat.dvd_of_mod_eq_zero halign)).symm
  have hk' : k < NPROC := h.nstacks ▸ hk
  unfold NPROC at hk'
  rw [hva', mappedAt_chain h.kernel (by unfold MAXVA PGSIZE; omega), kernelMap,
    if_pos (by omega), show (253 - (253 - 2 * k)) / 2 = k by omega, Option.map_map]
  exact Option.map_id_apply

/-- Every page that is not free has one owner. -/
theorem owners_perm (h : Inv s G) : (owners s ++ G.aside).Perm G.pages := by
  have hkernel : G.kernel = kernelPages s ++ G.aside := by
    rw [kernelPages_eq h.sys, Ghost.kernel, h.settled.args, append_nil, append_assoc]
  unfold owners Ghost.pages
  rw [hkernel, append_assoc, append_assoc]
  refine List.Perm.append ?_ ((pipePages_perm h.sys).append_right _)
  exact List.Perm.flatMap_left _ fun p _ => procPages_perm h p

end Owners

/-- Each page of `[RAMBASE, RAMSTOP)` is on the free list once and has no owner, or it is not on
the free list and has one owner, and nothing else is ever on the free list or owned. Here `free` are
the pages that are left free when the calls begin. There may be any number of them, so each call may
fail at each of its allocations; the others are not counted. -/
theorem page_conservation {mem : Bytes} {s₀ s : Os} {free : List Nat}
    {calls : List (Slot × Call)} (hrun : RunWith mem s₀ free calls s) :
    (∀ pg, IsPage pg → (pg ∈ s₀.phys.freelist → pg ∈ free) →
      (s.phys.freelist.count pg = 1 ∧ (owners s).count pg = 0) ∨
        (s.phys.freelist.count pg = 0 ∧ (owners s).count pg = 1)) ∧
    ∀ pg ∈ s.phys.freelist ++ owners s, IsPage pg ∧ (pg ∈ s₀.phys.freelist → pg ∈ free) := by
  obtain ⟨G, h, hout⟩ := hrun.inv
  have hall : (s.phys.freelist ++ owners s ++ G.aside).Perm allPages := by
    rw [append_assoc]
    exact ((owners_perm h).append_left _).trans h.sys.pages
  have hnodup := hall.nodup_iff.mpr allPages_nodup
  refine ⟨fun pg hpg hleft => ?_, fun pg hpg => ?_⟩
  · have hcount := hall.count_eq pg
    have hnot : pg ∉ G.aside := fun hin => ((hout pg).mp hin).2 (hleft ((hout pg).mp hin).1)
    rw [count_append, count_append, count_eq_zero_of_not_mem hnot,
      count_eq_one_of_mem allPages_nodup (mem_allPages.mpr hpg)] at hcount
    omega
  · refine ⟨mem_allPages.mp (hall.subset (mem_append_left _ hpg)), fun hin => ?_⟩
    by_contra hgone
    exact (nodup_append.mp hnodup).2.2 pg hpg pg ((hout pg).mpr ⟨hin, hgone⟩) rfl

/-- A child grows, makes a pipe, exits and is waited for. -/
def lifeOfChild : List (Slot × Call) :=
  let child : Slot := ⟨1, by decide⟩
  [(initproc, .fork), (child, .sbrk 8192), (child, .pipe 0), (child, .exit 0), (initproc, .wait 0)]

theorem lifeOfChild_calm : ∀ c ∈ lifeOfChild, ∀ e, ¬ CallPanic c.1 c.2 e := by
  intro c hc e
  simp only [lifeOfChild, mem_cons, not_mem_nil, or_false] at hc
  rcases hc with rfl | rfl | rfl | rfl | rfl <;> simp [CallPanic, initproc]

/-- The six pages that are free are just enough for the `fork`, so that the child can neither grow
nor make a pipe. -/
theorem page_conservation_lifeOfChild :
    ∃ s₀ s, RunWith (fun _ => 0) s₀ (s₀.phys.freelist.take 6) lifeOfChild s ∧
      ∀ pg ∈ s₀.phys.freelist.take 6,
        s.phys.freelist.count pg = 1 ∧ (owners s).count pg = 0 ∨
          s.phys.freelist.count pg = 0 ∧ (owners s).count pg = 1 := by
  obtain ⟨s₀, G, pg, hbooted, -, hboot⟩ := run_eq fun _ => 0
  obtain ⟨s, hrun⟩ := runWith_returns (hboot []) (take_sublist 6 _) lifeOfChild_calm
  exact ⟨s₀, s, hrun, fun pg hpg => (page_conservation hrun).1 pg
    (hbooted.inv.sys.owns.valid pg (mem_append_left _ (mem_of_mem_take hpg))) fun _ => hpg⟩

/-! ### The shape of an address space -/

/-- The address space of a process, as `walk` sees it. -/
structure Shape (ph : Phys) (q : UProc) : Prop where
  le : q.sz ≤ TRAPFRAME
  /-- the user's pages are mapped by valid leaf entries -/
  mapped : ∀ i, i * PGSIZE < PGROUNDUP q.sz →
    entryAt ph q.pagetable (i * PGSIZE) &&& PTE_V ≠ 0 ∧
      PTE_FLAGS (entryAt ph q.pagetable (i * PGSIZE)) ≠ PTE_V
  unmapped : ∀ i, PGROUNDUP q.sz ≤ i * PGSIZE → i * PGSIZE < TRAPFRAME →
    entryAt ph q.pagetable (i * PGSIZE) &&& PTE_V = 0
  trapframe : mappedAt ph q.pagetable TRAPFRAME = some q.trapframe ∧
    entryAt ph q.pagetable TRAPFRAME &&& PTE_PLV = 0

/-- An address space has the shape that the calls rely on. -/
theorem shape_of_space {ph : Phys} {q : UProc} {sp : Space} (htf : q.trapframe = sp.trapframe)
    (hroot : q.pagetable = sp.d.root)
    (h : UserSpace ph.mem sp.trapframe sp.d sp.es q.sz) : Shape ph q := by
  have hle := h.le
  have hlen := h.length
  have hent : ∀ i, i < tfIndex → entryAt ph sp.d.root (i * PGSIZE) = pteOf sp.es[i]? := by
    intro i hi
    rw [entryAt_chain h.chain (by rw [tfIndex_eq] at hi; unfold MAXVA PGSIZE; omega),
      userMap_get hi]
  have htop : TRAPFRAME = tfIndex * PGSIZE := by decide
  have htfi : userMap (some (tfEntry sp.trapframe)) sp.es tfIndex = some (tfEntry sp.trapframe) :=
    if_pos rfl
  have hmax : tfIndex < MAXVA / PGSIZE := by decide
  have hnle := npages_le hle
  refine ⟨hle, fun i hi => ?_, fun i hi hi' => ?_, ?_, ?_⟩
  · rw [pgroundup_eq, ← hlen] at hi
    have hin : i < sp.es.length := Nat.lt_of_mul_lt_mul_right hi
    rw [hroot, hent i (by omega), getElem?_eq_getElem hin, pteOf_some]
    have hmap : userMap (some (tfEntry sp.trapframe)) sp.es i = some sp.es[i] := by
      rw [userMap_get (by omega), getElem?_eq_getElem hin]
    exact ⟨Entry.pte_v _, (h.chain.valid i _ hmap).flags_ne_iff.mpr (h.chain.leaf i _ hmap)⟩
  · rw [pgroundup_eq, ← hlen] at hi
    rw [htop] at hi'
    have hout : sp.es.length ≤ i := Nat.le_of_mul_le_mul_right hi (by decide)
    rw [hroot, hent i (Nat.lt_of_mul_lt_mul_right hi'), getElem?_eq_none hout]
    rfl
  · rw [hroot, htop, mappedAt_chain h.chain hmax, htfi, htf]
    rfl
  · rw [hroot, htop, entryAt_chain h.chain hmax, htfi, pteOf_some, Entry.pte_plv]
    show PTE_TRAPFRAME &&& PTE_PLV = 0
    decide

/-- Every process with a page table has an address space of this shape. So `fork`, `sbrk` and
`wait` return, and `exit` panics for `init` alone. -/
theorem address_space_shape {mem : Bytes} {s₀ s : Os} {free : List Nat}
    {calls : List (Slot × Call)} (hrun : RunWith mem s₀ free calls s) :
    (∀ p, (s.proc p).pagetable ≠ 0 → Shape s.phys (s.proc p)) ∧
    ∀ p, (s.proc p).state = .runnable →
      (∃ r s', (fork p).run s = .ok (r, s')) ∧
      (∀ n, ∃ r s', (sys_sbrk p n).run s = .ok (r, s')) ∧
      (∀ addr, ∃ r s', (wait p addr).run s = .ok (r, s')) ∧
      ∀ status, (p ≠ initproc → ∃ s', (exit p status).run s = .ok ((), s')) ∧
        (p = initproc → (exit p status).run s = .error .initExiting) := by
  obtain ⟨G, h, -⟩ := hrun.inv
  refine ⟨fun p hpt => ?_, fun p hst => ?_⟩
  · have hused : (s.proc p).state ≠ .unused := fun hst => by
      have hslot := h.sys.slots p
      rw [h.settled.unused p hst] at hslot
      exact hpt hslot.2.1
    obtain ⟨sp, hheld⟩ := h.settled.used p hused
    obtain ⟨htf, hroot, hsp⟩ := h.sys.space hheld
    exact shape_of_space htf hroot hsp
  · have hp : Active s p := ⟨by rw [hst]; decide, by rw [hst]; decide⟩
    obtain ⟨r, s₁, -, hfork, -⟩ := fork_spec h hp
    refine ⟨⟨r, s₁, hfork⟩, fun n => ?_, fun addr => ?_, fun status => ⟨fun hne => ?_, ?_⟩⟩
    · obtain ⟨r, s', -, hsbrk, -⟩ := sys_sbrk_spec h hp.1 n
      exact ⟨r, s', hsbrk⟩
    · obtain ⟨r, s', -, hwait, -⟩ := wait_spec h hp.1 addr
      exact ⟨r, s', hwait⟩
    · obtain ⟨s', -, hexit, -⟩ := exit_spec h hp hne status
      exact ⟨s', hexit⟩
    · rintro rfl
      unfold exit
      rw [if_pos rfl]
      rfl

/-- A child grows, makes a pipe, exits and is waited for. -/
theorem address_space_shape_lifeOfChild :
    ∃ s₀ s, RunWith (fun _ => 0) s₀ s₀.phys.freelist lifeOfChild s ∧
      ∀ p, (s.proc p).pagetable ≠ 0 → Shape s.phys (s.proc p) := by
  obtain ⟨s₀, G, pg, -, -, hboot⟩ := run_eq fun _ => 0
  obtain ⟨s, hrun⟩ := runWith_returns (hboot []) (List.Sublist.refl _) lifeOfChild_calm
  exact ⟨s₀, s, hrun, (address_space_shape hrun).1⟩

end Xv6.Proofs
