import Xv6.Proofs.Vm.Procs

/-!
# `Xv6.Proofs.Vm.Boot`: the state after booting

`kinit` puts every page on the free list. `vminit` takes a page table and 32 stacks from it, and
`userinit` makes the first process with one page of code. None of this fails, whatever memory
holds at power-on, because there are 32768 pages and fewer than 100 are asked for. `boot_spec`
therefore has no hypothesis, and it also says how many pages are left.
-/

set_option autoImplicit false

namespace Xv6.Proofs

open Lib List
open Function (update update_of_ne update_self)

variable {kstack : List Nat} {d : Dirs}

/-! ### `kinit` -/

/-- The last `n` pages of memory. -/
def lastPages (n : Nat) : List Nat :=
  (List.range n).map fun i => RAMSTOP - n * PGSIZE + i * PGSIZE

theorem lastPages_succ {n : Nat} (h : n < 32768) :
    lastPages (n + 1) = (RAMSTOP - (n + 1) * PGSIZE) :: lastPages n := by
  unfold lastPages
  rw [range_succ_eq_map, map_cons, map_map]
  refine cons_eq_cons.mpr ⟨by rw [Nat.zero_mul, Nat.add_zero],
    map_congr_left fun i _ => ?_⟩
  show RAMSTOP - (n + 1) * PGSIZE + (i + 1) * PGSIZE = _
  unfold RAMSTOP RAMBASE PGSIZE
  omega

theorem lastPages_all : lastPages 32768 = allPages := by
  unfold lastPages allPages
  refine map_congr_left fun i _ => ?_
  unfold RAMSTOP RAMBASE PGSIZE
  omega

/-- `freerange` puts the pages on the list one by one, so the last one ends up first. -/
theorem freerange_run (n : Nat) :
    ∀ (ph : Phys), n ≤ 32768 → ∃ mem,
      (freerange (RAMSTOP - n * PGSIZE) RAMSTOP).run ph
        = .ok ((), ⟨mem, (lastPages n).reverse ++ ph.freelist⟩) := by
  induction n with
  | zero =>
    intro ph _
    refine ⟨ph.mem, ?_⟩
    rw [freerange, if_neg (by decide)]
    rfl
  | succ n ih =>
    intro ph hn
    have hpage : IsPage (RAMSTOP - (n + 1) * PGSIZE) := by
      unfold IsPage RAMSTOP RAMBASE PGSIZE
      omega
    have hnext : RAMSTOP - (n + 1) * PGSIZE + PGSIZE = RAMSTOP - n * PGSIZE := by
      unfold RAMSTOP RAMBASE PGSIZE
      omega
    have hle : RAMSTOP - (n + 1) * PGSIZE + PGSIZE ≤ RAMSTOP := by
      rw [hnext]
      exact Nat.sub_le _ _
    obtain ⟨mem, hrun⟩ := ih ⟨fill ph.mem (RAMSTOP - (n + 1) * PGSIZE) 1 PGSIZE,
      (RAMSTOP - (n + 1) * PGSIZE) :: ph.freelist⟩ (by omega)
    refine ⟨mem, ?_⟩
    rw [freerange, if_pos hle, run_bind_ok (kfree_run hpage), hnext, hrun,
      lastPages_succ (by omega), reverse_cons, append_assoc]
    rfl

/-- The order of the list is left open, so that nothing downstream computes with it. -/
theorem kinit_spec (mem : Bytes) :
    ∃ mem' free, kinit.run ⟨mem, []⟩ = .ok ((), ⟨mem', free⟩) ∧ free.Perm allPages ∧
      free.length = 32768 := by
  obtain ⟨mem', hrun⟩ := freerange_run 32768 ⟨mem, []⟩ (Nat.le_refl _)
  rw [lastPages_all, append_nil] at hrun
  refine ⟨mem', allPages.reverse, hrun, reverse_perm _, ?_⟩
  rw [length_reverse, allPages, length_map, length_range]

/-! ### `vminit` -/

/-- The kernel's page table while `proc_mapstacks` runs. It has no directories before the first
stack is mapped. -/
def Mapping (ph₀ : Phys) (kpgtbl : Nat) (kstack : List Nat) (ph : Phys) : Prop :=
  (kstack = [] ∧ Words ph.mem kpgtbl (fun _ => 0) ∧ Moves ramPages ph₀ [] ph [kpgtbl]) ∨
  ∃ d : Dirs, d.root = kpgtbl ∧ Chain ph.mem d (kernelMap kstack) ∧
    Moves ramPages ph₀ [] ph (d.list ++ kstack)

theorem kstack_index {k : Nat} (hk : k < NPROC) :
    KSTACK k < MAXVA ∧ KSTACK k % PGSIZE = 0 ∧ KSTACK k / PGSIZE = 253 - 2 * k := by
  unfold NPROC at hk
  unfold KSTACK TRAPFRAME MAXVA PGSIZE
  omega

theorem kernelMap_nil : kernelMap [] = fun _ => none := by
  funext i
  unfold kernelMap
  split
  · rfl
  · rfl

/-- The next stack has its place in the kernel page table. -/
theorem kernelMap_append (h : kstack.length < NPROC) (pg : Nat) :
    update (kernelMap kstack) (253 - 2 * kstack.length) (some ⟨pg, PTE_TRAPFRAME⟩)
      = kernelMap (kstack ++ [pg]) := by
  unfold NPROC at h
  funext i
  unfold kernelMap
  by_cases hi : i = 253 - 2 * kstack.length
  · rw [hi, update_self, if_pos (by omega),
      show (253 - (253 - 2 * kstack.length)) / 2 = kstack.length by omega]
    simp
  · rw [update_of_ne hi]
    by_cases hodd : i % 2 = 1 ∧ i ≤ 253
    · rw [if_pos hodd, if_pos hodd]
      by_cases hlt : (253 - i) / 2 < kstack.length
      · rw [getElem?_append_left hlt]
      · rw [getElem?_eq_none (by omega), getElem?_eq_none]
        rw [length_append, length_singleton]
        omega
    · rw [if_neg hodd, if_neg hodd]

theorem kernelMap_next (h : kstack.length < NPROC) :
    kernelMap kstack (253 - 2 * kstack.length) = none := by
  unfold NPROC at h
  unfold kernelMap
  rw [if_pos (by omega), show (253 - (253 - 2 * kstack.length)) / 2 = kstack.length by omega,
    getElem?_eq_none (Nat.le_refl _)]
  rfl

/-- A stack is mapped with the flags of a trapframe: the kernel's, without a `PTE_PLV` bit. -/
theorem kstack_ok {pg : Nat} (h : IsPage pg) : Entry.Ok ⟨pg, PTE_TRAPFRAME⟩ := tfEntry_ok h

/-- One round of `proc_mapstacks`. -/
theorem mapstack_run {ph₀ ph : Phys} {kpgtbl : Nat}
    (ho : Owns ramPages ph₀ []) (hmany : 100 ≤ ph₀.freelist.length)
    (h : Mapping ph₀ kpgtbl kstack ph) (hlen : kstack.length < NPROC) :
    ∃ pg free ph', ph.freelist = pg :: free ∧
      (mappages kpgtbl (KSTACK kstack.length) PGSIZE pg PTE_TRAPFRAME).run
        ⟨fill ph.mem pg 5 PGSIZE, free⟩ = .ok (0, ph') ∧
      Mapping ph₀ kpgtbl (kstack ++ [pg]) ph' := by
  obtain ⟨hva, halign, hidx⟩ := kstack_index hlen
  unfold NPROC at hlen
  rcases h with ⟨rfl, hw, hm⟩ | ⟨d, rfl, hc, hm⟩
  · -- the first stack: the directories are made on the way
    have hmlen := hm.length
    simp only [length_cons, length_nil] at hmlen
    cases hfree : ph.freelist with
    | nil =>
      rw [hfree, length_nil] at hmlen
      omega
    | cons pg free =>
      set ph₁ : Phys := ⟨fill ph.mem pg 5 PGSIZE, free⟩ with hph₁
      have hm₁ : Moves ramPages ph [kpgtbl] ph₁ ([kpgtbl] ++ [pg]) :=
        (moves_kalloc hfree _).trans (Moves.of_perm (perm_append_singleton _ _))
      have ho₁ := (ho.moves hm).moves hm₁
      have hpg : IsPage pg := ho₁.own_valid (by simp)
      have hroot : IsPage kpgtbl := ho₁.own_valid (by simp)
      have hne : pg ≠ kpgtbl := by
        have hnodup := (nodup_append.mp ho₁.nodup).2.1
        rintro rfl
        simp at hnodup
      have hw₁ : Words ph₁.mem kpgtbl fun _ => 0 :=
        hw.congr fun a ha => fill_outside fun hin =>
          hne (inPage_unique (K := ramPages) hpg hroot hin ha)
      obtain ⟨r, ph', hrun, hcase⟩ := mappages_fresh hw₁ ho₁.of_append hva halign (kstack_ok hpg)
      refine ⟨pg, free, ph', rfl, ?_⟩
      rcases hcase with ⟨rfl, hnil, pgs, hpgs, -, hm₂⟩ | ⟨rfl, d, rfl, hc, hm₂⟩
      · have hlen₂ := hm₂.length
        rw [hnil, show ph₁.freelist = free from rfl] at hlen₂
        rw [hfree] at hmlen
        simp only [length_cons, length_nil] at hlen₂ hmlen
        omega
      · refine ⟨hrun, Or.inr ⟨d, rfl, ?_, (hm.trans hm₁).trans (hm₂.frame [pg])⟩⟩
        rw [hidx, ← kernelMap_nil] at hc
        have happend := kernelMap_append (show ([] : List Nat).length < NPROC by decide) pg
        exact happend ▸ hc
  · have hmlen := hm.length
    rw [length_append, length_nil] at hmlen
    have hd : d.list.length = 4 := rfl
    cases hfree : ph.freelist with
    | nil =>
      rw [hfree, length_nil] at hmlen
      omega
    | cons pg free =>
      have hm₁ := hm.trans (moves_kalloc hfree (d.list ++ kstack))
      have ho₁ := ho.moves hm₁
      have hpg : IsPage pg := ho₁.own_valid mem_cons_self
      have hnot : pg ∉ d.list := fun hin =>
        (nodup_cons.mp (nodup_append.mp ho₁.nodup).2.1).1 (mem_append_left _ hin)
      set ph₁ : Phys := ⟨fill ph.mem pg 5 PGSIZE, free⟩ with hph₁
      have hc₁ : Chain ph₁.mem d (kernelMap kstack) :=
        hc.other hpg hnot fun a ha => fill_outside ha
      have hnone : kernelMap kstack (KSTACK kstack.length / PGSIZE) = none := by
        rw [hidx]
        exact kernelMap_next hlen
      refine ⟨pg, free, _, rfl, hc₁.mappages_run hva halign _ hnone, Or.inr ⟨d, rfl, ?_, ?_⟩⟩
      · have hw := hc₁.write (i := 253 - 2 * kstack.length) (by omega)
          (o := some ⟨pg, PTE_TRAPFRAME⟩) (by rintro e ⟨⟩; exact kstack_ok hpg)
        rw [kernelMap_append hlen] at hw
        rw [hidx]
        exact hw
      · have hperm : (d.list ++ (kstack ++ [pg])).Perm (pg :: (d.list ++ kstack)) := by
          rw [← append_assoc]
          exact perm_append_singleton _ _
        refine (hm₁.trans ?_).trans (Moves.of_perm hperm)
        exact Moves.write (by simp [Dirs.list]) fun a ha => putLE_outside (index_lt hva) ha

/-- All stacks are mapped. The list of rounds still to come fixes how many stacks there are. -/
theorem proc_mapstacks_spec {ph₀ ph : Phys} {kpgtbl : Nat} (ho : Owns ramPages ph₀ [])
    (hmany : 100 ≤ ph₀.freelist.length) (h : Mapping ph₀ kpgtbl [] ph) :
    ∃ ph' kstack, (proc_mapstacks kpgtbl).run ph = .ok ((), ph') ∧ kstack.length = NPROC ∧
      Mapping ph₀ kpgtbl kstack ph' := by
  suffices hwp : wp (proc_mapstacks kpgtbl)
      (fun _ ph' => ∃ kstack, [] = List.range' kstack.length (NPROC - kstack.length) ∧
        kstack.length ≤ NPROC ∧ Mapping ph₀ kpgtbl kstack ph') (fun _ => False) ph by
    obtain ⟨_, ph', hrun, kstack, hrest, hle, hmap⟩ := wp_returns hwp
    have hzero : NPROC - kstack.length = 0 := by
      have := congrArg List.length hrest
      rw [length_nil, length_range'] at this
      exact this.symm
    exact ⟨ph', kstack, hrun, by omega, hmap⟩
  refine wp_forM (I := fun rest ph' => ∃ kstack : List Nat,
    rest = List.range' kstack.length (NPROC - kstack.length) ∧ kstack.length ≤ NPROC ∧
      Mapping ph₀ kpgtbl kstack ph') ⟨[], range_eq_range', Nat.zero_le _, h⟩ ?_
  rintro k rest t - ⟨kstack, hrest, hle, hmap⟩
  have hlt : kstack.length < NPROC := by
    rcases Nat.lt_or_eq_of_le hle with hlt | heq
    · exact hlt
    · rw [heq, Nat.sub_self] at hrest
      exact absurd hrest (cons_ne_nil _ _)
  obtain ⟨n, hn⟩ : ∃ n, NPROC - kstack.length = n + 1 := ⟨NPROC - kstack.length - 1, by omega⟩
  rw [hn, List.range'_succ] at hrest
  obtain ⟨rfl, hrest'⟩ := List.cons.inj hrest
  obtain ⟨pg, free, ph', hfree, hrun, hmap'⟩ := mapstack_run ho hmany hmap hlt
  rw [wp_bind]
  refine wp_of_ok (kalloc_some hfree) ?_
  dsimp only
  rw [wp_bind]
  refine wp_of_ok hrun ?_
  rw [if_neg (by decide)]
  refine ⟨kstack ++ [pg], ?_, ?_, hmap'⟩
  · rw [length_append, length_singleton, hrest', show NPROC - (kstack.length + 1) = n by
      omega]
  · rw [length_append, length_singleton]
    exact hlt

/-- `vminit` makes the kernel page table with a stack for every slot. -/
theorem vminit_spec {ph : Phys} (ho : Owns ramPages ph []) (hmany : 100 ≤ ph.freelist.length) :
    ∃ d ph' kstack, vminit.run ph = .ok (d.root, ph') ∧ kstack.length = NPROC ∧
      Chain ph'.mem d (kernelMap kstack) ∧ Moves ramPages ph [] ph' (d.list ++ kstack) := by
  cases hfree : ph.freelist with
  | nil =>
    rw [hfree] at hmany
    exact absurd hmany (by decide)
  | cons kpgtbl free =>
    have hinit : Mapping ph kpgtbl [] ⟨fill (fill ph.mem kpgtbl 5 PGSIZE) kpgtbl 0 PGSIZE, free⟩ :=
      Or.inl ⟨rfl, words_fill_zero _ _, moves_kalloc_zero hfree []⟩
    obtain ⟨ph', kstack, hrun, hlen, hmap⟩ := proc_mapstacks_spec ho hmany hinit
    rcases hmap with ⟨rfl, -⟩ | ⟨d, rfl, hc, hm⟩
    · exact absurd hlen (by decide)
    · refine ⟨d, ph', kstack, ?_, hlen, hc, hm⟩
      unfold vminit
      rw [run_bind_ok (kalloc_some hfree)]
      dsimp only
      rw [run_bind_ok (memset_run _ _ _ _), run_bind_ok hrun]
      rfl

/-! ### `userinit` -/

/-- The flags of the first process's page. -/
def PTE_INIT : Pte := PTE_P ||| PTE_W ||| PTE_PLV ||| PTE_MAT

/-- The page that `uvminit` maps holds the code, and zeros after it. -/
def HoldsInit (mem : Bytes) (pg : Nat) : Prop :=
  ∀ i, i < PGSIZE → mem (pg + i) = initcode.getD i 0

/-- `uvminit` maps the first page and loads `initcode` into it. -/
theorem uvminit_spec {ph : Phys} {tf : Entry} {pg : Nat} {free : List Nat}
    (hc : Chain ph.mem d (userMap (some tf) [])) (ho : Owns ramPages ph (spacePages d []))
    (hfree : ph.freelist = pg :: free) :
    ∃ ph', (uvminit d.root initcode).run ph = .ok ((), ph') ∧
      Chain ph'.mem d (userMap (some tf) [⟨pg, PTE_INIT⟩]) ∧
      Moves ramPages ph (spacePages d []) ph' (spacePages d [⟨pg, PTE_INIT⟩]) ∧
      HoldsInit ph'.mem pg := by
  have hout : ∀ a, ¬ InPage ramPages pg a →
      fill (fill ph.mem pg 5 PGSIZE) pg 0 PGSIZE a = ph.mem a := fun a ha =>
    (fill_outside ha).trans (fill_outside ha)
  have hzero : ∀ o < PGSIZE, fill (fill ph.mem pg 5 PGSIZE) pg 0 PGSIZE (pg + o) = 0 :=
    fun o ho => if_pos ⟨Nat.le_add_right _ _, Nat.add_lt_add_left ho _⟩
  -- the page is mapped and zero
  have hstart := Laid.refl hc fun _ => 0
  have hpg := (hstart.taken ho.of_append hfree hout).1
  have hflags : PTE_FLAGS PTE_INIT = PTE_INIT ∧ PTE_INIT ||| PTE_V ≠ PTE_V := by decide
  have hsame : PTE_INIT ||| PTE_V = PTE_INIT ||| PTE_V := rfl
  obtain ⟨ph₂, hrun₂, hlaid⟩ :=
    hstart.next ho.of_append (by decide) hfree hout hzero hflags hsame
  have hadd := hlaid.added
  have ho₂ := ho.moves hadd.moves
  have hmem : (⟨pg, PTE_INIT⟩ : Entry) ∈ [] ++ ([] ++ [⟨pg, PTE_INIT⟩]) := by simp
  have hpgd : pg ∉ d.list := fun hin =>
    (nodup_append.mp (nodup_append.mp ho₂.nodup).2.1).2.2 _ hin _
      (mem_map_of_mem hmem) rfl
  have hlen : 0 + initcode.length ≤ PGSIZE := by decide
  have hstore : ∀ a, ¬ InPage ramPages pg a → putBytes ph₂.mem pg initcode a = ph₂.mem a :=
    fun a ha => putBytes_outside hlen ha
  refine ⟨⟨putBytes ph₂.mem pg initcode, ph₂.freelist⟩, ?_, ?_, ?_, ?_⟩
  · unfold uvminit
    rw [if_neg (by decide), run_bind_ok (kalloc_some hfree)]
    dsimp only
    rw [run_bind_ok (memset_run _ _ _ _), run_bind_ok (show (mappages d.root 0 PGSIZE pg
      (PTE_P ||| PTE_W ||| PTE_PLV ||| PTE_MAT)).run _ = .ok (0, ph₂) from hrun₂)]
    rfl
  · exact hadd.chain.other hpg hpgd hstore
  · refine hadd.moves.trans (Moves.write ?_ hstore)
    exact mem_append_right _ (mem_map_of_mem hmem)
  · intro i hi
    show putBytes ph₂.mem pg initcode (pg + i) = _
    unfold putBytes
    by_cases hin : i < initcode.length
    · rw [if_pos ⟨by omega, by omega⟩, Nat.add_sub_cancel_left]
    · rw [if_neg (by omega), getD_eq_getElem?_getD, getElem?_eq_none (by omega)]
      exact hlaid.holds 0 _ rfl i hi

/-- What the state after booting is known to be: `Inv` holds and `init` can run, with one page of
code. -/
structure Booted (s : Os) (G : Ghost) (pg : Nat) : Prop where
  inv : Inv s G
  state : (s.proc initproc).state = .runnable
  sz : (s.proc initproc).sz = PGSIZE
  space : ∃ sp, G.held initproc = .space sp ∧ sp.es = [⟨pg, PTE_INIT⟩]
  code : HoldsInit s.phys.mem pg
  aside : G.aside = []
  ofile : ∀ p fd, (s.proc p).ofile fd = none

theorem slots_nothing {G : Ghost} (h : ∀ i, G.held i = .nothing) : G.slots = [] := by
  unfold Ghost.slots
  rw [flatMap_eq_nil_iff]
  intro i _
  rw [h i]
  rfl

/-- The ghost before `userinit`: the kernel has its pages and nobody else has any. -/
def kernelGhost (d : Dirs) (kstack : List Nat) : Ghost := ⟨d, kstack, [], [], [], fun _ => .nothing⟩

theorem kernelGhost_pages (d : Dirs) (kstack : List Nat) :
    (kernelGhost d kstack).pages = d.list ++ kstack := by
  rw [Ghost.pages, slots_nothing fun _ => rfl]
  show [] ++ ([] ++ (d.list ++ (kstack ++ []))) = _
  rw [append_nil]
  rfl

/-- The invariant holds before the first process. -/
theorem kernel_inv (mem : Bytes) {ph : Phys}
    (hpages : (ph.freelist ++ (d.list ++ kstack)).Perm allPages)
    (hc : Chain ph.mem d (kernelMap kstack)) (hlen : kstack.length = NPROC) :
    Inv { Os.start mem with phys := ph, kpgtbl := d.root } (kernelGhost d kstack) := by
  refine ⟨⟨?_, rfl, hc, hlen, fun i => ⟨rfl, rfl, rfl⟩, ⟨fun _ _ => rfl, ?_, ?_, nofun, nofun,
    nofun⟩⟩, ⟨rfl, fun _ _ => rfl, fun i hi => absurd rfl hi⟩, fun f => ?_, fun _ _ _ => rfl⟩
  · rw [kernelGhost_pages]
    exact hpages
  · exact fun pi w f hf => absurd hf.1 nofun
  · exact fun pi w f g hf => absurd hf.1 nofun
  · show 0 = fdcount _ f
    unfold fdcount
    rw [eq_comm, Finset.card_eq_zero, Finset.filter_eq_empty_iff]
    exact fun _ _ => nofun

/-- The free pages, counted from those in use. -/
theorem OsInv.free_length {s : Os} {G : Ghost} (h : OsInv s G) :
    s.phys.freelist.length + G.pages.length = 32768 := by
  have hlen := h.pages.length_eq
  rwa [length_append, allPages, length_map, length_range] at hlen

/-- The pages in use once the first process has an address space. -/
theorem first_space_length (hlen : kstack.length = NPROC)
    (p : Slot) (sp : Space) :
    ((kernelGhost d kstack).setHeld p (.space sp)).pages.length
      = 5 + sp.es.length + (4 + NPROC) := by
  have hperm := ((kernelGhost d kstack).split_set p (.space sp)).length_eq
  have hothers : (kernelGhost d kstack).others p = [] := by
    unfold Ghost.others
    rw [flatMap_eq_nil_iff]
    exact fun _ _ => rfl
  have hkernel : (kernelGhost d kstack).kernel.length = 4 + NPROC := by
    show (d.list ++ (kstack ++ [])).length = _
    rw [append_nil, length_append, hlen]
    rfl
  have hspace : (Held.space sp).pages.length = 5 + sp.es.length := by
    show (sp.trapframe :: (sp.d.list ++ sp.es.map Entry.page)).length = _
    rw [length_cons, length_append, length_map]
    show 4 + sp.es.length + 1 = _
    omega
  rw [hperm, hothers, nil_append]
  show ((Held.space sp).pages ++ ([] ++ (kernelGhost d kstack).kernel)).length = _
  rw [nil_append, length_append, hkernel, hspace]

/-- `userinit` in a state in which all slots are unused. -/
theorem userinit_spec {s : Os} (h : Inv s (kernelGhost d kstack))
    (hunused : ∀ i, (s.proc i).state = .unused) :
    ∃ s' G pg, userinit.run s = .ok ((), s') ∧ Booted s' G pg ∧
      s'.phys.freelist.length + (6 + (4 + NPROC)) = 32768 := by
  have hstack : kstack.length = NPROC := h.sys.nstacks
  have hfree := h.sys.free_length
  rw [kernelGhost_pages, length_append, hstack] at hfree
  have hd : d.list.length = 4 := rfl
  have hnproc : NPROC = 32 := rfl
  obtain ⟨r, s₁, hrun₁, hfile₁, hcase⟩ := allocproc_spec h.sys h.settled.unused
  rcases hcase with ⟨-, -, -, hno | hfew⟩ |
    ⟨np, sp, rfl, ⟨-, hfirst⟩, hnil, hinv₁, hother₁, hst₁, hof₁⟩
  · exact absurd (hunused initproc) (hno initproc)
  · omega
  have hnp : np = initproc := by
    by_contra hne
    exact hfirst initproc (Fin.pos_of_ne_zero hne) (hunused _)
  obtain ⟨htf, hroot, hsp⟩ := hinv₁.space (setHeld_held _ _ _)
  have ho₁ := hinv₁.space_owns (setHeld_held _ _ _)
  have hfree₁ := hinv₁.free_length
  rw [first_space_length hstack, hnil] at hfree₁
  obtain ⟨tf, d', es⟩ := sp
  obtain rfl : es = [] := hnil
  cases hlist : s₁.phys.freelist with
  | nil =>
    rw [hlist] at hfree₁
    simp only [length_nil] at hfree₁
    omega
  | cons pg free =>
    obtain ⟨ph₂, hrun₂, hc₂, hm₂, hcode₂⟩ := uvminit_spec hsp.chain ho₁ hlist
    have hsp₂ : UserSpace ph₂.mem tf d' [⟨pg, PTE_INIT⟩] PGSIZE :=
      ⟨⟨hc₂, rfl, by decide⟩, fun e he => by rw [mem_singleton.mp he]; exact Or.inr (Or.inl rfl)⟩
    have hinv₂ := hinv₁.onSpace (q := { s₁.proc np with sz := PGSIZE }) (setHeld_held _ _ _)
      hm₂ rfl rfl hsp₂
    rw [setHeld_setHeld] at hinv₂
    set G₂ := (kernelGhost d kstack).setHeld np (.space ⟨tf, d', [⟨pg, PTE_INIT⟩]⟩) with hG₂
    set s₂ : Os := { s₁.setProc np { s₁.proc np with sz := PGSIZE } with
      phys := ph₂ } with hs₂
    have hheld₂ : G₂.held np = .space ⟨tf, d', [⟨pg, PTE_INIT⟩]⟩ := setHeld_held _ _ _
    -- the two words of the trapframe
    set mem₃ := putLE (putLE ph₂.mem (tf + TF_ERA) 8 0) (tf + TF_SP) 8 PGSIZE with hmem₃
    have hout : ∀ a, ¬ InPage ramPages tf a → mem₃ a = ph₂.mem a := fun a ha => by
      rw [hmem₃, store64_outside (by decide) ha, store64_outside (by decide) ha]
    have hinv₃ : OsInv { s₂ with phys := { s₂.phys with mem := mem₃ } } G₂ :=
      hinv₂.onTrapframe hheld₂ hout
    set s₃ : Os := { s₂ with phys := { s₂.phys with mem := mem₃ } } with hs₃
    set q : UProc := { s₁.proc np with sz := PGSIZE, state := .runnable } with hq
    set s₄ : Os := s₃.setProc np q with hs₄
    have hself₃ : s₃.proc np = { s₁.proc np with sz := PGSIZE } := update_self _ _ _
    have hself₄ : s₄.proc np = q := update_self _ _ _
    have hinv₄ : OsInv s₄ G₂ :=
      hinv₃.setProc (by rw [hself₃]) (by rw [hself₃]) (by rw [hself₃])
    have hother₄ : ∀ i, i ≠ np → s₄.proc i = s.proc i := by
      intro i hi
      show update (update s₁.proc np _) np q i = _
      rw [update_of_ne hi, update_of_ne hi, hother₁ i hi]
    have hofile₄ : ∀ i, (s₄.proc i).ofile = (s.proc i).ofile := by
      intro i
      by_cases hi : i = np
      · rw [hi, hself₄]
        exact hof₁
      · rw [hother₄ i hi]
    refine ⟨s₄, G₂, pg, ?_, ⟨?_, by rw [← hnp, hself₄], by rw [← hnp, hself₄],
      ⟨_, hnp ▸ hheld₂, rfl⟩, ?_, rfl, fun i fd => ?_⟩, ?_⟩
    · unfold userinit
      rw [run_bind_ok hrun₁]
      dsimp only
      rw [run_bind_ok (StateT.run_get s₁), hroot, htf, run_bind_ok (onPhys_run hrun₂),
        run_bind_ok (show (modifyProc np _ : OsM Unit).run _ = .ok ((), s₂) from rfl),
        run_bind_ok (onPhys_run (store64_run _ _ _)),
        run_bind_ok (onPhys_run (store64_run _ _ _))]
      show Except.ok ((), s₃.setProc np { s₃.proc np with state := .runnable }) = _
      rw [hself₃]
    · refine (h.of_child hinv₄ hother₄ ⟨by rw [hself₄]; exact nofun, by rw [hself₄]; exact nofun⟩
        fun g => ?_).inv
      rw [fdcount_congr hofile₄]
      show (s₁.file g).ref = _
      rw [hfile₁]
      exact h.files.count g
    · intro i hi
      have hpage : InPage ramPages pg (pg + i) := ⟨by omega, Nat.add_lt_add_left hi pg⟩
      have ho₂ := hinv₂.slot_owns np
      rw [hheld₂] at ho₂
      have hnodup := (nodup_append.mp ho₂.nodup).2.1
      have hin : pg ∈ spacePages d' [⟨pg, PTE_INIT⟩] :=
        mem_append_right _ (by simp)
      have hpg : IsPage pg := ho₂.own_valid (mem_cons_of_mem _ hin)
      have htf' : IsPage tf := ho₂.own_valid mem_cons_self
      refine (hout _ fun hin' => ?_).trans (hcode₂ i hi)
      have heq := inPage_unique (K := ramPages) htf' hpg hin' hpage
      exact (nodup_cons.mp hnodup).1 (heq ▸ hin)
    · rw [hofile₄]
      exact h.files.closed i (Or.inl (hunused i)) fd
    · have := hinv₄.free_length
      rw [hG₂, first_space_length hstack] at this
      exact this

/-- The machine boots, and all other pages are free. -/
theorem boot_spec (mem : Bytes) :
    ∃ s G pg, boot.run (Os.start mem) = .ok ((), s) ∧ Booted s G pg ∧
      s.phys.freelist.length + (6 + (4 + NPROC)) = 32768 := by
  obtain ⟨mem₁, free, hkinit, hperm, hlen₁⟩ := kinit_spec mem
  have ho₁ : Owns ramPages ⟨mem₁, free⟩ [] := by
    refine ⟨?_, fun pg hpg => mem_allPages.mp (hperm.subset ?_)⟩
    · rw [append_nil]
      exact hperm.nodup_iff.mpr allPages_nodup
    · rwa [append_nil] at hpg
  have hmany : 100 ≤ free.length := by omega
  obtain ⟨d, ph₂, kstack, hvminit, hstack, hc₂, hm₂⟩ := vminit_spec ho₁ hmany
  have hpages := hm₂.perm
  rw [append_nil] at hpages
  have hinv₂ := kernel_inv mem (hpages.trans hperm) hc₂ hstack
  obtain ⟨s, G, pg, hrun, hbooted, hfree⟩ := userinit_spec hinv₂ fun _ => rfl
  refine ⟨s, G, pg, ?_, hbooted, hfree⟩
  unfold boot
  rw [run_bind_ok (onPhys_run (s := Os.start mem) hkinit), run_bind_ok (onPhys_run hvminit)]
  exact hrun

end Xv6.Proofs
