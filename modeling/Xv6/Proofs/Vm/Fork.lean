import Xv6.Proofs.Vm.Map
import Xv6.Proofs.Vm.Sbrk

/-!
# `Xv6.Proofs.Vm.Fork`: the copy that `fork` makes

A child gets pages that were free, one for each page of its parent and with the same bytes, and
neither the parent nor anyone else is written (`uvmcopy_copies`). If the free pages run out, the
child keeps its empty table, and `freeproc` gives everything back. This holds whatever flags the
pages of the parent have.

The flags of the child's pages are a different matter. `uvmcopy` keeps them in a `uint`, while
`PTE_FLAGS` selects bits at both ends of a 64-bit entry. So the child's entries lack `PTE_RPLV`,
`PTE_NX` and `PTE_NR` (`uvmcopy_keeps_flags_iff`). An entry with no other flag does not even look
like a leaf any more, and `uvmunmap` panics if it has to take it back: `uvmcopy_copies` says when
that happens. No process of this kernel has such a page.
-/

set_option autoImplicit false

namespace Xv6.Proofs

open Lib List
open Function (update_of_ne update_self)

variable {e : Entry} {mem : Bytes} {pg va : Nat}

/-! ### Pages and bytes -/

section Placed

variable {d : Dirs} {tf : Entry} {es new : List Entry} {ph ph' : Phys} {rest : List Nat}

/-- New pages were free. -/
theorem Placed.was_free (h : Placed d tf es new ph ph') (ho : Owns ramPages ph d.list)
    (he : e ∈ new) : e.page ∈ ph.freelist := by
  have hpage : e.page ∈ new.map Entry.page := mem_map_of_mem he
  have hnodup := (nodup_append.mp (ho.moves h.moves).nodup).2.1
  have hin := h.moves.perm.subset
    (mem_append_right _ (mem_append_right d.list hpage))
  exact (mem_append.mp hin).resolve_right fun hd =>
    disjoint_of_nodup_append hnodup hd hpage

/-- New pages are different from each other and from all pages in use. -/
theorem Placed.separate (h : Placed d tf es new ph ph') (ho : Owns ramPages ph (d.list ++ rest)) :
    (new.map Entry.page).Nodup ∧ ∀ e ∈ new, e.page ∉ ph'.freelist ∧ e.page ∉ rest := by
  have ho' := ho.moves (h.moves.frame rest)
  obtain ⟨-, hused, hfree⟩ := nodup_append.mp ho'.nodup
  obtain ⟨hpages, -, hrest⟩ := nodup_append.mp hused
  refine ⟨(nodup_append.mp hpages).2.1, fun e he => ⟨fun hin => ?_, fun hin => ?_⟩⟩
  · exact hfree _ hin _ (mem_append_left _
      (mem_append_right _ (mem_map_of_mem he))) rfl
  · exact hrest _ (mem_append_right _ (mem_map_of_mem he)) _ hin rfl

end Placed

/-- The page at `va` of the child: it was free, nobody else has it, and it holds the bytes of the
parent's page. `other` are the pages in use beside those of parent and child. -/
structure CopiedPage (ph ph' : Phys) (old new : Nat) (other : List Nat) (va pg : Nat) : Prop where
  mapped : mappedAt ph' new va = some pg
  was_free : pg ∈ ph.freelist
  taken : pg ∉ ph'.freelist
  only_here : ∀ va' < MAXVA, mappedAt ph' new va' = some pg → va' / PGSIZE = va / PGSIZE
  not_parent : ∀ va' < MAXVA, mappedAt ph' old va' ≠ some pg
  not_other : pg ∉ other
  bytes : ∃ q, mappedAt ph old va = some q ∧ ∀ o < PGSIZE, ph'.mem (pg + o) = ph.mem (q + o)

section Copies

variable {d d' : Dirs} {tf tf' : Entry} {trapframe sz : Nat} {es new : List Entry} {ph ph' : Phys}
  {other : List Nat}

/-- What is mapped by the table of an address space. -/
theorem Tables.mappedAt_mem (h : Tables ph.mem d (userMap (some tf) es)) (hva : va < MAXVA)
    (hpg : mappedAt ph d.root va = some pg) :
    pg = tf.page ∨ ∃ e, es[va / PGSIZE]? = some e ∧ e.page = pg := by
  rw [h.mappedAt_va hva, userMap] at hpg
  split at hpg
  · exact Or.inl (Option.some.inj hpg).symm
  · exact Or.inr (Option.map_eq_some_iff.mp hpg)

theorem LeafSpace.le_tfIndex (h : LeafSpace mem trapframe d es sz) : es.length ≤ tfIndex :=
  h.length ▸ npages_le h.le

/-- A page of the copy was free, is mapped nowhere else, and has the bytes of the original. -/
theorem Copied.copiedPage (h : LeafSpace ph.mem trapframe d es sz)
    (hcopied : Copied (userMap (some (tfEntry trapframe)) es) (spacePages d es) d' tf' new ph ph')
    (hlen : new.length = es.length)
    (ho : Owns ramPages ph (d'.list ++ (tf'.page :: ((trapframe :: spacePages d es) ++ other))))
    (hparent : LeafSpace ph'.mem trapframe d es sz) (hva : va < PGROUNDUP sz) :
    ∃ pg, CopiedPage ph ph' d.root d'.root other va pg := by
  obtain ⟨hnodup, hsep⟩ := hcopied.separate ho
  have hle := h.le_tfIndex
  rw [pgroundup_eq, ← h.length, ← hlen] at hva
  obtain ⟨hmax, hidx⟩ := va_lt_maxva (hlen ▸ hle) hva
  have hget : new[va / PGSIZE]? = some new[va / PGSIZE] := getElem?_eq_getElem hidx
  generalize new[va / PGSIZE] = e' at hget
  have he' : e' ∈ new := mem_of_getElem? hget
  obtain ⟨e, he, -, hbytes⟩ := hcopied.get hlen hle hget
  obtain ⟨hfree, hrest⟩ := hsep e' he'
  refine ⟨e'.page, ?_, hcopied.was_free ho.of_append he', hfree, fun va' hva' hpg => ?_,
    fun va' hva' hpg => ?_, fun hin => hrest ?_, e.page, ?_, ?_⟩
  · rw [hcopied.tables.mappedAt_user (hlen ▸ hle) hva, nil_append, hget, Option.map_some]
  · rcases hcopied.tables.mappedAt_mem hva' hpg with htf | ⟨x, hx, hpage⟩
    · exact absurd (htf ▸ mem_cons_self) hrest
    · refine ((getElem?_inj (by rwa [length_map]) hnodup).mp ?_).symm
      rw [nil_append] at hx
      rw [getElem?_map, getElem?_map, hget, hx, Option.map_some, Option.map_some, hpage]
  · refine hrest (mem_cons_of_mem _ (mem_append_left _ ?_))
    rcases hparent.chain.mappedAt_mem hva' hpg with htf | ⟨x, hx, hpage⟩
    · exact htf ▸ mem_cons_self
    · exact hpage ▸ mem_cons_of_mem _ (mem_append_right _
        (mem_map_of_mem (mem_of_getElem? hx)))
  · exact mem_cons_of_mem _ (mem_append_right _ hin)
  · rw [h.chain.mappedAt_user hle (hlen ▸ hva), he, Option.map_some]
  · exact hbytes (mem_append_right _ (mem_map_of_mem (mem_of_getElem? he)))

/-- After the error exit the child still has its trapframe and its tables, and `freeproc` gives
them back. -/
theorem freeproc_empty {s : Os} {np : Slot} (hroot : (s.proc np).pagetable = d'.root)
    (hzero : (s.proc np).sz = 0)
    (hc : Chain ph'.mem d' (userMap (some (tfEntry (s.proc np).trapframe)) []))
    (ho : Owns ramPages s.phys (d'.list ++ [(s.proc np).trapframe]))
    (hm : Moves ramPages s.phys d'.list ph' d'.list) :
    ∃ s', (freeproc np).run { s with phys := ph' } = .ok ((), s') ∧
      s'.phys.freelist.Perm (s.phys.freelist ++ ((s.proc np).trapframe :: d'.list)) := by
  have hm₁ := hm.frame [(s.proc np).trapframe]
  have hperm : (Held.space ⟨(s.proc np).trapframe, d', []⟩).pages.Perm
      (d'.list ++ [(s.proc np).trapframe]) := by
    show ((s.proc np).trapframe :: (d'.list ++ [])).Perm _
    rw [append_nil]
    exact (perm_append_singleton _ _).symm
  set sp : Space := ⟨(s.proc np).trapframe, d', []⟩
  have htf : (Os.proc { s with phys := ph' } np).trapframe = sp.trapframe := rfl
  have hempty : UserSpace ph'.mem sp.trapframe sp.d sp.es (s.proc np).sz :=
    ⟨⟨hc, by rw [hzero]; rfl, by rw [hzero]; exact Nat.zero_le _⟩, nofun⟩
  obtain ⟨ph₂, hfreed, hm₂⟩ := freeproc_space htf hroot hempty ((ho.moves hm₁).perm hperm)
  refine ⟨_, hfreed, ?_⟩
  have hall := ((hm₁.trans (Moves.of_perm hperm)).trans hm₂).perm
  rw [append_nil] at hall
  exact hall.trans (List.Perm.append_left _ (perm_append_singleton _ _))

/-- With too few free pages, the copies that are given back are those of the first pages. -/
theorem LeafSpace.leafCopies_iff (h : LeafSpace mem trapframe d es sz) {n : Nat}
    (hn : n < es.length) : LeafCopies (userMap (some (tfEntry trapframe)) es) n ↔
      ∀ e ∈ es.take n, uintFlags e.flags ||| PTE_V ≠ PTE_V := by
  have hle := h.le_tfIndex
  have hget : ∀ i < n, ∀ e, userMap (some (tfEntry trapframe)) es i = some e ↔
      (es.take n)[i]? = some e := by
    intro i hi e
    rw [userMap_get (by omega), getElem?_take_of_lt hi]
  constructor
  · intro hall e he
    obtain ⟨i, hi⟩ := mem_iff_getElem?.mp he
    have hlt := (List.getElem?_eq_some_iff.mp hi).1
    rw [length_take] at hlt
    exact hall i (by omega) e ((hget i (by omega) e).mpr hi)
  · exact fun hall i hi e he => hall e (mem_of_getElem? ((hget i hi e).mp he))

end Copies

/-- What `fork` does with memory. The parent's pages may have any flags, the child has an empty
address space, and `other` are the pages in use beside those of parent and child.

`uvmcopy` returns unless it runs out of pages after a page whose flags a `uint` does not hold. -/
theorem uvmcopy_copies {s : Os} {np : Slot} {d d' : Dirs} {trapframe sz : Nat} {es : List Entry}
    {other : List Nat} (h : LeafSpace s.phys.mem trapframe d es sz)
    (hroot : (s.proc np).pagetable = d'.root) (hzero : (s.proc np).sz = 0)
    (hnew : LeafSpace s.phys.mem (s.proc np).trapframe d' [] 0)
    (ho : Owns ramPages s.phys
      (d'.list ++ ((s.proc np).trapframe :: ((trapframe :: spacePages d es) ++ other)))) :
    ((∃ r ph', (uvmcopy d.root d'.root sz).run s.phys = .ok (r, ph')) ↔
      es.length ≤ s.phys.freelist.length ∨
        ∀ e ∈ es.take s.phys.freelist.length, uintFlags e.flags ||| PTE_V ≠ PTE_V) ∧
    ∀ r ph', (uvmcopy d.root d'.root sz).run s.phys = .ok (r, ph') →
      (∀ pg ∈ (trapframe :: spacePages d es) ++ other, ∀ a, InPage ramPages pg a →
        ph'.mem a = s.phys.mem a) ∧
      (∀ va, entryAt ph' d.root va = entryAt s.phys d.root va) ∧
      ((r = 0 ∧ es.length ≤ s.phys.freelist.length ∧
          ∀ va < PGROUNDUP sz, ∃ pg, CopiedPage s.phys ph' d.root d'.root other va pg) ∨
        (r = -1 ∧ s.phys.freelist.length < es.length ∧
          (∀ va < TRAPFRAME, mappedAt ph' d'.root va = none) ∧
          ph'.freelist.Perm s.phys.freelist ∧
          ∃ s', (freeproc np).run { s with phys := ph' } = .ok ((), s') ∧
            s'.phys.freelist.Perm
              (s.phys.freelist ++ ((s.proc np).trapframe :: d'.list)))) := by
  have hos : Owns ramPages s.phys (d'.list ++ spacePages d es) := by
    refine ho.subperm (List.Sublist.subperm (List.Sublist.append_left ?_ _))
    exact (((sublist_cons_self _ _).trans (sublist_append_left _ _)).trans
      (sublist_cons_self _ _))
  have hwp := uvmcopy_wp h.chain (userMap_ne_none h.length h.le) hnew.chain hos
  have hfew := mul_pgsize_lt_iff (n := s.phys.freelist.length) h.length h.le
  refine ⟨⟨fun ⟨r, ph', hrun⟩ => ?_, fun hleaf => ?_⟩, fun r ph' hrun => ?_⟩
  · rcases wp_ok hwp hrun with ⟨-, -, new, hcopied, hlen⟩ | ⟨-, -, -, hn, hleaf⟩
    · have := hcopied.length
      have := h.length
      exact Or.inl (by omega)
    · exact Or.inr ((h.leafCopies_iff (hfew.mp hn)).mp hleaf)
  · have hpanic : ¬ CopyPanic (userMap (some (tfEntry trapframe)) es) sz s.phys := by
      rintro (hbig | ⟨hn, hnot⟩)
      · exact absurd h.le (by omega)
      · have hlt := hfew.mp hn
        exact hnot ((h.leafCopies_iff hlt).mpr (hleaf.resolve_left (by omega)))
    obtain ⟨r, ph', hrun, -⟩ := wp_returns (wp_mono hwp (fun _ _ h => h) fun _ he => hpanic he)
    exact ⟨r, ph', hrun⟩
  -- whatever the result, only free pages and the child's tables are written
  have hpost := wp_ok hwp hrun
  have hmoves : ∃ own', Moves ramPages s.phys d'.list ph' own' := by
    rcases hpost with ⟨-, -, new, hcopied, -⟩ | ⟨-, -, hm, -⟩
    · exact ⟨_, hcopied.moves⟩
    · exact ⟨_, hm⟩
  obtain ⟨own', hm⟩ := hmoves
  have hkept : ∀ pg ∈ (trapframe :: spacePages d es) ++ other, ∀ a, InPage ramPages pg a →
      ph'.mem a = s.phys.mem a := fun pg hpg a ha =>
    hm.kept ho (mem_cons_of_mem _ hpg) ha
  have hparent : LeafSpace ph'.mem trapframe d es sz :=
    { h with chain := h.chain.congr fun pg hpg => hkept pg (mem_append_left _
        (mem_cons_of_mem _ (mem_append_left _ hpg))) }
  refine ⟨hkept, entryAt_congr h.chain hparent.chain, ?_⟩
  rcases hpost with ⟨rfl, -, new, hcopied, hlen⟩ | ⟨rfl, ht, hm', hn, -⟩
  · have hcount := hcopied.length
    rw [hlen, ← h.length] at hcount
    exact Or.inl ⟨rfl, by omega, fun va hva =>
      hcopied.copiedPage h (hlen.trans h.length.symm) ho hparent hva⟩
  · refine Or.inr ⟨rfl, hfew.mp hn, fun va hva => ?_, (perm_append_right_iff _).mp hm'.perm, ?_⟩
    · have hmax : va < MAXVA := by
        unfold TRAPFRAME at hva
        omega
      have hidx : va / PGSIZE < tfIndex := by
        rw [tfIndex_eq]
        unfold TRAPFRAME MAXVA PGSIZE at *
        omega
      rw [ht.mappedAt_va hmax, userMap_get hidx]
      rfl
    · exact freeproc_empty hroot hzero ⟨ht, hnew.chain.leaf⟩
        (ho.subperm (List.Sublist.subperm (List.Sublist.append_left (by simp) _))) hm'

/-! ### Two tables to try it on -/

def nthPage (k : Nat) : Nat := RAMBASE + k * PGSIZE

/-- Two page tables, of which the first maps a page with flags `f`, and pages to spare. -/
theorem two_tables {f : Pte} (hf : PTE_FLAGS f = f ∧ f ||| PTE_V ≠ PTE_V) :
    ∃ (ph : Phys) (d d' : Dirs) (tf tf' pg : Nat),
      Chain ph.mem d (userMap (some (tfEntry tf)) [⟨pg, f⟩]) ∧
      Chain ph.mem d' (userMap (some (tfEntry tf')) []) ∧
      Owns ramPages ph (d'.list ++ (tf' :: ((tf :: spacePages d [⟨pg, f⟩]) ++ []))) ∧
      1 ≤ ph.freelist.length := by
  -- twelve pages: two trapframes, two tables, the page that is mapped, and one more
  set ph₀ : Phys := ⟨fun _ => 0, (List.range' 2 10).map nthPage⟩ with hph₀
  have hvalid : ∀ k, k < 12 → IsPage (nthPage k) := by
    intro k hk
    unfold IsPage nthPage RAMSTOP RAMBASE PGSIZE
    omega
  have hinj : Function.Injective nthPage := by
    intro i j hij
    unfold nthPage PGSIZE at hij
    omega
  have ho₀ : Owns ramPages ph₀ [nthPage 1, nthPage 0] := by
    have hlist : ph₀.freelist ++ [nthPage 1, nthPage 0]
        = (List.range' 2 10 ++ [1, 0]).map nthPage := by
      rw [map_append]
      rfl
    refine ⟨?_, fun pg hpg => ?_⟩
    · rw [hlist]
      exact List.Nodup.map hinj (by decide)
    · rw [hlist, mem_map] at hpg
      obtain ⟨k, hk, rfl⟩ := hpg
      refine hvalid k ?_
      simp only [mem_append, mem_range'_1, mem_cons, not_mem_nil, or_false]
        at hk
      omega
  -- the first table
  obtain ⟨r₁, ph₁, -, ⟨-, hfew, -⟩ | ⟨d, -, hc₁, hm₁⟩⟩ :=
    proc_pagetable_spec (hvalid 0 (by omega)) (show Owns ramPages ph₀ [] from Owns.of_append ho₀)
  · exact absurd hfew (by rw [hph₀]; decide)
  have ho₁ := ho₀.moves (hm₁.frame [nthPage 1, nthPage 0])
  have hlen₁ := hm₁.length
  -- the second one
  obtain ⟨r₂, ph₂, -, ⟨-, hfew, -⟩ | ⟨d', -, hc₂, hm₂⟩⟩ :=
    proc_pagetable_spec (hvalid 1 (by omega)) (show Owns ramPages ph₁ [] from Owns.of_append ho₁)
  · simp [hph₀, Dirs.list] at hlen₁
    omega
  have hc₁' := hc₁.kept hm₂ ho₁ fun pg hpg => mem_append_left _ hpg
  have ho₂ := ho₁.moves (hm₂.frame _)
  have hlen₂ := hm₂.length
  -- and the page
  obtain ⟨pg, free, hfree⟩ : ∃ pg free, ph₂.freelist = pg :: free := by
    cases hlist : ph₂.freelist with
    | nil =>
      rw [hlist] at hlen₂
      simp [hph₀, Dirs.list] at hlen₁ hlen₂
      omega
    | cons pg free => exact ⟨pg, free, rfl⟩
  have hrest : (d'.list ++ (d.list ++ [nthPage 1, nthPage 0])).Perm
      (d.list ++ (d'.list ++ [nthPage 1, nthPage 0])) := by
    rw [← append_assoc, ← append_assoc]
    exact perm_append_comm.append_right _
  have ho₂' : Owns ramPages ph₂ (d.list ++ (d'.list ++ [nthPage 1, nthPage 0])) :=
    ho₂.perm hrest.symm
  obtain ⟨ph₃, -, hlaid⟩ := (Laid.refl hc₁' fun o => ph₂.mem (pg + o)).next ho₂'.of_append
    (by decide) hfree (fun _ _ => rfl) (fun o _ => by simp) hf rfl
  refine ⟨ph₃, d, d', nthPage 0, nthPage 1, pg, hlaid.chain, ?_, ?_, ?_⟩
  · exact hc₂.kept hlaid.moves ho₂' fun q hq => mem_append_left _ hq
  · refine (ho₂'.moves (hlaid.moves.frame _)).perm ?_
    have hsame : d'.list ++ (nthPage 1 :: ((nthPage 0 :: spacePages d [⟨pg, f⟩]) ++ []))
        = (d'.list ++ [nthPage 1, nthPage 0]) ++ spacePages d [⟨pg, f⟩] := by simp
    rw [hsame]
    exact perm_append_comm
  · have hlen₃ := hlaid.length
    simp [hph₀, Dirs.list] at hlen₁ hlen₂ hlen₃
    omega

theorem tables_owns {ph : Phys} {d d' : Dirs} {tf tf' : Nat} {es : List Entry} {other : List Nat}
    (ho : Owns ramPages ph (d'.list ++ (tf' :: ((tf :: spacePages d es) ++ other)))) :
    Owns ramPages ph (d'.list ++ d.list) := by
  refine ho.subperm (List.Sublist.subperm (List.Sublist.append_left ?_ _))
  have hd : d.list.Sublist (spacePages d es) := sublist_append_left _ _
  exact ((hd.trans (sublist_cons_self _ _)).trans (sublist_append_left _ _)).trans
    (sublist_cons_self _ _)

/-- A parent whose page is read-only and not executable. -/
theorem uvmcopy_copies_page :
    ∃ (s : Os) (d d' : Dirs) (trapframe pg : Nat),
      LeafSpace s.phys.mem trapframe d [⟨pg, PTE_P ||| PTE_PLV ||| PTE_NX⟩] PGSIZE ∧
      ∃ ph', (uvmcopy d.root d'.root PGSIZE).run s.phys = .ok (0, ph') ∧
        ∀ va < PGSIZE, ∃ q, CopiedPage s.phys ph' d.root d'.root [] va q := by
  obtain ⟨ph, d, d', tf, tf', pg, hc, hc', ho, hfree⟩ :=
    two_tables (f := PTE_P ||| PTE_PLV ||| PTE_NX) (by decide)
  set s : Os := { Os.start fun _ => 0 with
    phys := ph
    proc := fun p => { (Os.start fun _ => 0).proc p with trapframe := tf', pagetable := d'.root } }
  have h : LeafSpace s.phys.mem tf d [⟨pg, PTE_P ||| PTE_PLV ||| PTE_NX⟩] PGSIZE :=
    ⟨hc, show 1 = npages PGSIZE by decide, by decide⟩
  have hnew : LeafSpace s.phys.mem (s.proc initproc).trapframe d' [] 0 :=
    ⟨hc', rfl, Nat.zero_le _⟩
  have hroot : (s.proc initproc).pagetable = d'.root := rfl
  obtain ⟨hreturns, hpost⟩ := uvmcopy_copies h hroot rfl hnew ho
  obtain ⟨r, ph', hrun⟩ := hreturns.mpr (Or.inl hfree)
  obtain ⟨-, -, ⟨rfl, -, hcopied⟩ | ⟨-, hfew, -⟩⟩ := hpost r ph' hrun
  · exact ⟨s, d, d', tf, pg, h, ph', hrun, hcopied⟩
  · exact absurd hfree (Nat.not_le.mpr hfew)

/-! ### Flags -/

def PTE_NR : Pte := 1#64 <<< 61

def PTE_RPLV : Pte := 1#64 <<< 63

/-- The flags that do not fit in a `uint`. -/
def highFlags : Pte := PTE_RPLV ||| PTE_NX ||| PTE_NR

/-- A `uint` is wide enough for the flags `f` exactly if `f` has none of the high ones. -/
theorem uintFlags_eq_self_iff (pte : Pte) :
    uintFlags (PTE_FLAGS pte) = PTE_FLAGS pte ↔ PTE_FLAGS pte &&& highFlags = 0 := by
  rw [uintFlags_eq]
  unfold PTE_FLAGS
  constructor
  · intro h
    rw [← h, BitVec.and_assoc, show (0xFFFFFFFF#64 &&& highFlags : Pte) = 0#64 by decide,
      BitVec.and_zero]
    rfl
  · intro h
    have hsplit : (0xE0000000000001FF#64 : Pte)
        = (0xE0000000000001FF#64 &&& 0xFFFFFFFF#64) ||| (0xE0000000000001FF#64 &&& highFlags) := by
      decide
    rw [BitVec.and_assoc] at h ⊢
    conv_rhs => rw [hsplit, BitVec.and_or_distrib_left, h]
    exact (BitVec.or_zero).symm

section Flags

variable {d d' : Dirs} {m : PageMap} {tf' : Entry} {ph : Phys}

/-- The pages below `sz` have the same flags in the child as in the parent. -/
def KeepsFlags (ph ph' : Phys) (old new sz : Nat) : Prop :=
  ∀ i, i * PGSIZE < sz →
    PTE_FLAGS (entryAt ph' new (i * PGSIZE)) = PTE_FLAGS (entryAt ph old (i * PGSIZE))

/-- What a child has of the flags. -/
theorem Copied.entryAt {rest : List Nat} {new : List Entry} {sz : Nat} {ph' : Phys}
    (h : Copied m rest d' tf' new ph ph') (hlen : new.length = npages sz) (hsz : sz ≤ TRAPFRAME)
    (hold : Chain ph.mem d m) (hsome : ∀ i, i * PGSIZE < sz → m i ≠ none) {i : Nat}
    (hi : i * PGSIZE < sz) :
    PTE_FLAGS (entryAt ph' d'.root (i * PGSIZE))
      = uintFlags (PTE_FLAGS (entryAt ph d.root (i * PGSIZE))) := by
  have hlt : i < new.length := (mul_pgsize_lt_iff hlen hsz).mp hi
  have hle := npages_le hsz
  have hva : i * PGSIZE < MAXVA := Nat.lt_trans (Nat.lt_of_lt_of_le hi hsz) (by decide)
  have hidx : i * PGSIZE / PGSIZE = i := Nat.mul_div_cancel i (by decide)
  obtain ⟨e, he⟩ := Option.ne_none_iff_exists'.mp (hsome i hi)
  have hget : userMap (some tf') ([] ++ new) i = some new[i] := by
    rw [nil_append, userMap_get (by omega), getElem?_eq_getElem hlt]
  rw [h.tables.entryAt_va hva, hold.entryAt_va hva, hidx, hget, he, pteOf_some, pteOf_some,
    (h.tables.valid i _ hget).flags_pte, (hold.valid i e he).flags_pte,
    h.flags i e _ he (getElem?_eq_getElem hlt), uintFlags_or_v]

/-- `uvmcopy` keeps the flags of pages exactly if none of them has one of the high flags. -/
theorem uvmcopy_keeps_flags_iff {sz : Nat} {ph' : Phys} (hold : Chain ph.mem d m)
    (hleaf : ∀ i, i * PGSIZE < sz → m i ≠ none)
    (hnew : Chain ph.mem d' (userMap (some tf') [])) (ho : Owns ramPages ph (d'.list ++ d.list))
    (hrun : (uvmcopy d.root d'.root sz).run ph = .ok (0, ph')) :
    KeepsFlags ph ph' d.root d'.root sz ↔
      ∀ i, i * PGSIZE < sz → PTE_FLAGS (entryAt ph d.root (i * PGSIZE)) &&& highFlags = 0 := by
  rw [← append_nil d.list] at ho
  obtain ⟨-, hsz, new, h, hlen⟩ | ⟨hneg, -⟩ := wp_ok (uvmcopy_wp hold hleaf hnew ho) hrun
  · refine forall_congr' fun i => forall_congr' fun hi => ?_
    rw [h.entryAt hlen hsz hold hleaf hi]
    exact uintFlags_eq_self_iff _
  · cases hneg

/-- With a free page, a page is copied. -/
theorem uvmcopy_one {tf : Entry} (hold : Chain ph.mem d (userMap (some tf) [e]))
    (hnew : Chain ph.mem d' (userMap (some tf') [])) (ho : Owns ramPages ph (d'.list ++ d.list))
    (hfree : 1 ≤ ph.freelist.length) :
    (∀ i, i * PGSIZE < PGSIZE → userMap (some tf) [e] i ≠ none) ∧
    ∃ ph', (uvmcopy d.root d'.root PGSIZE).run ph = .ok (0, ph') ∧
      PTE_FLAGS (entryAt ph' d'.root 0) = uintFlags (PTE_FLAGS (Entry.pte e)) := by
  have hlen : [e].length = npages PGSIZE := rfl
  have hsz : PGSIZE ≤ TRAPFRAME := by decide
  have hleaf : ∀ i, i * PGSIZE < PGSIZE → userMap (some tf) [e] i ≠ none :=
    userMap_ne_none hlen hsz
  have hmany :=
    (mul_pgsize_lt_iff (n := ph.freelist.length) hlen hsz).not.mpr (Nat.not_lt.mpr hfree)
  rw [← append_nil d.list] at ho
  obtain ⟨r, ph', hrun, ⟨rfl, -, new, h, hlen'⟩ | ⟨-, -, -, hfew, -⟩⟩ := wp_returns (wp_mono
    (uvmcopy_wp hold hleaf hnew ho) (fun _ _ h => h) fun _ he =>
      he.elim (Nat.not_lt.mpr hsz) fun hfew => hmany hfew.1)
  · refine ⟨hleaf, ph', hrun, ?_⟩
    have hentry := h.entryAt hlen' hsz hold hleaf (i := 0) (by decide)
    rw [Nat.zero_mul, hold.entryAt_va (by decide)] at hentry
    exact hentry
  · exact absurd hfew hmany

end Flags

/-- A page of the user's. -/
theorem uvmcopy_keeps_flags_iff_user :
    ∃ (ph ph' : Phys) (d d' : Dirs),
      (uvmcopy d.root d'.root PGSIZE).run ph = .ok (0, ph') ∧
      (KeepsFlags ph ph' d.root d'.root PGSIZE ↔ ∀ i, i * PGSIZE < PGSIZE →
        PTE_FLAGS (entryAt ph d.root (i * PGSIZE)) &&& highFlags = 0) := by
  obtain ⟨ph, d, d', tf, tf', pg, hold, hnew, ho, hfree⟩ :=
    two_tables (UserFlags.ok (Or.inl rfl : UserFlags PTE_USER))
  have ho' := tables_owns ho
  obtain ⟨hleaf, ph', hrun, -⟩ := uvmcopy_one hold hnew ho' hfree
  exact ⟨ph, ph', d, d', hrun, uvmcopy_keeps_flags_iff hold hleaf hnew ho' hrun⟩

/-- A page that must not be executed can be executed by the child. -/
theorem uvmcopy_drops_nx :
    ∃ (ph ph' : Phys) (d d' : Dirs) (tf tf' : Entry) (pg : Nat),
      Chain ph.mem d (userMap (some tf) [⟨pg, PTE_USER ||| PTE_NX⟩]) ∧
      Chain ph.mem d' (userMap (some tf') []) ∧ Owns ramPages ph (d'.list ++ d.list) ∧
      (uvmcopy d.root d'.root PGSIZE).run ph = .ok (0, ph') ∧
      entryAt ph d.root 0 &&& PTE_NX ≠ 0 ∧ entryAt ph' d'.root 0 &&& PTE_NX = 0 ∧
      ¬ KeepsFlags ph ph' d.root d'.root PGSIZE := by
  obtain ⟨ph, d, d', tf, tf', pg, hold, hnew, ho, hfree⟩ :=
    two_tables (f := PTE_USER ||| PTE_NX) (by decide)
  have ho' := tables_owns ho
  obtain ⟨-, ph', hrun, hflags⟩ := uvmcopy_one hold hnew ho' hfree
  have hentry : entryAt ph d.root 0 = Entry.pte ⟨pg, PTE_USER ||| PTE_NX⟩ :=
    hold.entryAt_va (by decide)
  have hparent : PTE_FLAGS (Entry.pte ⟨pg, PTE_USER ||| PTE_NX⟩) = PTE_USER ||| PTE_NX ||| PTE_V :=
    (hold.ok 0 _ rfl).flags_pte
  have hnx : ∀ pte : Pte, pte &&& PTE_NX = PTE_FLAGS pte &&& PTE_NX := by
    intro pte
    unfold PTE_FLAGS
    rw [BitVec.and_assoc, show (0xE0000000000001FF#64 &&& PTE_NX : Pte) = PTE_NX by decide]
  have hold_nx : entryAt ph d.root 0 &&& PTE_NX ≠ 0 := by
    rw [hnx, hentry, hparent]
    decide
  have hnew_nx : entryAt ph' d'.root 0 &&& PTE_NX = 0 := by
    rw [hnx, hflags, hparent]
    decide
  refine ⟨ph, ph', d, d', _, _, pg, hold, hnew, ho', hrun, hold_nx, hnew_nx, fun hkeeps => ?_⟩
  have hsame := hkeeps 0 (by decide)
  rw [Nat.zero_mul] at hsame
  rw [hnx, ← hsame, ← hnx] at hold_nx
  exact hold_nx hnew_nx

end Xv6.Proofs
