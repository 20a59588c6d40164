import Xv6.Proofs.Vm.Pages

/-!
# `Xv6.Proofs.Vm.UserCopy`: what `copyout` and `copyin` transfer

`user_copies_exact` says which bytes are transferred, whether or not the range is reachable, and
that `copyout` changes nothing else: not the tables, the trapframe, the page below the stack, a free
page or the page of another process.
-/

set_option autoImplicit false

namespace Xv6.Proofs

open Lib List

variable {k len n pg va : Nat} {mem mem' : Bytes}

/-- What the result `r` of copying `len` bytes at `va` says, if `n` bytes were transferred. -/
structure CopyResult (ph : Phys) (pagetable va len n : Nat) (r : Int) : Prop where
  result : r = 0 ∨ r = -1
  ok : r = 0 ↔ RangeReachable ph pagetable va len
  whole : r = 0 → n = len
  part : r = -1 → n < len ∧ (n = 0 ∨ (va + n) % PGSIZE = 0)
  mapped : ∀ k < n, Reachable ph pagetable (va + k)

/-- How far a copy gets, in terms of the page table. -/
theorem Extent.copyResult {ph : Phys} {d : Dirs} {tf : Entry} {es : List Entry} {other : List Nat}
    (h : AddressSpace ph d tf es other) {r : Int} (hva : va < 2 ^ 64)
    (hext : Extent es va len n r) : CopyResult ph d.root va len n r := by
  have hround : ∀ a, Reachable ph d.root (PGROUNDDOWN a) ↔ userPage es a ≠ none := fun a => by
    rw [h.reachable_iff]
    unfold userPage
    rw [pgrounddown_div]
  refine ⟨?_, ⟨fun hr => ?_, fun hreach => ?_⟩, fun hr => ?_, fun hr => ?_, fun k hk =>
    (h.reachable_iff _).mpr (hext.reach k hk)⟩
  · rcases hext.stop with ⟨hr, -⟩ | ⟨hr, -⟩
    · exact Or.inl hr
    · exact Or.inr hr
  · obtain ⟨-, rfl⟩ | ⟨hneg, -⟩ := hext.stop
    · refine ⟨?_, fun k hk => (hround _).mpr (hext.reach k hk)⟩
      -- the last byte is below `MAXVA`
      rcases Nat.eq_zero_or_pos n with rfl | hpos
      · exact hva
      · have hlast := h.below (hext.reach (n - 1) (by omega))
        unfold MAXVA at hlast
        omega
    · rw [hr] at hneg
      cases hneg
  · obtain ⟨hr, -⟩ | ⟨-, hlt, hnone, -⟩ := hext.stop
    · exact hr
    · exact absurd hnone ((hround _).mp (hreach.2 n hlt))
  · obtain ⟨-, hn⟩ | ⟨hneg, -⟩ := hext.stop
    · exact hn
    · rw [hr] at hneg
      cases hneg
  · obtain ⟨hzero, -⟩ | ⟨-, hlt, -, halign⟩ := hext.stop
    · rw [hr] at hzero
      cases hzero
    · exact ⟨hlt, halign⟩

/-- Every process of the system has such an address space, with the pages of all other processes
among the pages of others. -/
theorem run_addressSpace {calls : List (Slot × Call)} {s : Os} (hrun : run mem calls = .ok s)
    {p : Slot} (hused : (s.proc p).state ≠ .unused) :
    ∃ d es other, (s.proc p).pagetable = d.root ∧
      AddressSpace s.phys d (tfEntry (s.proc p).trapframe) es other ∧
      ∀ q ≠ p, ∀ pg ∈ procPages s q, pg ∈ other := by
  obtain ⟨G, h⟩ := run_inv hrun
  obtain ⟨sp, hheld⟩ := h.settled.used p hused
  obtain ⟨htf, hroot, -⟩ := h.sys.space hheld
  refine ⟨sp.d, sp.es, G.others p ++ (G.pipes ++ G.kernel), hroot, ?_, fun q hq pg hpg => ?_⟩
  · rw [htf]
    exact h.sys.addressSpace hheld
  · exact mem_append_left _ (Ghost.mem_others hq ((procPages_perm h q).subset hpg))

/-- User copies are exact and isolated. -/
theorem user_copies_exact {ph : Phys} {d : Dirs} {tf : Entry} {es : List Entry} {other : List Nat}
    (h : AddressSpace ph d tf es other) {va : Nat} (hva : va < 2 ^ 64) :
    (∀ src : List UInt8, src.length < 2 ^ 64 →
      ∃ r ph' n, (copyout d.root va src).run ph = .ok (r, ph') ∧
        CopyResult ph d.root va src.length n r ∧
        (∀ k < n, ∃ a, userByte ph d.root (va + k) = some a ∧ src[k]? = some (ph'.mem a)) ∧
        (∀ a, ph'.mem a ≠ ph.mem a → ∃ k < n, userByte ph d.root (va + k) = some a) ∧
        (∀ pg ∈ kernelSide ph d tf es other, ∀ a, InPage ramPages pg a → ph'.mem a = ph.mem a) ∧
        ph'.freelist = ph.freelist) ∧
    ∀ len < 2 ^ 64, ∃ bs r, (copyin d.root va len).run ph = .ok ((bs, r), ph) ∧
      CopyResult ph d.root va len bs.length r ∧
      ∀ k < bs.length, ∃ a, userByte ph d.root (va + k) = some a ∧ bs[k]? = some (ph.mem a) := by
  have hbyte : ∀ {k pg : Nat}, userPage es (va + k) = some pg →
      userByte ph d.root (va + k) = some (pg + (va + k) % PGSIZE) := fun hpg => by
    rw [h.userByte, hpg]
    rfl
  constructor
  · intro src _
    obtain ⟨r, mem', n, hrun, hext, hcopied⟩ := copyoutLoop_exact src.length va src h le_rfl
    refine ⟨r, _, n, hrun, hext.copyResult h hva, fun k hk => ?_, fun a ha => ?_,
      fun pg hpg a ha => h.untouched hcopied.userWrites hpg ha, rfl⟩
    · obtain ⟨pg, hpg⟩ := Option.ne_none_iff_exists'.mp (hext.reach k hk)
      exact ⟨_, hbyte hpg, hcopied.wrote k hk pg hpg⟩
    · obtain ⟨k, hk, pg, hpg, rfl⟩ := hcopied.frame a ha
      exact ⟨k, hk, hbyte hpg⟩
  · intro len _
    obtain ⟨bs, r, hrun, hext, hread⟩ := copyinLoop_exact h len va len le_rfl
    refine ⟨bs, r, hrun, hext.copyResult h hva, fun k hk => ?_⟩
    obtain ⟨pg, hpg⟩ := Option.ne_none_iff_exists'.mp (hext.reach k hk)
    exact ⟨_, hbyte hpg, hread k hk pg hpg⟩

/-- The first process has one page. -/
theorem Booted.addressSpace {s : Os} {G : Ghost} (h : Booted s G pg) :
    ∃ d other, (s.proc initproc).pagetable = d.root ∧
      AddressSpace s.phys d (tfEntry (s.proc initproc).trapframe) [⟨pg, PTE_INIT⟩] other := by
  obtain ⟨sp, hheld, hes⟩ := h.space
  obtain ⟨htf, hroot, -⟩ := h.inv.sys.space hheld
  have hspace := h.inv.sys.addressSpace hheld
  rw [hes, ← htf] at hspace
  exact ⟨sp.d, _, hroot, hspace⟩

theorem userPage_init (pg : Nat) {a : Nat} (ha : a < PGSIZE) :
    userPage [⟨pg, PTE_INIT⟩] a = some pg := by
  rw [userPage, Nat.div_eq_of_lt ha, getElem?_cons_zero, Option.bind_some,
    if_neg (by decide : ¬ PTE_INIT &&& PTE_PLV = 0)]

/-- The first process is given three bytes. -/
theorem user_copies_exact_init :
    ∃ s ph', run (fun _ => 0) [] = .ok s ∧
      (copyout (s.proc initproc).pagetable 48 [1, 2, 3]).run s.phys = .ok (0, ph') ∧
      ∀ k < 3, ∃ a, userByte s.phys (s.proc initproc).pagetable (48 + k) = some a ∧
        [1, 2, 3][k]? = some (ph'.mem a) := by
  obtain ⟨s, G, pg, hbooted, -, hrun⟩ := run_eq fun _ => 0
  obtain ⟨d, other, hroot, hspace⟩ := hbooted.addressSpace
  obtain ⟨r, ph', n, hcopy, hres, hbytes, -⟩ :=
    (user_copies_exact hspace (show 48 < 2 ^ 64 by decide)).1 [1, 2, 3] (by decide)
  obtain rfl : r = 0 := by
    refine hres.ok.mpr ⟨by decide, fun k hk => (hspace.reachable_iff _).mpr ?_⟩
    have hpage : PGROUNDDOWN (48 + k) < PGSIZE := by
      unfold PGROUNDDOWN PGSIZE
      rw [length_cons, length_cons, length_singleton] at hk
      omega
    rw [userPage_init pg hpage]
    exact Option.some_ne_none pg
  obtain rfl := hres.whole rfl
  rw [← hroot] at hcopy hbytes
  exact ⟨s, ph', hrun [], hcopy, hbytes⟩

end Xv6.Proofs
