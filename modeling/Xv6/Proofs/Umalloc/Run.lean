import Xv6.Proofs.Umalloc.Malloc

/-!
# `Xv6.Proofs.Umalloc.Run`: a program that allocates

The allocator keeps its invariant as long as `sbrk` has returned less than `2 ^ 32` units in all. At
`2 ^ 32` units the sizes wrap: `umalloc_heap_wraps` is a program that allocates 33 neighbouring
blocks and frees them, after which all but a few units are lost.
-/

set_option autoImplicit false

namespace Xv6.Proofs

open Lib List
open Function (update_of_ne update_self)

variable {fuel n : Nat}

/-- The blocks that the program holds, with the sizes in their headers. -/
def heldBlocks (h : Heap) : List MemBlock :=
  h.live.map fun c => ⟨c.ap - sizeofHeader, h.size (c.ap - sizeofHeader)⟩

/-- What the heap of a program should look like, with the free blocks `fl`. The free list is a ring
through `base`, ascending except for one wrap, without overlaps and neighbours (`FreeList`). -/
structure HeapOk (base : Nat) (h : Heap) (fl : List MemBlock) : Prop where
  list : FreeList base h fl
  large : ∀ c ∈ h.live, sizeofHeader ≤ c.ap ∧ c.ap + c.nbytes
    ≤ c.ap - sizeofHeader + sizeofHeader * h.size (c.ap - sizeofHeader)
  apart : (fl ++ heldBlocks h).Pairwise (Apart sizeofHeader)
  once : ∀ r ∈ h.regions, ∀ i < r.units,
    ∃! b, b ∈ fl ++ heldBlocks h ∧ r.addr + sizeofHeader * i ∈ units sizeofHeader b

/-! ### The invariant of a run -/

/-- The blocks that the program holds, with the sizes it has asked for. -/
def askedBlocks (l : List Chunk) : List MemBlock :=
  l.map fun c => ⟨c.ap - sizeofHeader, Heap.nunits c.nbytes⟩

/-- Before the first `malloc` there is no list. -/
def Untouched (base : Nat) (h : Heap) : Prop :=
  h.freep = 0 ∧ h.regions = [] ∧ h.live = [] ∧ h.brk = base + sizeofHeader

structure HeapInv (base : Nat) (h : Heap) : Prop where
  arena : Untouched base h ∨ ∃ fl, Arena base h fl (askedBlocks h.live)
  live : ∀ c ∈ h.live, Heap.InDomain c.nbytes ∧ sizeofHeader ≤ c.ap

section Step

variable {base : Nat} {h h' : Heap} {fl os : List MemBlock}

theorem nunits_eq (hn : Heap.InDomain n) : Heap.nunits n = (n + 15) / 16 + 1 := by
  unfold Heap.InDomain at hn
  exact Nat.mod_eq_of_lt (show (n + 16 - 1) / 16 + 1 < 2 ^ 32 by omega)

/-- The order of the other blocks does not matter. -/
theorem Arena.perm {os' : List MemBlock} (ha : Arena base h fl os) (hp : os.Perm os') :
    Arena base h fl os' := by
  have hheaders : headers os' = headers os := ((hp.map (units sizeofHeader)).sum_eq).symm
  refine { ha with parts := ?_, pos := fun b hb => ?_, sizeOther := fun b hb => ?_ }
  · have := ha.parts
    simp only [headers, unitsOf_append] at this hheaders ⊢
    rw [hheaders, this]
  · rcases mem_append.mp hb with hb | hb
    · exact ha.pos b (mem_append_left _ hb)
    · exact ha.pos b (mem_append_right _ (hp.mem_iff.mpr hb))
  · exact ha.sizeOther b (hp.mem_iff.mpr hb)

/-- Only the headers, `freep` and the regions matter. -/
theorem Arena.withLive (ha : Arena base h fl os) (l : List Chunk) :
    Arena base { h with live := l } fl os :=
  { ring := ha.ring, freep := ha.freep, size := ha.size, ascending := ha.ascending
    spaced := ha.spaced, above := ha.above, brk := ha.brk, parts := ha.parts, pos := ha.pos
    sizeOther := ha.sizeOther, few := ha.few }

/-- The first `malloc` makes a ring of `base` alone. -/
theorem arena_init (hu : Untouched base h) : Arena base (h.init base) [] [] := by
  obtain ⟨hfreep, hregions, -, hbrk⟩ := hu
  have hinit : h.init base = { (h.setPtr base base).setSize base 0 with freep := base } :=
    if_pos hfreep
  rw [hinit]
  refine { ring := linked_cons_cons.mpr ⟨update_self _ _ _, .singleton _⟩
           freep := mem_cons_self, size := fun b hb => ?_
           ascending := pairwise_singleton _ _, spaced := ?_, above := ?_, brk := ?_
           parts := ?_, pos := by simp, sizeOther := by simp, few := ?_ }
  · obtain rfl := mem_singleton.mp hb
    exact update_self _ _ _
  · change Spaced sizeofHeader (headers h.regions)
    rw [hregions]
    exact ⟨Multiset.nodup_zero, by simp⟩
  · change ∀ u ∈ headers h.regions, _
    rw [hregions]
    simp
  · exact Nat.le_of_eq hbrk.symm
  · change _ = headers h.regions
    rw [hregions]
    rfl
  · change (h.regions.map MemBlock.units).sum < _
    rw [hregions]
    decide

/-- What `malloc` starts with. -/
theorem HeapInv.init (hi : HeapInv base h) (hbase : 0 < base) :
    (∃ fl, Arena base (h.init base) fl (askedBlocks h.live)) ∧
      (h.init base).regions = h.regions ∧ (h.init base).live = h.live := by
  rcases hi.arena with hu | ⟨fl, ha⟩
  · have hlive := hu.2.2.1
    refine ⟨⟨[], ?_⟩, ?_⟩
    · rw [hlive]
      exact arena_init hu
    · unfold Heap.init
      rw [if_pos hu.1]
      exact ⟨rfl, rfl⟩
  · have hne : h.freep ≠ 0 := by
      obtain ⟨b, hb, hfreep⟩ := mem_map.mp ha.freep
      have := ha.toFreeList.base_le hb
      omega
    unfold Heap.init
    rw [if_neg hne]
    exact ⟨⟨fl, ha⟩, rfl, rfl⟩

theorem totalUnits_le_of_prefix {h h' : Heap} (hp : h.regions <+: h'.regions) :
    totalUnits h ≤ totalUnits h' := by
  obtain ⟨rest, hrest⟩ := hp
  unfold totalUnits
  rw [← hrest, map_append, sum_append]
  exact Nat.le_add_right _ _

theorem HeapInv.malloc (hi : HeapInv base h) (hbase : 0 < base) (hn : Heap.InDomain n)
    (sbrk : Nat → Option Nat) :
    ∃ k, ∀ fuel > k, MallocEnd base (h.init base) (askedBlocks h.live) (Heap.nunits n) sbrk
      (h.malloc base fuel n sbrk) := by
  obtain ⟨⟨fl, ha⟩, -, -⟩ := hi.init hbase
  refine ha.mallocLoop hbase ?_
  rw [nunits_eq hn]
  exact Nat.succ_pos _

/-- The program holds one more block. -/
theorem heapInv_taken {r : Nat × Heap} {live : List Chunk} (hn : Heap.InDomain n)
    (hlive : ∀ c ∈ live, Heap.InDomain c.nbytes ∧ sizeofHeader ≤ c.ap)
    (hheader : sizeofHeader ≤ r.1) (hr : r.2.live = live)
    (ha : ∃ fl, Arena base r.2 fl (⟨r.1 - sizeofHeader, Heap.nunits n⟩ :: askedBlocks live)) :
    HeapInv base { r.2 with live := r.2.live ++ [⟨r.1, n⟩] } := by
  obtain ⟨fl, ha⟩ := ha
  refine ⟨.inr ⟨fl, (ha.withLive _).perm ?_⟩, fun c hc => ?_⟩
  · rw [hr, askedBlocks, askedBlocks, map_append]
    exact (perm_append_singleton _ _).symm
  · rw [hr] at hc
    rcases mem_append.mp hc with hc | hc
    · exact hlive c hc
    · obtain rfl := mem_singleton.mp hc
      exact ⟨hn, hheader⟩

/-- `malloc` keeps the invariant. -/
theorem HeapInv.step_malloc (hi : HeapInv base h) (hbase : 0 < base) {sbrk : Nat → Option Nat}
    (hstep : h.step base fuel (.malloc n sbrk) = some h') (hfew : totalUnits h' < 2 ^ 32) :
    HeapInv base h' := by
  by_cases hn : Heap.InDomain n
  · obtain ⟨r, hr, rfl⟩ := Option.map_eq_some_iff.mp ((if_pos hn).symm.trans hstep)
    obtain ⟨⟨fl, ha⟩, hregions, hlive⟩ := hi.init hbase
    obtain ⟨k, hk⟩ := hi.malloc hbase hn sbrk
    -- with more fuel the result is the same
    have hmore : h.malloc base (fuel + k + 1) n sbrk = some r :=
      mallocLoop_mono hr (Nat.le_add_right fuel (k + 1))
    have htotal : totalUnits r.2 < 2 ^ 32 := by
      by_cases h0 : r.1 = 0
      · rwa [if_pos h0] at hfew
      · rwa [if_neg h0] at hfew
    have hne : sizeofHeader ≤ r.1 → r.1 ≠ 0 := fun hle h0 => by
      have := sizeofHeader_pos
      omega
    cases hk (fuel + k + 1) (by omega) with
    | found r' hr' htaken =>
      cases hmore.symm.trans hr'
      rw [if_neg (hne htaken.header)]
      exact heapInv_taken hn hi.live htaken.header (htaken.live.trans hlive) htaken.arena
    | failed hsbrk hr' =>
      cases hmore.symm.trans hr'
      rw [if_pos rfl]
      exact ⟨.inr ⟨fl, hlive ▸ ha⟩, fun c hc => hi.live c (hlive ▸ hc)⟩
    | grown gap hsbrk hgrown hr' =>
      have hle := hgrown r hmore
      have hfew' : totalUnits (h.init base) + wanted (Heap.nunits n) < 2 ^ 32 := by
        obtain ⟨rest, hrest⟩ := hle
        have hsum := congrArg (fun l => (l.map MemBlock.units).sum) hrest
        simp only [map_append, map_cons, map_nil, sum_append, sum_cons,
          sum_nil] at hsum
        unfold totalUnits at htotal ⊢
        omega
      obtain ⟨r', hr', hheader, harena, hlive'⟩ := hr' hfew'
      cases hmore.symm.trans hr'
      rw [if_neg (hne hheader)]
      exact heapInv_taken hn hi.live hheader (hlive'.trans hlive) harena
  · cases (if_neg hn).symm.trans hstep

/-- The block of a live pointer, and the others. -/
theorem HeapInv.held (hi : HeapInv base h) {ap : Nat} (hap : ∃ c ∈ h.live, c.ap = ap) :
    ∃ fl n, Arena base h fl (askedBlocks h.live) ∧ (askedBlocks h.live).Perm
      (⟨ap - sizeofHeader, Heap.nunits n⟩ ::
        askedBlocks (h.live.eraseP fun c => c.ap = ap)) := by
  obtain ⟨c, hc, hcap⟩ := hap
  obtain ⟨c', l₁, l₂, -, hc', hl, herase⟩ :=
    exists_of_eraseP (p := fun c => decide (c.ap = ap)) hc (decide_eq_true hcap)
  rcases hi.arena with hu | ⟨fl, ha⟩
  · rw [hu.2.2.1] at hc
    cases hc
  · refine ⟨fl, c'.nbytes, ha, ?_⟩
    rw [herase, hl, askedBlocks, askedBlocks, map_append, map_append, map_cons,
      of_decide_eq_true hc']
    exact perm_middle

/-- `free` of a live block keeps the invariant. -/
theorem HeapInv.step_free (hi : HeapInv base h) {ap : Nat}
    (hstep : h.step base fuel (.free ap) = some h') : HeapInv base h' := by
  by_cases hap : ∃ c ∈ h.live, c.ap = ap
  · obtain ⟨h₁, hfree, rfl⟩ := Option.map_eq_some_iff.mp ((if_pos hap).symm.trans hstep)
    obtain ⟨fl, n, ha, hperm⟩ := hi.held hap
    obtain ⟨fl', ha', -⟩ := (ha.perm hperm).free.2 fuel h₁ hfree
    have hlive := (free_rest hfree).2.2
    refine ⟨.inr ⟨fl', ?_⟩, fun c hc => ?_⟩
    · exact hlive ▸ ha'.withLive _
    · exact hi.live c (mem_of_mem_eraseP (hlive ▸ hc))
  · cases (if_neg hap).symm.trans hstep

/-- Inside of a block, behind its header, there is no header. -/
theorem Arena.write {x : MemBlock} (ha : Arena base h fl (x :: os)) {a : Nat} (hlo : x.addr < a)
    (hhi : a < x.addr + sizeofHeader * x.units) (ptr size : Nat) :
    Arena base ((h.setPtr a ptr).setSize a size) fl (x :: os) := by
  have hapart := pairwise_append.mp ha.apart
  have hx := ha.above_base (mem_append_right fl mem_cons_self)
  have hfree : ∀ b ∈ root base :: fl, b.addr ≠ a := by
    intro b hb
    rcases mem_cons.mp hb with rfl | hb
    · simp only [root]
      omega
    · rcases hapart.2.2 b hb x mem_cons_self with h₁ | h₁ <;> omega
  have hother : ∀ b ∈ x :: os, b.addr ≠ a := by
    intro b hb
    rcases mem_cons.mp hb with rfl | hb
    · exact hlo.ne
    · rcases (pairwise_cons.mp hapart.2.1).1 b hb with h₁ | h₁ <;> omega
  refine { ring := Linked.congr ha.ring fun y hy => ?_, freep := ha.freep
           size := fun b hb => ?_, ascending := ha.ascending, spaced := ha.spaced
           above := ha.above, brk := ha.brk, parts := ha.parts, pos := ha.pos
           sizeOther := fun b hb => ?_, few := ha.few }
  · rw [dropLast_concat] at hy
    obtain ⟨b, hb, rfl⟩ := mem_map.mp hy
    exact update_of_ne (hfree b hb) _ _
  · exact (update_of_ne (hfree b hb) _ _).trans (ha.size b hb)
  · exact (update_of_ne (hother b hb) _ _).trans (ha.sizeOther b hb)

/-- A write of the program to its own blocks keeps the invariant. -/
theorem HeapInv.step_write (hi : HeapInv base h) {a ptr size : Nat}
    (hstep : h.step base fuel (.write a ptr size) = some h') : HeapInv base h' := by
  by_cases hw : h.Writable a
  · cases (if_pos hw).symm.trans hstep
    obtain ⟨c, hc, hlo, hhi⟩ := hw
    obtain ⟨fl, n, ha, hperm⟩ := hi.held ⟨c, hc, rfl⟩
    have hsize := (ha.perm hperm).sizeOther _ mem_cons_self
    refine ⟨.inr ⟨fl, ((ha.perm hperm).write hlo ?_ ptr size).perm hperm.symm⟩, hi.live⟩
    rwa [← hsize]
  · cases (if_neg hw).symm.trans hstep

/-- Every step keeps the invariant. -/
theorem HeapInv.step (hi : HeapInv base h) (hbase : 0 < base) {ev : HeapEvent}
    (hstep : h.step base fuel ev = some h') (hfew : totalUnits h' < 2 ^ 32) : HeapInv base h' := by
  cases ev with
  | malloc n sbrk => exact hi.step_malloc hbase hstep hfew
  | free ap => exact hi.step_free hstep
  | write a ptr size => exact hi.step_write hstep

/-- A step only adds regions. -/
theorem step_regions {ev : HeapEvent} (hstep : h.step base fuel ev = some h') :
    h.regions <+: h'.regions := by
  cases ev with
  | malloc n sbrk =>
    by_cases hn : Heap.InDomain n
    · obtain ⟨r, hr, rfl⟩ := Option.map_eq_some_iff.mp ((if_pos hn).symm.trans hstep)
      have hinit : (h.init base).regions = h.regions := by
        unfold Heap.init
        split_ifs <;> rfl
      have hloop := (mallocLoop_rest hr).1
      rw [hinit] at hloop
      split_ifs <;> exact hloop
    · cases (if_neg hn).symm.trans hstep
  | free ap =>
    by_cases hap : ∃ c ∈ h.live, c.ap = ap
    · obtain ⟨h₁, hfree, rfl⟩ := Option.map_eq_some_iff.mp ((if_pos hap).symm.trans hstep)
      exact (free_rest hfree).2.1 ▸ prefix_rfl
    · cases (if_neg hap).symm.trans hstep
  | write a ptr size =>
    by_cases hw : h.Writable a
    · cases (if_pos hw).symm.trans hstep
      exact prefix_rfl
    · cases (if_neg hw).symm.trans hstep

theorem run_regions {evs : List HeapEvent} (hrun : h.run base fuel evs = some h') :
    h.regions <+: h'.regions := by
  induction evs generalizing h with
  | nil =>
    cases hrun
    exact prefix_rfl
  | cons ev evs ih =>
    obtain ⟨h₁, hstep, hrest⟩ := Option.bind_eq_some_iff.mp hrun
    exact (step_regions hstep).trans (ih hrest)

/-- The invariant along a run. -/
theorem HeapInv.run (hi : HeapInv base h) (hbase : 0 < base) {evs : List HeapEvent}
    (hrun : h.run base fuel evs = some h') (hfew : totalUnits h' < 2 ^ 32) : HeapInv base h' := by
  induction evs generalizing h with
  | nil =>
    cases hrun
    exact hi
  | cons ev evs ih =>
    obtain ⟨h₁, hstep, hrest⟩ := Option.bind_eq_some_iff.mp hrun
    -- there are no more units before the rest of the run than after it
    have hle := totalUnits_le_of_prefix (run_regions hrest)
    exact ih (hi.step hbase hstep (Nat.lt_of_le_of_lt hle hfew)) hrest

theorem heapInv_start (base : Nat) (ptr size : Nat → Nat) :
    HeapInv base (Heap.start base ptr size) :=
  ⟨.inl ⟨rfl, rfl, rfl, rfl⟩, by simp [Heap.start]⟩

/-- What the invariant says about the heap. -/
theorem HeapInv.ok (hi : HeapInv base h) : Untouched base h ∨ ∃ fl, HeapOk base h fl := by
  rcases hi.arena with hu | ⟨fl, ha⟩
  · exact .inl hu
  · have hsize : ∀ c ∈ h.live, h.size (c.ap - sizeofHeader) = Heap.nunits c.nbytes := fun c hc =>
      ha.sizeOther _ (mem_map_of_mem hc)
    have hheld : heldBlocks h = askedBlocks h.live :=
      map_congr_left fun c hc => by rw [hsize c hc]
    refine .inr ⟨fl, ha.toFreeList, fun c hc => ?_, ?_, fun r hr i hi' => ?_⟩
    · obtain ⟨hdomain, hap⟩ := hi.live c hc
      rw [hsize c hc, nunits_eq hdomain]
      refine ⟨hap, ?_⟩
      simp only [sizeofHeader] at hap ⊢
      omega
    · rw [hheld]
      exact ha.apart
    · rw [hheld]
      refine mem_exactly_one ha.spacedAll ?_
      have hmem : r.addr + sizeofHeader * i ∈ headers h.regions :=
        mem_unitsOf.mpr ⟨r, hr, mem_units.mpr ⟨i, hi', rfl⟩⟩
      rwa [← ha.parts] at hmem

end Step

/-! ### The result -/

/-- The heap of a program that calls `malloc` and `free` in any order, with pointers that it holds,
and that writes to its own blocks, while `sbrk` has returned less than `2 ^ 32` units in all.

The free list is a ring through `base`, ascending except for one wrap. Its blocks do not overlap
and are never neighbours. Every block that the program holds is as large as it has asked for, and
every unit that `sbrk` has returned is in exactly one block. From here every `free` of a pointer
that the program holds returns. Every `malloc` returns, if the units it may ask for do not make the
total too large, and it returns 0 only if `sbrk` has failed. -/
theorem umalloc_heap {base fuel : Nat} {ptr size : Nat → Nat} {evs : List HeapEvent} {h : Heap}
    (hbase : 0 < base) (hrun : (Heap.start base ptr size).run base fuel evs = some h)
    (hfew : totalUnits h < 2 ^ 32) :
    (Untouched base h ∨ ∃ fl, HeapOk base h fl) ∧
    (∀ ap, (∃ c ∈ h.live, c.ap = ap) → ∃ k, ∀ fuel > k, ∃ h', h.free fuel ap = some h') ∧
    (∀ n sbrk, Heap.InDomain n → totalUnits h + wanted (Heap.nunits n) < 2 ^ 32 →
      ∃ k, ∀ fuel > k, ∃ r, h.malloc base fuel n sbrk = some r ∧ (r.1 = 0 → sbrk 0 = none)) := by
  have hi := (heapInv_start base ptr size).run hbase hrun hfew
  refine ⟨hi.ok, fun ap hap => ?_, fun n sbrk hn hwanted => ?_⟩
  · obtain ⟨fl, n, ha, hperm⟩ := hi.held hap
    exact (ha.perm hperm).free.1
  · obtain ⟨k, hk⟩ := hi.malloc hbase hn sbrk
    obtain ⟨-, hregions, -⟩ := hi.init hbase
    have hheader := sizeofHeader_pos
    refine ⟨k, fun fuel hfuel => ?_⟩
    cases hk fuel hfuel with
    | found r hr htaken =>
      have := htaken.header
      exact ⟨r, hr, fun h0 => by omega⟩
    | failed hsbrk hr => exact ⟨_, hr, fun _ => hsbrk⟩
    | grown gap hsbrk hgrown hr =>
      have htotal : totalUnits (h.init base) = totalUnits h := by
        unfold totalUnits
        rw [hregions]
      obtain ⟨r, hr, hheader', -⟩ := hr (htotal ▸ hwanted)
      exact ⟨r, hr, fun h0 => by omega⟩

/-- Two blocks are allocated and one is freed. -/
def allocateAndFree : List HeapEvent :=
  [.malloc 100 fun _ => some 0, .malloc 20 fun _ => none, .free (32 + 65536 - 112)]

/-- Two blocks are allocated, and the first is freed again. -/
theorem umalloc_heap_allocateAndFree :
    ∃ h, (Heap.start 16 (fun _ => 0) fun _ => 0).run 16 5 allocateAndFree = some h ∧
      (totalUnits h < 2 ^ 32 ∧ h.live = [⟨65408, 20⟩]) ∧
      (Untouched 16 h ∨ ∃ fl, HeapOk 16 h fl) := by
  have hrun : (((Heap.start 16 (fun _ => 0) fun _ => 0).run 16 5 allocateAndFree).any
      fun h => totalUnits h < 2 ^ 32 ∧ h.live = [⟨65408, 20⟩]) = true := by
    decide +kernel
  obtain ⟨h, hh, hfacts⟩ := (Option.any_eq_true _ _).mp hrun
  have hfacts := of_decide_eq_true hfacts
  exact ⟨h, hh, hfacts, (umalloc_heap (by decide) hh hfacts.1).1⟩

/-- 33 neighbouring blocks, freed one after the other. -/
def bigHeap : List HeapEvent :=
  List.replicate 33 (.malloc (16 * (2 ^ 27 - 2)) fun _ => some 0) ++
    (List.range 33).map fun i => .free (48 + 16 * (2 ^ 27 - 1) * i)

/-- With `2 ^ 32` units or more, the size of a free block wraps and units get lost. -/
theorem umalloc_heap_wraps :
    ∃ h, (Heap.start 16 (fun _ => 0) fun _ => 0).run 16 5 bigHeap = some h ∧
      ¬ (Untouched 16 h ∨ ∃ fl, HeapOk 16 h fl) := by
  have hrun : (((Heap.start 16 (fun _ => 0) fun _ => 0).run 16 5 bigHeap).any fun h =>
      h.live = [] ∧ h.ptr 16 = 32 ∧ h.ptr 32 = 16 ∧ h.size 32 = 134217695 ∧ h.freep = 32 ∧
        ⟨32 + 16 * (2 ^ 27 - 1) * 32, 2 ^ 27 - 1⟩ ∈ h.regions) = true := by
    decide +kernel
  obtain ⟨h, hh, hfacts⟩ := (Option.any_eq_true _ _).mp hrun
  obtain ⟨hlive, hptr, hptr', hsize, hfreep, hregion⟩ := of_decide_eq_true hfacts
  refine ⟨h, hh, ?_⟩
  rintro (hu | ⟨fl, hok⟩)
  · rw [hu.1] at hfreep
    cases hfreep
  -- the ring is `base` and one block
  have hring := hok.list.ring
  obtain ⟨c, rfl, hc⟩ : ∃ c, fl = [c] ∧ c.addr = 32 := by
    cases fl with
    | nil =>
      have hself : h.ptr 16 = 16 := (linked_cons_cons.mp hring).1
      omega
    | cons c l =>
      obtain ⟨hbase, hrest⟩ := linked_cons_cons.mp hring
      have hc : c.addr = 32 := hbase.symm.trans hptr
      cases l with
      | nil => exact ⟨c, rfl, hc⟩
      | cons d l =>
        have hd : h.ptr c.addr = d.addr := (linked_cons_cons.mp hrest).1
        have hbelow := ((pairwise_cons.mp hok.list.ascending).1 d (by simp)).addr_lt
        rw [hc, hptr'] at hd
        simp only [root] at hbelow
        omega
  have hunits : c.units = 134217695 := by
    rw [← hok.list.size c (by simp), hc, hsize]
  -- the first unit of the last region is not in it
  obtain ⟨b, ⟨hb, hu⟩, -⟩ := hok.once _ hregion 0 (by decide)
  have hnone : heldBlocks h = [] := by
    rw [heldBlocks, hlive]
    rfl
  rw [hnone, append_nil] at hb
  obtain rfl := mem_singleton.mp hb
  obtain ⟨i, hi, hu⟩ := mem_units.mp hu
  rw [hc] at hu
  simp only [sizeofHeader] at hu
  omega

end Xv6.Proofs
