import Xv6.Proofs.Umalloc.Free

/-!
# `Xv6.Proofs.Umalloc.Malloc`: allocating a block

`malloc` goes around the ring once. It takes a block from the ring, or the tail of one
(`Arena.take`), or it comes back to `freep` and calls `morecore`. The new region is then in the
ring, and the second time around the loop finds it before it is back at `freep`
(`Arena.mallocLoop_reach`), so `morecore` is called at most once.
-/

set_option autoImplicit false

namespace Xv6.Proofs

open Lib List
open Function (update_of_ne update_self)

variable {gap : Nat} {r : Nat × Heap}

section Take

variable {base : Nat} {h : Heap} {fl os l₁ l₂ : List MemBlock} {b c : MemBlock} {n : Nat}

/-- A block that `malloc` has taken. -/
structure Taken (base : Nat) (h : Heap) (os : List MemBlock) (n : Nat) (r : Nat × Heap) : Prop where
  header : sizeofHeader ≤ r.1
  arena : ∃ fl, Arena base r.2 fl (⟨r.1 - sizeofHeader, n⟩ :: os)
  brk : r.2.brk = h.brk
  regions : r.2.regions = h.regions
  live : r.2.live = h.live

section

variable (ha : Arena base h fl os) (hl : root base :: fl = l₁ ++ b :: c :: l₂)
include ha hl

/-- The block `c` becomes the blocks `m`, which stay in the ring, and the block `x`, which leaves
it. Only the link of the block before and the sizes of the new blocks change. -/
theorem Arena.carve {m : List MemBlock} {x : MemBlock} {h' : Heap}
    (hregions : h'.regions = h.regions) (hbrk : h'.brk = h.brk) (hfreep : h'.freep = b.addr)
    (hptr : ∀ a ∈ l₁ ++ l₂, h'.ptr a.addr = h.ptr a.addr)
    (hlinks : Linked h'.ptr ((b :: m).map MemBlock.addr ++ [headOr base l₂]))
    (hsize : ∀ a ∈ l₁ ++ b :: l₂ ++ os, h'.size a.addr = h.size a.addr)
    (hsizes : ∀ a ∈ x :: m, h'.size a.addr = a.units) (hbelow : (b :: m ++ l₂).Pairwise Below)
    (hparts : headers (x :: m) = units sizeofHeader c) (hpos : ∀ a ∈ x :: m, 0 < a.units)
    (hx : c.addr ≤ x.addr) : ∃ fl', Arena base h' fl' (x :: os) := by
  have hf := ha.toFreeList
  have hl' : root base :: fl = (l₁ ++ [b]) ++ c :: l₂ := by
    rw [hl, append_assoc, singleton_append]
  obtain ⟨hlow, -, -⟩ := hf.links hl
  obtain ⟨-, -, hhigh⟩ := hf.links hl'
  obtain ⟨hbelow₁, hbelow₂, hsorted₁, -⟩ := hf.below hl
  have hring : ∀ {d}, d ∈ l₁ ++ b :: l₂ → d ∈ root base :: fl := by
    intro d hd
    rw [hl]
    simp only [mem_append, mem_cons] at hd ⊢
    tauto
  obtain ⟨fl', hfl'⟩ : ∃ fl', root base :: fl' = l₁ ++ b :: (m ++ l₂) := by
    cases l₁ with
    | nil => exact ⟨m ++ l₂, by rw [(List.cons.inj hl).1]; rfl⟩
    | cons d l₁ => exact ⟨l₁ ++ b :: (m ++ l₂), by rw [(List.cons.inj hl).1]; rfl⟩
  have hbase : base ≤ b.addr := hf.base_le (hring (by simp))
  have hbc := (hbelow₂ c mem_cons_self).addr_lt
  refine ⟨fl', ha.ofRing hregions hbrk hfl' ?_ ?_ ?_ ?_ ?_ ?_ ?_ ?_⟩
  · rw [map_append, map_cons, append_assoc, cons_append]
    refine linked_split.mpr ⟨?_, ?_⟩
    · refine Linked.congr hlow fun y hy => ?_
      rw [dropLast_concat] at hy
      obtain ⟨d, hd, rfl⟩ := mem_map.mp hy
      exact hptr d (mem_append_left _ hd)
    · have hrest : Linked h'.ptr (l₂.map MemBlock.addr ++ [base]) := by
        refine Linked.congr hhigh fun y hy => ?_
        rw [dropLast_concat] at hy
        obtain ⟨d, hd, rfl⟩ := mem_map.mp hy
        exact hptr d (mem_append_right _ hd)
      rw [map_append, append_assoc, ← cons_append]
      cases l₂ with
      | nil => exact hlinks
      | cons d l₂ => exact linked_split.mpr ⟨hlinks, hrest⟩
  · rw [hfreep]
    simp
  · intro d hd
    have hcases : d ∈ l₁ ++ b :: l₂ ∨ d ∈ m := by
      simp only [mem_append, mem_cons] at hd ⊢
      tauto
    rcases hcases with hd | hd
    · rw [hsize d (mem_append_left _ hd)]
      exact hf.size d (hring hd)
    · exact hsizes d (mem_cons_of_mem x hd)
  · intro d hd
    rcases mem_cons.mp hd with rfl | hd
    · exact hsizes _ mem_cons_self
    · rw [hsize d (mem_append_right _ hd)]
      exact ha.sizeOther d hd
  · refine pairwise_append.mpr ⟨hsorted₁, hbelow, fun d hd e he => ?_⟩
    rcases mem_cons.mp he with rfl | he
    · exact hbelow₁ d hd
    · exact Nat.lt_trans (hbelow₁ d hd) ((pairwise_cons.mp hbelow).1 e he).addr_lt
  · rw [hl]
    simp only [headers, unitsOf_append, unitsOf_cons] at hparts ⊢
    rw [← hparts]
    abel
  · intro d hd hbase'
    have hcases : d ∈ l₁ ++ b :: l₂ ∨ d ∈ x :: m ∨ d ∈ os := by
      simp only [mem_append, mem_cons] at hd ⊢
      tauto
    rcases hcases with hd | hd | hd
    · rcases mem_cons.mp (hring hd) with rfl | hd
      · exact absurd hbase' (Nat.lt_irrefl _)
      · exact ha.pos d (mem_append_left _ hd)
    · exact hpos d hd
    · exact ha.pos d (mem_append_right _ hd)
  · intro d hd
    rcases mem_cons.mp hd with rfl | hd
    · omega
    · have := ha.above_base (mem_append_right fl hd)
      exact Nat.lt_of_lt_of_le (Nat.lt_add_of_pos_right sizeofHeader_pos) this

/-- The blocks that stay when `c` is taken have no address inside of `c`. -/
theorem Arena.addr_outside {a : MemBlock} (hm : a ∈ l₁ ++ b :: l₂ ++ os) :
    a.addr < c.addr ∨ c.addr + sizeofHeader * c.units ≤ a.addr := by
  have hf := ha.toFreeList
  have hl' : root base :: fl = (l₁ ++ [b]) ++ c :: l₂ := by
    rw [hl, append_assoc, singleton_append]
  obtain ⟨hlower, hupper, -, -⟩ := hf.below hl'
  rcases mem_append.mp hm with hm | hm
  · have hcases : a ∈ l₁ ++ [b] ∨ a ∈ l₂ := by
      simp only [mem_append, mem_cons] at hm ⊢
      tauto
    rcases hcases with hm | hm
    · exact .inl (hlower a hm).addr_lt
    · exact .inr (Nat.le_of_lt (hupper a hm))
  · have hc : c ∈ fl := mem_of_split hl mem_cons_self
    have hpos := Nat.mul_pos sizeofHeader_pos (ha.pos a (mem_append_right _ hm))
    rcases (pairwise_append.mp ha.apart).2.2 c hc a hm with h₁ | h₁
    · exact .inr h₁
    · exact .inl (by omega)

/-- `malloc` takes a block that is large enough, or its tail. -/
theorem Arena.take (hn : 0 < n) (hc : n ≤ c.units) :
    Taken base h os n (h.take n b.addr c.addr) := by
  have hf := ha.toFreeList
  have hcfl : c ∈ fl := mem_of_split hl mem_cons_self
  have hsizec : h.size c.addr = c.units := hf.size c (mem_cons_of_mem _ hcfl)
  have hl' : root base :: fl = (l₁ ++ [b]) ++ c :: l₂ := by
    rw [hl, append_assoc, singleton_append]
  obtain ⟨-, hptrb, -⟩ := hf.links hl
  obtain ⟨-, hptrc, -⟩ := hf.links hl'
  obtain ⟨hbelow₁, hbelow₂, -, hsorted⟩ := hf.below hl
  obtain ⟨hbelowc, hsorted₂⟩ := pairwise_cons.mp hsorted
  have hbelowb : ∀ d ∈ l₂, Below b d := fun d hd => hbelow₂ d (mem_cons_of_mem c hd)
  unfold Heap.take
  rw [hsizec]
  by_cases hall : c.units = n
  · rw [if_pos hall]
    refine ⟨Nat.le_add_left _ _, ?_, rfl, rfl, rfl⟩
    rw [Nat.add_sub_cancel]
    refine ha.carve (m := []) hl rfl rfl rfl (fun a hm => update_of_ne ?_ _ _) ?_
      (fun a hm => rfl) ?_ (pairwise_cons.mpr ⟨hbelowb, hsorted₂⟩) ?_ ?_ (Nat.le_refl _)
    · rcases mem_append.mp hm with hm | hm
      · exact (hbelow₁ a hm).addr_lt.ne
      · exact (hbelowb a hm).addr_lt.ne'
    · exact linked_cons_cons.mpr ⟨(update_self _ _ _).trans hptrc, .singleton _⟩
    · intro a hm
      obtain rfl := mem_singleton.mp hm
      exact hsizec.trans hall
    · rw [← hall]
      exact add_zero _
    · intro a hm
      obtain rfl := mem_singleton.mp hm
      exact hn
  · rw [if_neg hall]
    have hrest : 0 < c.units - n := by omega
    have hq : c.addr < c.addr + sizeofHeader * (c.units - n) :=
      Nat.lt_add_of_pos_right (Nat.mul_pos sizeofHeader_pos hrest)
    have hend : sizeofHeader * (c.units - n) + sizeofHeader * n = sizeofHeader * c.units := by
      rw [← Nat.mul_add, Nat.sub_add_cancel hc]
    have hnpos := Nat.mul_pos sizeofHeader_pos hn
    simp only [Heap.setSize, update_self]
    refine ⟨Nat.le_add_left _ _, ?_, rfl, rfl, rfl⟩
    rw [Nat.add_sub_cancel]
    refine ha.carve (m := [⟨c.addr, c.units - n⟩]) hl rfl rfl rfl (fun a hm => rfl) ?_
      (fun a hm => ?_) ?_ ?_ ?_ ?_ (Nat.le_of_lt hq)
    · exact linked_cons_cons.mpr ⟨hptrb, linked_cons_cons.mpr ⟨hptrc, .singleton _⟩⟩
    · rcases ha.addr_outside hl hm with hout | hout
      · exact (update_of_ne (by omega) _ _).trans (update_of_ne (by omega) _ _)
      · exact (update_of_ne (by omega) _ _).trans (update_of_ne (by omega) _ _)
    · intro a hm
      rcases mem_cons.mp hm with rfl | hm
      · exact update_self _ _ _
      · obtain rfl := mem_singleton.mp hm
        exact (update_of_ne hq.ne _ _).trans (update_self _ _ _)
    · refine pairwise_cons.mpr ⟨fun d hd => ?_, pairwise_cons.mpr ⟨fun d hd => ?_,
        hsorted₂⟩⟩
      · rcases mem_cons.mp hd with rfl | hd
        · exact hbelow₂ c mem_cons_self
        · exact hbelowb d hd
      · have := hbelowc d hd
        unfold Below at this ⊢
        simp only
        omega
    · have := units_add (w := sizeofHeader) c.addr (c.units - n) n
      rw [Nat.sub_add_cancel hc] at this
      simp only [headers, unitsOf_cons, unitsOf_nil, add_zero]
      rw [add_comm, ← this]
    · intro a hm
      rcases mem_cons.mp hm with rfl | hm
      · exact hn
      · obtain rfl := mem_singleton.mp hm
        exact hrest

end

/-- The same, for the block after a node of the ring. -/
theorem Arena.take_at {prevp : Nat} (ha : Arena base h fl os)
    (hprev : prevp ∈ (root base :: fl).map MemBlock.addr) (hn : 0 < n)
    (hsize : n ≤ h.size (h.ptr prevp)) : Taken base h os n (h.take n prevp (h.ptr prevp)) := by
  have hf := ha.toFreeList
  obtain ⟨b, hb, rfl⟩ := mem_map.mp hprev
  obtain ⟨l₁, l₂, hl⟩ := append_of_mem hb
  obtain ⟨-, hptr, -⟩ := hf.links hl
  rw [hptr] at hsize ⊢
  cases l₂ with
  | nil =>
    -- `base` has no units
    have hbase : h.size base = 0 := hf.size (root base) mem_cons_self
    simp only [headOr, hbase] at hsize
    omega
  | cons c l₂ =>
    have hsizec : h.size c.addr = c.units :=
      hf.size c (mem_cons_of_mem _ (mem_of_split hl mem_cons_self))
    exact ha.take hl hn (hsizec ▸ hsize)

end Take

/-! ### `morecore` -/

section More

variable {base : Nat} {h : Heap} {fl os : List MemBlock}

/-- A new region is a block of its own. -/
theorem Arena.grow (ha : Arena base h fl os) {nu : Nat} (hnu : 0 < nu)
    (hfew : totalUnits h + nu < 2 ^ 32) :
    Arena base ((h.grow (h.brk + gap) nu).setSize (h.brk + gap) nu) fl
      (⟨h.brk + gap, nu⟩ :: os) := by
  have hbrk := ha.brk
  have hheader := sizeofHeader_pos
  -- everything else lies below the break
  have hlt : ∀ {a : MemBlock}, a ∈ fl ++ os → a.addr < h.brk := by
    intro a hm
    have hmem : a.addr ∈ headers h.regions := by
      rw [← ha.parts]
      exact mem_unitsOf.mpr ⟨a, hm, mem_units.mpr ⟨0, ha.pos a hm, by simp⟩⟩
    have := (ha.above _ hmem).2
    omega
  have hregions : headers (h.regions ++ [(⟨h.brk + gap, nu⟩ : MemBlock)])
      = headers h.regions + units sizeofHeader ⟨h.brk + gap, nu⟩ := by
    simp [headers]
  refine { ring := ha.ring, freep := ha.freep, ascending := ha.ascending, size := ?_,
           spaced := ?_, above := ?_, brk := ?_, parts := ?_, pos := ?_, sizeOther := ?_,
           few := ?_ }
  · intro a hm
    refine (update_of_ne ?_ _ _).trans (ha.size a hm)
    rcases mem_cons.mp hm with rfl | hm
    · simp only [root]
      omega
    · have := hlt (mem_append_left os hm)
      omega
  · change Spaced sizeofHeader (headers (h.regions ++ [(⟨h.brk + gap, nu⟩ : MemBlock)]))
    rw [hregions]
    refine ha.spaced.add_block hheader fun u hu => ?_
    exact Nat.le_trans (ha.above u hu).2 (Nat.le_add_right _ _)
  · change ∀ u ∈ headers (h.regions ++ [(⟨h.brk + gap, nu⟩ : MemBlock)]),
      base + sizeofHeader ≤ u ∧ u + sizeofHeader ≤ h.brk + gap + sizeofHeader * nu
    rw [hregions]
    intro u hu
    rcases Multiset.mem_add.mp hu with hu | hu
    · have := ha.above u hu
      exact ⟨this.1, by omega⟩
    · obtain ⟨i, hi, rfl⟩ := mem_units.mp hu
      have hle : sizeofHeader * (i + 1) ≤ sizeofHeader * nu := Nat.mul_le_mul_left _ hi
      rw [Nat.mul_add, Nat.mul_one] at hle
      simp only
      exact ⟨by omega, by omega⟩
  · change base + sizeofHeader ≤ h.brk + gap + sizeofHeader * nu
    omega
  · change headers (fl ++ ⟨h.brk + gap, nu⟩ :: os) = headers (h.regions ++ [⟨h.brk + gap, nu⟩])
    rw [hregions, ← ha.parts]
    simp only [headers, unitsOf_append, unitsOf_cons]
    abel
  · intro a hm
    have hcases : a = ⟨h.brk + gap, nu⟩ ∨ a ∈ fl ++ os := by
      simp only [mem_append, mem_cons] at hm ⊢
      tauto
    rcases hcases with rfl | hm
    · exact hnu
    · exact ha.pos a hm
  · intro a hm
    rcases mem_cons.mp hm with rfl | hm
    · exact update_self _ _ _
    · have := hlt (mem_append_right fl hm)
      exact (update_of_ne (by omega) _ _).trans (ha.sizeOther a hm)
  · change ((h.regions ++ [(⟨h.brk + gap, nu⟩ : MemBlock)]).map MemBlock.units).sum < 2 ^ 32
    rw [map_append, sum_append]
    simpa [totalUnits] using hfew

/-- The units that `morecore` asks for. -/
def wanted (n : Nat) : Nat := if n < 4096 then 4096 else n

theorem le_wanted (n : Nat) : n ≤ wanted n := by
  unfold wanted
  split_ifs <;> omega

/-- `morecore` returns, and there is a free block that is large enough. -/
theorem Arena.morecore (ha : Arena base h fl os) (hbase : 0 < base) {n : Nat} (gap : Nat)
    (hn : 0 < n) (hfew : totalUnits h + wanted n < 2 ^ 32) :
    ∃ k h' fl', (∀ fuel > k, h.morecore fuel n (some gap) = some (h'.freep, h')) ∧
      h'.freep ≠ 0 ∧ Arena base h' fl' os ∧ (∃ c ∈ fl', n ≤ c.units) ∧ h'.live = h.live := by
  have hgrow : Arena base ((h.grow (h.brk + gap) (wanted n)).setSize (h.brk + gap) (wanted n)) fl
      (⟨h.brk + gap + sizeofHeader - sizeofHeader, wanted n⟩ :: os) := by
    rw [Nat.add_sub_cancel]
    exact ha.grow (Nat.lt_of_lt_of_le hn (le_wanted n)) hfew
  obtain ⟨⟨k, hk⟩, hfree⟩ := hgrow.free
  obtain ⟨h', hrun⟩ := hk (k + 1) (Nat.lt_succ_self k)
  obtain ⟨fl', ha', c, hc, hle⟩ := hfree (k + 1) h' hrun
  obtain ⟨-, -, hlive⟩ := free_rest hrun
  refine ⟨k, h', fl', fun fuel hfuel => ?_, ?_, ha', ⟨c, hc, Nat.le_trans (le_wanted n) hle⟩, hlive⟩
  · exact Option.map_eq_some_iff.mpr ⟨h', free_mono hrun hfuel, rfl⟩
  · -- `freep` is in the ring, which lies at `base` and above it
    obtain ⟨b, hb, hfreep⟩ := mem_map.mp ha'.freep
    have := ha'.toFreeList.base_le hb
    omega

theorem morecore_mono {fuel fuel' n : Nat} {gap : Option Nat}
    (hrun : h.morecore fuel n gap = some r) (hle : fuel ≤ fuel') :
    h.morecore fuel' n gap = some r := by
  cases gap with
  | none => exact hrun
  | some gap =>
    obtain ⟨h', hfree, rfl⟩ := Option.map_eq_some_iff.mp hrun
    exact Option.map_eq_some_iff.mpr ⟨h', free_mono hfree hle, rfl⟩

end More

/-! ### The loop of `malloc` -/

section Loop

variable {base : Nat} {h : Heap} {fl os : List MemBlock} {n : Nat} {sbrk : Nat → Option Nat}

/-- The rest of a round in which the loop has come to `freep`. -/
def afterRound (n : Nat) (sbrk : Nat → Option Nat) (fuel calls : Nat) (h : Heap) :
    Option (Nat × Heap) :=
  match h.morecore fuel n (sbrk calls) with
  | none => none
  | some (p, h) =>
    if p = 0 then some (0, h) else h.mallocLoop n sbrk fuel (calls + 1) p (h.ptr p)

section Rounds

variable {fuel calls prevp p : Nat}

theorem mallocLoop_take (hp : n ≤ h.size p) :
    h.mallocLoop n sbrk (fuel + 1) calls prevp p = some (h.take n prevp p) :=
  if_pos hp

theorem mallocLoop_next (hp : ¬ n ≤ h.size p) (hne : p ≠ h.freep) :
    h.mallocLoop n sbrk (fuel + 1) calls prevp p = h.mallocLoop n sbrk fuel calls p (h.ptr p) := by
  rw [Heap.mallocLoop, if_neg hp, if_neg hne]

theorem mallocLoop_more (hp : ¬ n ≤ h.size p) (heq : p = h.freep) :
    h.mallocLoop n sbrk (fuel + 1) calls prevp p = afterRound n sbrk fuel calls h := by
  rw [Heap.mallocLoop, if_neg hp, if_pos heq]
  rfl

/-- More fuel does not change the result. -/
theorem mallocLoop_mono {fuel' : Nat} (hrun : h.mallocLoop n sbrk fuel calls prevp p = some r)
    (hle : fuel ≤ fuel') : h.mallocLoop n sbrk fuel' calls prevp p = some r := by
  induction fuel generalizing fuel' calls prevp p h with
  | zero => cases hrun
  | succ fuel ih =>
    obtain ⟨fuel', rfl⟩ := Nat.exists_eq_succ_of_ne_zero (by omega : fuel' ≠ 0)
    rw [Nat.succ_eq_add_one] at *
    by_cases hp : n ≤ h.size p
    · rw [mallocLoop_take hp] at hrun ⊢
      exact hrun
    by_cases heq : p = h.freep
    · rw [mallocLoop_more hp heq] at hrun ⊢
      unfold afterRound at hrun ⊢
      cases hmore : h.morecore fuel n (sbrk calls) with
      | none =>
        rw [hmore] at hrun
        cases hrun
      | some r' =>
        rw [morecore_mono hmore (by omega)]
        rw [hmore] at hrun
        by_cases h0 : r'.1 = 0
        · simpa [h0] using hrun
        · simp only [if_neg h0] at hrun ⊢
          exact ih hrun (by omega)
    · rw [mallocLoop_next hp heq] at hrun ⊢
      exact ih hrun (by omega)

theorem take_rest (h : Heap) (n prevp p : Nat) :
    (h.take n prevp p).2.regions = h.regions ∧ (h.take n prevp p).2.live = h.live := by
  unfold Heap.take
  split_ifs <;> exact ⟨rfl, rfl⟩

/-- `morecore` records the memory that it gets. -/
theorem morecore_rest {gap : Option Nat} (hrun : h.morecore fuel n gap = some r) :
    r.2.regions = h.regions ++ (gap.map fun gap => ⟨h.brk + gap, wanted n⟩).toList ∧
      r.2.live = h.live := by
  cases gap with
  | none =>
    cases hrun
    exact ⟨(append_nil _).symm, rfl⟩
  | some gap =>
    obtain ⟨h', hfree, rfl⟩ := Option.map_eq_some_iff.mp hrun
    obtain ⟨-, hregions, hlive⟩ := free_rest hfree
    exact ⟨hregions, hlive⟩

/-- The loop only adds regions. -/
theorem mallocLoop_rest (hrun : h.mallocLoop n sbrk fuel calls prevp p = some r) :
    h.regions <+: r.2.regions ∧ r.2.live = h.live := by
  induction fuel generalizing calls prevp p h with
  | zero => cases hrun
  | succ fuel ih =>
    by_cases hp : n ≤ h.size p
    · rw [mallocLoop_take hp] at hrun
      cases hrun
      obtain ⟨hregions, hlive⟩ := take_rest h n prevp p
      exact ⟨hregions ▸ prefix_rfl, hlive⟩
    by_cases heq : p = h.freep
    · rw [mallocLoop_more hp heq] at hrun
      unfold afterRound at hrun
      cases hmore : h.morecore fuel n (sbrk calls) with
      | none =>
        rw [hmore] at hrun
        cases hrun
      | some r' =>
        rw [hmore] at hrun
        obtain ⟨hregions, hlive⟩ := morecore_rest hmore
        have hgrow : h.regions <+: r'.2.regions := hregions ▸ prefix_append _ _
        by_cases h0 : r'.1 = 0
        · simp only [if_pos h0] at hrun
          cases hrun
          exact ⟨hgrow, hlive⟩
        · simp only [if_neg h0] at hrun
          obtain ⟨hrest, hlive'⟩ := ih hrun
          exact ⟨hgrow.trans hrest, hlive'.trans hlive⟩
    · rw [mallocLoop_next hp heq] at hrun
      exact ih hrun

end Rounds

/-- If a block is large enough, and the loop comes to it before it comes to `freep`, then the
loop takes a block. -/
theorem Arena.mallocLoop_reach (ha : Arena base h fl os) (hn : 0 < n) {prevp q j : Nat}
    (hprev : prevp ∈ (root base :: fl).map MemBlock.addr) (hj : h.ptr^[j] (h.ptr prevp) = q)
    (hq : n ≤ h.size q) (hstop : ∀ i < j, h.ptr^[i] (h.ptr prevp) ≠ h.freep)
    (sbrk : Nat → Option Nat) (calls : Nat) {fuel : Nat} (hfuel : j < fuel) :
    ∃ r, h.mallocLoop n sbrk fuel calls prevp (h.ptr prevp) = some r ∧ Taken base h os n r := by
  obtain ⟨fuel, rfl⟩ := Nat.exists_eq_succ_of_ne_zero (Nat.ne_zero_of_lt hfuel)
  induction j generalizing prevp fuel with
  | zero =>
    have hp : n ≤ h.size (h.ptr prevp) := by
      rw [show h.ptr prevp = q from hj]
      exact hq
    exact ⟨_, mallocLoop_take hp, ha.take_at hprev hn hp⟩
  | succ j ih =>
    by_cases hp : n ≤ h.size (h.ptr prevp)
    · exact ⟨_, mallocLoop_take hp, ha.take_at hprev hn hp⟩
    · obtain ⟨fuel, rfl⟩ := Nat.exists_eq_succ_of_ne_zero (by omega : fuel ≠ 0)
      rw [Nat.succ_eq_add_one, mallocLoop_next hp (hstop 0 (Nat.succ_pos j))]
      refine ih (ring_next_mem ha.ring hprev) hj (fun i hi => ?_) fuel (by omega)
      exact hstop (i + 1) (by omega)

/-- A round takes a block or comes to `freep`. -/
theorem Arena.mallocLoop_round (ha : Arena base h fl os) (hn : 0 < n) {prevp j : Nat}
    (hprev : prevp ∈ (root base :: fl).map MemBlock.addr)
    (hj : h.ptr^[j] (h.ptr prevp) = h.freep) (sbrk : Nat → Option Nat) (calls : Nat) {fuel : Nat}
    (hfuel : j < fuel) :
    (∃ r, h.mallocLoop n sbrk fuel calls prevp (h.ptr prevp) = some r ∧ Taken base h os n r) ∨
    ∃ fuel', fuel ≤ fuel' + j + 1 ∧
      h.mallocLoop n sbrk fuel calls prevp (h.ptr prevp) = afterRound n sbrk fuel' calls h := by
  obtain ⟨fuel, rfl⟩ := Nat.exists_eq_succ_of_ne_zero (Nat.ne_zero_of_lt hfuel)
  induction j generalizing prevp fuel with
  | zero =>
    by_cases hp : n ≤ h.size (h.ptr prevp)
    · exact .inl ⟨_, mallocLoop_take hp, ha.take_at hprev hn hp⟩
    · exact .inr ⟨fuel, Nat.le_refl _, mallocLoop_more hp hj⟩
  | succ j ih =>
    by_cases hp : n ≤ h.size (h.ptr prevp)
    · exact .inl ⟨_, mallocLoop_take hp, ha.take_at hprev hn hp⟩
    by_cases heq : h.ptr prevp = h.freep
    · exact .inr ⟨fuel, by omega, mallocLoop_more hp heq⟩
    · obtain ⟨fuel, rfl⟩ := Nat.exists_eq_succ_of_ne_zero (by omega : fuel ≠ 0)
      rw [Nat.succ_eq_add_one, mallocLoop_next hp heq]
      rcases ih (ring_next_mem ha.ring hprev) hj fuel (by omega) with hfound | ⟨fuel', hle, hmore⟩
      · exact .inl hfound
      · exact .inr ⟨fuel', by omega, hmore⟩

/-- What the loop of `malloc` comes to when it has enough fuel. -/
inductive MallocEnd (base : Nat) (h : Heap) (os : List MemBlock) (n : Nat) (sbrk : Nat → Option Nat)
    (result : Option (Nat × Heap)) : Prop
  /-- there was a block in the list -/
  | found (r : Nat × Heap) (hr : result = some r) (htaken : Taken base h os n r)
  | failed (hsbrk : sbrk 0 = none) (hr : result = some (0, h))
  /-- there is a new region -/
  | grown (gap : Nat) (hsbrk : sbrk 0 = some gap)
      (hregions : ∀ r, result = some r →
        h.regions ++ [⟨h.brk + gap, wanted n⟩] <+: r.2.regions)
      (hr : totalUnits h + wanted n < 2 ^ 32 → ∃ r, result = some r ∧ sizeofHeader ≤ r.1 ∧
        (∃ fl, Arena base r.2 fl (⟨r.1 - sizeofHeader, n⟩ :: os)) ∧ r.2.live = h.live)

/-- The memory that `morecore` gets stays recorded. -/
theorem afterRound_regions {fuel calls : Nat} (hgap : sbrk calls = some gap)
    (hrun : afterRound n sbrk fuel calls h = some r) :
    h.regions ++ [⟨h.brk + gap, wanted n⟩] <+: r.2.regions := by
  unfold afterRound at hrun
  cases hmore : h.morecore fuel n (sbrk calls) with
  | none =>
    rw [hmore] at hrun
    cases hrun
  | some r' =>
    rw [hmore] at hrun
    have hregions := (morecore_rest hmore).1
    rw [hgap] at hregions
    rw [show h.regions ++ [⟨h.brk + gap, wanted n⟩] = r'.2.regions from hregions.symm]
    by_cases h0 : r'.1 = 0
    · simp only [if_pos h0] at hrun
      cases hrun
      exact prefix_rfl
    · simp only [if_neg h0] at hrun
      exact (mallocLoop_rest hrun).1

/-- With a new region, the second round takes a block. -/
theorem Arena.afterRound (ha : Arena base h fl os) (hbase : 0 < base) (hn : 0 < n) {calls : Nat}
    (hgap : sbrk calls = some gap) (hfew : totalUnits h + wanted n < 2 ^ 32) :
    ∃ k, ∀ fuel > k, ∃ r, afterRound n sbrk fuel calls h = some r ∧ sizeofHeader ≤ r.1 ∧
      (∃ fl, Arena base r.2 fl (⟨r.1 - sizeofHeader, n⟩ :: os)) ∧ r.2.live = h.live := by
  obtain ⟨k, h', fl', hmore, hne, ha', ⟨c, hc, hle⟩, hlive⟩ :=
    ha.morecore hbase gap hn hfew
  have hcmem : c.addr ∈ (root base :: fl').map MemBlock.addr :=
    mem_map_of_mem (mem_cons_of_mem _ hc)
  have hcsize : n ≤ h'.size c.addr := by
    rw [ha'.size c (mem_cons_of_mem _ hc)]
    exact hle
  obtain ⟨j, hj, hstop⟩ := ring_reachBefore ha'.ring ha'.freep hcmem
  refine ⟨k + j, fun fuel hfuel => ?_⟩
  obtain ⟨r, hr, htaken⟩ := ha'.mallocLoop_reach hn ha'.freep hj hcsize hstop sbrk (calls + 1)
    (show j < fuel by omega)
  refine ⟨r, ?_, htaken.header, htaken.arena, htaken.live.trans hlive⟩
  unfold Proofs.afterRound
  rw [hgap, hmore fuel (by omega)]
  simp only [if_neg hne]
  exact hr

/-- The loop of `malloc` ends with a block, or with no memory left. -/
theorem Arena.mallocLoop (ha : Arena base h fl os) (hbase : 0 < base) (hn : 0 < n) :
    ∃ k, ∀ fuel > k, MallocEnd base h os n sbrk
      (h.mallocLoop n sbrk fuel 0 h.freep (h.ptr h.freep)) := by
  obtain ⟨j, hj⟩ := ring_reach ha.ring (ring_next_mem ha.ring ha.freep) ha.freep
  cases hsbrk : sbrk 0 with
  | none =>
    refine ⟨j, fun fuel hfuel => ?_⟩
    rcases ha.mallocLoop_round hn ha.freep hj sbrk 0 hfuel with
      ⟨r, hr, htaken⟩ | ⟨fuel', -, hmore⟩
    · exact .found r hr htaken
    · refine .failed hsbrk (hmore.trans ?_)
      unfold Proofs.afterRound
      rw [hsbrk]
      rfl
  | some gap =>
    -- the second round needs fuel only if there are not too many units
    obtain ⟨k, hk⟩ : ∃ k, ∀ fuel > k, totalUnits h + wanted n < 2 ^ 32 →
        ∃ r, Proofs.afterRound n sbrk fuel 0 h = some r ∧ sizeofHeader ≤ r.1 ∧
          (∃ fl, Arena base r.2 fl (⟨r.1 - sizeofHeader, n⟩ :: os)) ∧ r.2.live = h.live := by
      by_cases hfew : totalUnits h + wanted n < 2 ^ 32
      · obtain ⟨k, hk⟩ := ha.afterRound hbase hn hsbrk hfew
        exact ⟨k, fun fuel hfuel _ => hk fuel hfuel⟩
      · exact ⟨0, fun _ _ h => absurd h hfew⟩
    refine ⟨j + k + 1, fun fuel hfuel => ?_⟩
    rcases ha.mallocLoop_round hn ha.freep hj sbrk 0 (show j < fuel by omega) with
      ⟨r, hr, htaken⟩ | ⟨fuel', hle, hmore⟩
    · exact .found r hr htaken
    · refine .grown gap hsbrk (fun r hr => ?_) fun hfew => ?_
      · exact afterRound_regions hsbrk (hmore.symm.trans hr)
      · obtain ⟨r, hr, hrest⟩ := hk fuel' (by omega) hfew
        exact ⟨r, hmore.trans hr, hrest⟩

end Loop

end Xv6.Proofs
