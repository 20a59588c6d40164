import Xv6.User.Umalloc
import Xv6.Lib.Linked
import Mathlib.Tactic.Abel

/-!
# `Xv6.Proofs.Umalloc.Free`: freeing a block

`Arena base h fl os` is the invariant of the allocator. The free blocks `fl` are linked into a ring
through `base`, in ascending order and with something between any two. They and the other blocks
`os` together are the memory that `sbrk` has returned, each unit once. `os` are the blocks of the
program, and the block that is about to be freed.

`findPlace` stops at the free block before `bp`. Then `joinUpper` and `joinLower` put the block into
the list of free blocks, as one more block or as a part of its neighbours. Sizes are sums of sizes
of different blocks, so they do not wrap as long as there are less than `2 ^ 32` units in all.
-/

set_option autoImplicit false

namespace Xv6.Proofs

open Lib List
open Function (update_of_ne update_self)

variable {ap bp fuel s x : Nat} {b' c : MemBlock} {h' : Heap} {l₂' : List MemBlock}

/-- `&base`, as a block without units. -/
def root (base : Nat) : MemBlock := ⟨base, 0⟩

/-- `c` comes after `b`, with something between them. -/
def Below (b c : MemBlock) : Prop := b.addr + sizeofHeader * b.units < c.addr

/-- The units of blocks. -/
abbrev headers (l : List MemBlock) : Multiset Nat := unitsOf sizeofHeader l

/-- The free list. -/
structure FreeList (base : Nat) (h : Heap) (fl : List MemBlock) : Prop where
  ring : Linked h.ptr ((root base :: fl).map MemBlock.addr ++ [base])
  freep : h.freep ∈ (root base :: fl).map MemBlock.addr
  size : ∀ b ∈ root base :: fl, h.size b.addr = b.units
  ascending : (root base :: fl).Pairwise Below

/-- The memory that `sbrk` has returned. -/
structure Regions (base : Nat) (h : Heap) : Prop where
  spaced : Spaced sizeofHeader (headers h.regions)
  above : ∀ u ∈ headers h.regions, base + sizeofHeader ≤ u ∧ u + sizeofHeader ≤ h.brk
  brk : base + sizeofHeader ≤ h.brk

/-- The number of units that `sbrk` has returned. -/
def totalUnits (h : Heap) : Nat := (h.regions.map MemBlock.units).sum

structure Arena (base : Nat) (h : Heap) (fl os : List MemBlock) : Prop
    extends FreeList base h fl, Regions base h where
  parts : headers (fl ++ os) = headers h.regions
  pos : ∀ b ∈ fl ++ os, 0 < b.units
  sizeOther : ∀ b ∈ os, h.size b.addr = b.units
  few : totalUnits h < 2 ^ 32

section Arena

variable {base : Nat} {h : Heap} {fl os : List MemBlock}

theorem sizeofHeader_pos : 0 < sizeofHeader := by decide

theorem Arena.spacedAll (ha : Arena base h fl os) : Spaced sizeofHeader (headers (fl ++ os)) := by
  rw [ha.parts]
  exact ha.spaced

theorem Arena.apart (ha : Arena base h fl os) : (fl ++ os).Pairwise (Apart sizeofHeader) :=
  pairwise_apart sizeofHeader_pos ha.spacedAll ha.pos

/-- All blocks lie above `base`. -/
theorem Arena.above_base (ha : Arena base h fl os) {b : MemBlock} (hb : b ∈ fl ++ os) :
    base + sizeofHeader ≤ b.addr := by
  have hmem : b.addr ∈ headers h.regions := by
    rw [← ha.parts]
    exact mem_unitsOf.mpr ⟨b, hb, mem_units.mpr ⟨0, ha.pos b hb, by simp⟩⟩
  exact (ha.above _ hmem).1

/-- The sizes of different blocks sum up to less than `2 ^ 32`. -/
theorem Arena.sum_units (ha : Arena base h fl os) :
    ((fl ++ os).map MemBlock.units).sum < 2 ^ 32 := by
  have hcard : (headers (fl ++ os)).card = (headers h.regions).card := by rw [ha.parts]
  rw [card_unitsOf, card_unitsOf] at hcard
  rw [hcard]
  exact ha.few

/-! ### The ring -/

/-- The address of the first block of a list that ends in `base`. -/
def headOr (base : Nat) : List MemBlock → Nat
  | [] => base
  | c :: _ => c.addr

theorem linked_headOr {ptr : Nat → Nat} {l : List MemBlock} :
    Linked ptr (x :: (l.map MemBlock.addr ++ [base])) ↔
      ptr x = headOr base l ∧ Linked ptr (l.map MemBlock.addr ++ [base]) := by
  cases l <;> exact linked_cons_cons

section Node

variable {l₁ l₂ : List MemBlock} {b : MemBlock}

/-- The links up to a node of the ring, its own link, and the links after it. -/
theorem FreeList.links (hf : FreeList base h fl) (hl : root base :: fl = l₁ ++ b :: l₂) :
    Linked h.ptr (l₁.map MemBlock.addr ++ [b.addr]) ∧ h.ptr b.addr = headOr base l₂ ∧
      Linked h.ptr (l₂.map MemBlock.addr ++ [base]) := by
  have hring := hf.ring
  rw [hl, map_append, map_cons, append_assoc, cons_append] at hring
  obtain ⟨hlow, hhigh⟩ := linked_split.mp hring
  exact ⟨hlow, linked_headOr.mp hhigh⟩

theorem FreeList.below (hf : FreeList base h fl) (hl : root base :: fl = l₁ ++ b :: l₂) :
    (∀ c ∈ l₁, Below c b) ∧ (∀ c ∈ l₂, Below b c) ∧ l₁.Pairwise Below ∧ l₂.Pairwise Below := by
  have hasc := hf.ascending
  rw [hl, pairwise_append, pairwise_cons] at hasc
  exact ⟨fun c hc => hasc.2.2 c hc b mem_cons_self, hasc.2.1.1, hasc.1, hasc.2.1.2⟩

theorem Below.addr_lt {b : MemBlock} (h : Below b c) : b.addr < c.addr :=
  Nat.lt_of_le_of_lt (Nat.le_add_right _ _) h

theorem FreeList.base_le (hf : FreeList base h fl) (hb : b ∈ root base :: fl) : base ≤ b.addr := by
  rcases mem_cons.mp hb with rfl | hb
  · exact Nat.le_refl _
  · exact Nat.le_of_lt (Below.addr_lt ((pairwise_cons.mp hf.ascending).1 b hb))

theorem mem_of_split (hl : root base :: fl = l₁ ++ b :: l₂) (hc : c ∈ l₂) : c ∈ fl := by
  cases l₁ with
  | nil =>
    rw [(List.cons.inj hl).2]
    exact hc
  | cons d l₁ =>
    rw [(List.cons.inj hl).2]
    simp [hc]

/-- The sizes of all blocks, in the order of the ring. -/
theorem Arena.sum_split (ha : Arena base h fl os) (hl : root base :: fl = l₁ ++ b :: l₂) :
    (l₁.map MemBlock.units).sum + b.units + (l₂.map MemBlock.units).sum +
      (os.map MemBlock.units).sum < 2 ^ 32 := by
  have hsum := ha.sum_units
  have hring : (fl.map MemBlock.units).sum = ((l₁ ++ b :: l₂).map MemBlock.units).sum := by
    rw [← hl, map_cons, sum_cons, root, Nat.zero_add]
  rw [map_append, sum_append, hring] at hsum
  simp only [map_append, map_cons, sum_append, sum_cons] at hsum
  omega

/-! ### Finding the place -/

/-- The loop of `free` stops at `p`. -/
def Stops (h : Heap) (bp p : Nat) : Prop :=
  (p < bp ∧ bp < h.ptr p) ∨ (h.ptr p ≤ p ∧ (p < bp ∨ bp < h.ptr p))

/-- The loop stops where `bp` comes between a node and what follows it. -/
theorem FreeList.stops_iff (hf : FreeList base h fl) (hl : root base :: fl = l₁ ++ b :: l₂)
    (hbp : base < bp) : Stops h bp b.addr ↔ b.addr < bp ∧ ∀ c ∈ l₂, bp < c.addr := by
  have hbase : base ≤ b.addr := hf.base_le (hl ▸ by simp)
  obtain ⟨-, hptr, -⟩ := hf.links hl
  obtain ⟨-, hbelow, -, hsorted⟩ := hf.below hl
  unfold Stops
  rw [hptr]
  cases l₂ with
  | nil =>
    simp only [headOr, not_mem_nil, false_implies, implies_true, and_true]
    omega
  | cons c l₂ =>
    have hc := (hbelow c mem_cons_self).addr_lt
    have hrest : (∀ d ∈ c :: l₂, bp < d.addr) ↔ bp < c.addr := by
      refine ⟨fun hall => hall c mem_cons_self, fun hlt d hd => ?_⟩
      rcases mem_cons.mp hd with rfl | hd
      · exact hlt
      · exact Nat.lt_trans hlt ((pairwise_cons.mp hsorted).1 d hd).addr_lt
    rw [hrest]
    simp only [headOr]
    omega

/-- There is such a place. -/
theorem exists_place {b : MemBlock} {l : List MemBlock} (hl : (b :: l).Pairwise Below)
    (hb : b.addr < bp) (hne : ∀ c ∈ l, c.addr ≠ bp) :
    ∃ l₁ b' l₂, b :: l = l₁ ++ b' :: l₂ ∧ b'.addr < bp ∧ ∀ c ∈ l₂, bp < c.addr := by
  induction l generalizing b with
  | nil => exact ⟨[], b, [], rfl, hb, by simp⟩
  | cons c l ih =>
    have htail := (pairwise_cons.mp hl).2
    by_cases hc : c.addr < bp
    · obtain ⟨l₁, b', l₂, heq, hlt, hgt⟩ :=
        ih htail hc fun d hd => hne d (mem_cons_of_mem c hd)
      exact ⟨b :: l₁, b', l₂, by rw [heq, cons_append], hlt, hgt⟩
    · have hc' : bp < c.addr := by
        have := hne c mem_cons_self
        omega
      refine ⟨[], b, c :: l, rfl, hb, fun d hd => ?_⟩
      rcases mem_cons.mp hd with rfl | hd
      · exact hc'
      · exact Nat.lt_trans hc' ((pairwise_cons.mp htail).1 d hd).addr_lt

theorem findPlace_stop (hs : Stops h bp x) (fuel : Nat) : h.findPlace bp (fuel + 1) x = some x := by
  unfold Heap.findPlace
  by_cases h₁ : x < bp ∧ bp < h.ptr x
  · rw [if_pos h₁]
  · rw [if_neg h₁, if_pos (hs.resolve_left h₁)]

theorem findPlace_go (hs : ¬ Stops h bp x) (fuel : Nat) :
    h.findPlace bp (fuel + 1) x = h.findPlace bp fuel (h.ptr x) := by
  rw [Heap.findPlace, if_neg fun h₁ => hs (.inl h₁), if_neg fun h₂ => hs (.inr h₂)]

/-- The loop of `free` ends if it comes to a place where it stops. -/
theorem findPlace_of_stops {k : Nat} (hstop : Stops h bp (h.ptr^[k] x)) (hfuel : k < fuel) :
    ∃ p, h.findPlace bp fuel x = some p := by
  obtain ⟨fuel, rfl⟩ := Nat.exists_eq_succ_of_ne_zero (Nat.ne_zero_of_lt hfuel)
  induction k generalizing x fuel with
  | zero => exact ⟨x, findPlace_stop hstop fuel⟩
  | succ k ih =>
    by_cases hs : Stops h bp x
    · exact ⟨x, findPlace_stop hs fuel⟩
    · obtain ⟨fuel, rfl⟩ := Nat.exists_eq_succ_of_ne_zero (by omega : fuel ≠ 0)
      rw [Nat.succ_eq_add_one, findPlace_go hs]
      exact ih hstop fuel (by omega)

/-- Where the loop of `free` stops is a node of the ring. -/
theorem FreeList.findPlace_mem (hf : FreeList base h fl) {p : Nat}
    (hx : x ∈ (root base :: fl).map MemBlock.addr) (hp : h.findPlace bp fuel x = some p) :
    p ∈ (root base :: fl).map MemBlock.addr ∧ Stops h bp p := by
  induction fuel generalizing x with
  | zero => cases hp
  | succ fuel ih =>
    by_cases hs : Stops h bp x
    · rw [findPlace_stop hs] at hp
      cases hp
      exact ⟨hx, hs⟩
    · rw [findPlace_go hs] at hp
      exact ih (ring_next_mem hf.ring hx) hp

/-- More fuel does not change the place. -/
theorem findPlace_mono {fuel' p : Nat} (hp : h.findPlace bp fuel x = some p) (hle : fuel ≤ fuel') :
    h.findPlace bp fuel' x = some p := by
  induction fuel generalizing x fuel' with
  | zero => cases hp
  | succ fuel ih =>
    obtain ⟨fuel', rfl⟩ := Nat.exists_eq_succ_of_ne_zero (by omega : fuel' ≠ 0)
    by_cases hs : Stops h bp x
    · rw [Nat.succ_eq_add_one, findPlace_stop hs] at *
      exact hp
    · rw [Nat.succ_eq_add_one, findPlace_go hs] at *
      exact ih hp (by omega)

/-- Where a block that is about to be freed goes in the ring. -/
structure Place (base : Nat) (fl : List MemBlock) (bp s : Nat) (l₁ : List MemBlock) (b : MemBlock)
    (l₂ : List MemBlock) : Prop where
  split : root base :: fl = l₁ ++ b :: l₂
  lower : b.addr + sizeofHeader * b.units ≤ bp
  upper : ∀ c ∈ l₂, bp + sizeofHeader * s ≤ c.addr

/-- The loop of `free` ends, at the block before the one that is freed. -/
theorem Arena.findPlace (ha : Arena base h fl (⟨bp, s⟩ :: os)) :
    (∃ k, ∀ fuel > k, ∃ p, h.findPlace bp fuel h.freep = some p) ∧
    ∀ fuel p, h.findPlace bp fuel h.freep = some p →
      ∃ l₁ b l₂, p = b.addr ∧ Place base fl bp s l₁ b l₂ := by
  have hf := ha.toFreeList
  have hbase : base + sizeofHeader ≤ bp := ha.above_base (b := ⟨bp, s⟩) (by simp)
  have hbp : base < bp := Nat.lt_of_lt_of_le (Nat.lt_add_of_pos_right sizeofHeader_pos) hbase
  have hs : 0 < s := ha.pos ⟨bp, s⟩ (by simp)
  have hpos : 0 < sizeofHeader * s := Nat.mul_pos sizeofHeader_pos hs
  have hapart : ∀ c ∈ fl, Apart sizeofHeader c ⟨bp, s⟩ := fun c hc =>
    (pairwise_append.mp ha.apart).2.2 c hc ⟨bp, s⟩ mem_cons_self
  constructor
  · have hne : ∀ c ∈ fl, c.addr ≠ bp := by
      intro c hc heq
      have hcpos := Nat.mul_pos sizeofHeader_pos (ha.pos c (mem_append_left _ hc))
      rcases hapart c hc with h₁ | h₁ <;> simp only at h₁ <;> omega
    obtain ⟨l₁, b, l₂, hl, hlt, hgt⟩ := exists_place hf.ascending hbp hne
    have hmem : b.addr ∈ (root base :: fl).map MemBlock.addr := by
      rw [hl]
      simp
    obtain ⟨k, hk⟩ := ring_reach hf.ring hf.freep hmem
    refine ⟨k, fun fuel hfuel => findPlace_of_stops ?_ hfuel⟩
    rw [hk]
    exact (hf.stops_iff hl hbp).mpr ⟨hlt, hgt⟩
  · intro fuel p hp
    obtain ⟨hmem, hstop⟩ := hf.findPlace_mem hf.freep hp
    obtain ⟨b, hb, rfl⟩ := mem_map.mp hmem
    obtain ⟨l₁, l₂, hl⟩ := append_of_mem hb
    obtain ⟨hlt, hgt⟩ := (hf.stops_iff hl hbp).mp hstop
    refine ⟨l₁, b, l₂, rfl, hl, ?_, fun c hc => ?_⟩
    · rcases mem_cons.mp hb with rfl | hb
      · exact Nat.le_of_lt hbp
      · rcases hapart b hb with h₁ | h₁ <;> simp only at h₁ <;> omega
    · have hgt' := hgt c hc
      rcases hapart c (mem_of_split hl hc) with h₁ | h₁ <;> simp only at h₁ <;> omega

/-- The other fields are as they were. -/
structure SameRest (h h' : Heap) : Prop where
  freep : h'.freep = h.freep
  brk : h'.brk = h.brk
  regions : h'.regions = h.regions
  live : h'.live = h.live

/-- A block that is about to be freed, joined with what comes after it in the list. -/
structure UpperJoined (base : Nat) (h : Heap) (bp s : Nat) (l₂ : List MemBlock) (h' : Heap)
    (b' : MemBlock) (l₂' : List MemBlock) : Prop where
  rest : SameRest h h'
  ptr : ∀ a ≠ bp, h'.ptr a = h.ptr a
  size : ∀ a ≠ bp, h'.size a = h.size a
  addr : b'.addr = bp
  le : s ≤ b'.units
  ptr_bp : h'.ptr bp = headOr base l₂'
  size_bp : h'.size bp = b'.units
  suffix : l₂' <:+ l₂
  headers : headers (b' :: l₂') = headers (⟨bp, s⟩ :: l₂)
  below : ∀ c ∈ l₂', Below b' c

/-- The block is joined with the next one if they are adjacent. -/
theorem Arena.joinUpper (ha : Arena base h fl (⟨bp, s⟩ :: os)) (hp : Place base fl bp s l₁ b l₂) :
    ∃ b' l₂', UpperJoined base h bp s l₂ (h.joinUpper bp b.addr) b' l₂' := by
  have hf := ha.toFreeList
  obtain ⟨-, hptr, -⟩ := hf.links hp.split
  obtain ⟨-, -, -, hsorted⟩ := hf.below hp.split
  have hbase : base + sizeofHeader ≤ bp := ha.above_base (b := ⟨bp, s⟩) (by simp)
  have hsize : h.size bp = s := ha.sizeOther ⟨bp, s⟩ (by simp)
  have hheader := sizeofHeader_pos
  unfold Heap.joinUpper
  rw [hptr, hsize]
  by_cases hjoin : bp + sizeofHeader * s = headOr base l₂
  · rw [if_pos hjoin]
    cases l₂ with
    | nil =>
      simp only [headOr] at hjoin
      omega
    | cons c l₂ =>
      simp only [headOr] at hjoin ⊢
      have hsplit : root base :: fl = (l₁ ++ [b]) ++ c :: l₂ := by
        rw [hp.split, append_assoc, singleton_append]
      have hsizec : h.size c.addr = c.units :=
        hf.size c (mem_cons_of_mem _ (mem_of_split hp.split mem_cons_self))
      obtain ⟨-, hptrc, -⟩ := hf.links hsplit
      have hsum : s + c.units < 2 ^ 32 := by
        have := ha.sum_split hp.split
        simp only [map_cons, sum_cons] at this
        omega
      refine ⟨⟨bp, s + c.units⟩, l₂, ?_⟩
      rw [hsizec, hptrc, uint, Nat.mod_eq_of_lt hsum]
      refine { rest := ⟨rfl, rfl, rfl, rfl⟩, addr := rfl, le := Nat.le_add_right _ _,
               ptr_bp := update_self _ _ _, size_bp := update_self _ _ _,
               suffix := suffix_cons _ _, ptr := fun a hne => update_of_ne hne _ _,
               size := fun a hne => update_of_ne hne _ _, headers := ?_, below := ?_ }
      · rw [headers, headers, unitsOf_cons, unitsOf_cons, unitsOf_cons, units_add, hjoin,
          add_assoc]
      · intro d hd
        have hcd := (pairwise_cons.mp hsorted).1 d hd
        unfold Below at hcd ⊢
        simp only [Nat.mul_add]
        omega
  · rw [if_neg hjoin]
    refine ⟨⟨bp, s⟩, l₂, ?_⟩
    refine { rest := ⟨rfl, rfl, rfl, rfl⟩, addr := rfl, le := Nat.le_refl _,
             ptr_bp := update_self _ _ _, size_bp := hsize, suffix := suffix_rfl,
             ptr := fun a hne => update_of_ne hne _ _, size := fun a hne => rfl,
             headers := rfl, below := fun c hc => ?_ }
    cases l₂ with
    | nil => cases hc
    | cons d l₂ =>
      have hd := hp.upper d mem_cons_self
      simp only [headOr] at hjoin
      have hlt : Below ⟨bp, s⟩ d := by
        unfold Below
        simp only
        omega
      rcases mem_cons.mp hc with rfl | hc
      · exact hlt
      · have hdc := ((pairwise_cons.mp hsorted).1 c hc).addr_lt
        exact Nat.lt_trans hlt hdc

/-- The sizes in what `joinUpper` leaves. -/
theorem UpperJoined.sum (hu : UpperJoined base h bp s l₂ h' b' l₂') :
    b'.units + (l₂'.map MemBlock.units).sum = s + (l₂.map MemBlock.units).sum := by
  have hcard := congrArg Multiset.card hu.headers
  rw [card_unitsOf, card_unitsOf] at hcard
  simpa using hcard

/-- `root base` has no units. -/
theorem headers_root (base : Nat) (l : List MemBlock) : headers (root base :: l) = headers l := by
  rw [headers, unitsOf_cons]
  exact zero_add _

/-- The invariant, from what is known about the ring with `base` in it. -/
theorem Arena.ofRing {rb fl' os' : List MemBlock} (ha : Arena base h fl os)
    (hregions : h'.regions = h.regions) (hbrk : h'.brk = h.brk) (hrb : root base :: fl' = rb)
    (hring : Linked h'.ptr (rb.map MemBlock.addr ++ [base]))
    (hfreep : h'.freep ∈ rb.map MemBlock.addr) (hsize : ∀ b ∈ rb, h'.size b.addr = b.units)
    (hsizeOther : ∀ b ∈ os', h'.size b.addr = b.units) (hasc : rb.Pairwise Below)
    (hparts : headers (rb ++ os') = headers (root base :: fl ++ os))
    (hpos : ∀ b ∈ rb ++ os', base < b.addr → 0 < b.units) (hos : ∀ b ∈ os', base < b.addr) :
    Arena base h' fl' os' := by
  subst hrb
  refine { ring := hring, freep := hfreep, size := hsize, ascending := hasc,
           spaced := hregions ▸ ha.spaced, above := hregions ▸ hbrk ▸ ha.above,
           brk := hbrk ▸ ha.brk, parts := ?_, pos := fun b hb => ?_, sizeOther := hsizeOther,
           few := ?_ }
  · rw [cons_append, headers_root, cons_append, headers_root] at hparts
    rw [hparts, ha.parts, hregions]
  · refine hpos b (mem_cons_of_mem _ hb) ?_
    rcases mem_append.mp hb with hb | hb
    · exact ((pairwise_cons.mp hasc).1 b hb).addr_lt
    · exact hos b hb
  · unfold totalUnits
    rw [hregions]
    exact ha.few

/-- The block before a place starts below it. -/
theorem Arena.place_lt (ha : Arena base h fl (⟨bp, s⟩ :: os)) (hp : Place base fl bp s l₁ b l₂) :
    b.addr < bp := by
  have hlower := hp.lower
  have hmem : b ∈ root base :: fl := by
    rw [hp.split]
    simp
  rcases mem_cons.mp hmem with rfl | hb
  · have hbase : base + sizeofHeader ≤ bp := ha.above_base (b := ⟨bp, s⟩) (by simp)
    exact Nat.lt_of_lt_of_le (Nat.lt_add_of_pos_right sizeofHeader_pos) hbase
  · have := Nat.mul_pos sizeofHeader_pos (ha.pos b (mem_append_left _ hb))
    omega

/-- The addresses of the other blocks are not in the ring. -/
theorem Arena.other_ne (ha : Arena base h fl os) (hc : c ∈ os) (hb : b ∈ root base :: fl) :
    c.addr ≠ b.addr := by
  have hcpos := ha.pos c (mem_append_right _ hc)
  rcases mem_cons.mp hb with rfl | hb
  · have := ha.above_base (mem_append_right _ hc)
    have hheader := sizeofHeader_pos
    simp only [root]
    omega
  · have hapart := (pairwise_append.mp ha.apart).2.2 b hb c hc
    exact (Apart.addr_ne sizeofHeader_pos hapart (ha.pos b (mem_append_left _ hb)) hcpos).symm

section

variable (ha : Arena base h fl (⟨bp, s⟩ :: os)) (hp : Place base fl bp s l₁ b l₂)
include ha hp

/-- The blocks `m` take the place of `b` and of the block that is about to be freed. Only the
headers of those two change. -/
theorem Arena.relink {m : List MemBlock} {b₀ : MemBlock} (hsuffix : l₂' <:+ l₂)
    (hregions : h'.regions = h.regions) (hbrk : h'.brk = h.brk) (hfreep : h'.freep = b.addr)
    (hptr : ∀ a, a ≠ b.addr → a ≠ bp → h'.ptr a = h.ptr a)
    (hsize : ∀ a, a ≠ b.addr → a ≠ bp → h'.size a = h.size a) (haddr : b₀.addr = b.addr)
    (hb₀ : l₁ = [] → b₀ = root base)
    (hlinks : Linked h'.ptr ((b₀ :: m).map MemBlock.addr ++ [headOr base l₂']))
    (hsizes : ∀ c ∈ b₀ :: m, h'.size c.addr = c.units) (hbelow : (b₀ :: m ++ l₂').Pairwise Below)
    (hparts : headers (b₀ :: m ++ l₂') = headers (b :: ⟨bp, s⟩ :: l₂))
    (hpos : ∀ c ∈ b₀ :: m, base < c.addr → 0 < c.units) :
    ∃ fl', Arena base h' fl' os ∧ root base :: fl' = l₁ ++ b₀ :: (m ++ l₂') := by
  have hf := ha.toFreeList
  obtain ⟨hlow, -, hhigh⟩ := hf.links hp.split
  obtain ⟨hbelow₁, hbelow₂, hsorted₁, -⟩ := hf.below hp.split
  have hlt := ha.place_lt hp
  have hs : 0 < sizeofHeader * s := Nat.mul_pos sizeofHeader_pos (ha.pos ⟨bp, s⟩ (by simp))
  have hring : ∀ c, c ∈ root base :: fl ↔ c ∈ l₁ ∨ c = b ∨ c ∈ l₂ := by
    intro c
    rw [hp.split]
    simp
  -- the blocks that stay have other addresses than the two that change
  have hne₁ : ∀ c ∈ l₁, c.addr ≠ b.addr ∧ c.addr ≠ bp := fun c hc => by
    have := (hbelow₁ c hc).addr_lt
    exact ⟨by omega, by omega⟩
  have hne₂ : ∀ c ∈ l₂', c.addr ≠ b.addr ∧ c.addr ≠ bp := fun c hc => by
    have := hp.upper c (hsuffix.subset hc)
    exact ⟨by omega, by omega⟩
  have hneOther : ∀ c ∈ os, c.addr ≠ b.addr ∧ c.addr ≠ bp := fun c hc => by
    refine ⟨ha.other_ne (mem_cons_of_mem _ hc) ((hring b).mpr (.inr (.inl rfl))), ?_⟩
    have hapart := (pairwise_cons.mp (pairwise_append.mp ha.apart).2.1).1 c hc
    have hcpos : 0 < c.units := ha.pos c (by simp [hc])
    exact (Apart.addr_ne sizeofHeader_pos hapart (ha.pos _ (by simp)) hcpos).symm
  obtain ⟨fl', hfl'⟩ : ∃ fl', root base :: fl' = l₁ ++ b₀ :: (m ++ l₂') := by
    have hsplit := hp.split
    cases hl₁ : l₁ with
    | nil => exact ⟨m ++ l₂', by rw [hb₀ hl₁]; rfl⟩
    | cons d l₁' =>
      rw [hl₁] at hsplit
      exact ⟨l₁' ++ b₀ :: (m ++ l₂'), by rw [(List.cons.inj hsplit).1]; rfl⟩
  refine ⟨fl', ha.ofRing hregions hbrk hfl' ?_ ?_ ?_ ?_ ?_ ?_ ?_ ?_, hfl'⟩
  · rw [map_append, map_cons, append_assoc, cons_append]
    refine linked_split.mpr ⟨?_, ?_⟩
    · rw [haddr]
      refine Linked.congr hlow fun x hx => ?_
      rw [dropLast_concat] at hx
      obtain ⟨c, hc, rfl⟩ := mem_map.mp hx
      exact hptr _ (hne₁ c hc).1 (hne₁ c hc).2
    · have hrest : Linked h'.ptr (l₂'.map MemBlock.addr ++ [base]) := by
        obtain ⟨pre, hpre⟩ := hsuffix
        rw [← hpre, map_append, append_assoc] at hhigh
        refine Linked.congr hhigh.right_of_append fun x hx => ?_
        rw [dropLast_concat] at hx
        obtain ⟨c, hc, rfl⟩ := mem_map.mp hx
        exact hptr _ (hne₂ c hc).1 (hne₂ c hc).2
      rw [map_append, append_assoc, ← cons_append]
      cases l₂' with
      | nil => exact hlinks
      | cons c l₂' => exact linked_split.mpr ⟨hlinks, hrest⟩
  · rw [hfreep, ← haddr]
    simp
  · intro c hc
    rcases mem_append.mp hc with hc | hc
    · rw [hsize _ (hne₁ c hc).1 (hne₁ c hc).2]
      exact hf.size c ((hring c).mpr (.inl hc))
    · rw [← cons_append] at hc
      rcases mem_append.mp hc with hc | hc
      · exact hsizes c hc
      · rw [hsize _ (hne₂ c hc).1 (hne₂ c hc).2]
        exact hf.size c ((hring c).mpr (.inr (.inr (hsuffix.subset hc))))
  · intro c hc
    rw [hsize _ (hneOther c hc).1 (hneOther c hc).2]
    exact ha.sizeOther c (mem_cons_of_mem _ hc)
  · refine pairwise_append.mpr ⟨hsorted₁, hbelow, fun c hc d hd => ?_⟩
    have hcb : Below c b₀ := by
      have := hbelow₁ c hc
      unfold Below at this ⊢
      rwa [haddr]
    rcases mem_cons.mp hd with rfl | hd
    · exact hcb
    · exact Nat.lt_trans hcb ((pairwise_cons.mp hbelow).1 d hd).addr_lt
  · rw [hp.split]
    have : headers (b₀ :: (m ++ l₂')) = headers (b :: ⟨bp, s⟩ :: l₂) := hparts
    simp only [headers, unitsOf_append, unitsOf_cons] at this ⊢
    rw [add_assoc (unitsOf sizeofHeader l₁), this]
    abel
  · intro c hc hbase
    have hfree : c ∈ root base :: fl → 0 < c.units := by
      intro hmem
      rcases mem_cons.mp hmem with rfl | hmem
      · exact absurd hbase (Nat.lt_irrefl _)
      · exact ha.pos c (mem_append_left _ hmem)
    rcases mem_append.mp hc with hc | hc
    · rcases mem_append.mp hc with hc | hc
      · exact hfree ((hring c).mpr (.inl hc))
      · rw [← cons_append] at hc
        rcases mem_append.mp hc with hc | hc
        · exact hpos c hc hbase
        · exact hfree ((hring c).mpr (.inr (.inr (hsuffix.subset hc))))
    · exact ha.pos c (by simp [hc])
  · intro c hc
    have := ha.above_base (mem_append_right fl (mem_cons_of_mem _ hc))
    exact Nat.lt_of_lt_of_le (Nat.lt_add_of_pos_right sizeofHeader_pos) this

/-- A block joined with the block before it. -/
theorem Arena.joinLower_join {h₁ : Heap} (hu : UpperJoined base h bp s l₂ h₁ b' l₂')
    (hjoin : b.addr + sizeofHeader * b.units = bp) :
    ∃ fl', Arena base { h₁.joinLower bp b.addr with freep := b.addr } fl' os ∧
      ⟨b.addr, b.units + b'.units⟩ ∈ fl' := by
  have hlt := ha.place_lt hp
  have hsum := ha.sum_split hp.split
  have hsum' := hu.sum
  have hmem : b ∈ root base :: fl := by
    rw [hp.split]
    simp
  have hsize₁ : h₁.size b.addr = b.units := by
    rw [hu.size _ hlt.ne]
    exact ha.size b hmem
  have hunits : uint (b.units + b'.units) = b.units + b'.units := by
    simp only [map_cons, sum_cons] at hsum
    exact Nat.mod_eq_of_lt (by omega)
  have hend : b.addr + sizeofHeader * (b.units + b'.units)
      = b'.addr + sizeofHeader * b'.units := by
    rw [Nat.mul_add, ← Nat.add_assoc, hjoin, hu.addr]
  -- `base` has no units, so it is not the block before
  have hl₁ : l₁ ≠ [] := by
    rintro rfl
    have hb : root base = b := (List.cons.inj hp.split).1
    rw [← hb] at hjoin hlt
    simp only [root] at hjoin hlt
    omega
  unfold Heap.joinLower
  rw [hsize₁, if_pos hjoin, hu.size_bp, hunits, hu.ptr_bp]
  suffices hnew : ∃ fl', Arena base
      { (h₁.setSize b.addr (b.units + b'.units)).setPtr b.addr (headOr base l₂') with
        freep := b.addr } fl' os ∧
      root base :: fl' = l₁ ++ ⟨b.addr, b.units + b'.units⟩ :: ([] ++ l₂') by
    obtain ⟨fl', ha', hfl'⟩ := hnew
    refine ⟨fl', ha', ?_⟩
    obtain ⟨d, l₁', rfl⟩ := exists_cons_of_ne_nil hl₁
    rw [(List.cons.inj hfl').2]
    simp
  refine ha.relink hp hu.suffix hu.rest.regions hu.rest.brk rfl
    (fun a ha hb => (update_of_ne ha _ _).trans (hu.ptr a hb))
    (fun a ha hb => (update_of_ne ha _ _).trans (hu.size a hb))
    rfl (fun hnil => absurd hnil hl₁) ?_ ?_ ?_ ?_ ?_
  · exact linked_cons_cons.mpr ⟨update_self _ _ _, .singleton _⟩
  · intro c hc
    obtain rfl := mem_singleton.mp hc
    exact update_self _ _ _
  · refine pairwise_cons.mpr ⟨fun c hc => ?_, ?_⟩
    · have := hu.below c hc
      unfold Below at this ⊢
      simp only [hend]
      exact this
    · exact ((ha.toFreeList.below hp.split).2.2.2).sublist hu.suffix.sublist
  · have hheaders := hu.headers
    simp only [headers, cons_append, nil_append, unitsOf_cons] at hheaders ⊢
    rw [units_add, hjoin, add_assoc, ← hheaders]
    congr 2
    rw [← hu.addr]
  · intro c hc hbase
    obtain rfl := mem_singleton.mp hc
    have hspos : 0 < s := ha.pos ⟨bp, s⟩ (by simp)
    have := hu.le
    simp only
    omega

/-- A block that becomes a free block after the one before it. -/
theorem Arena.joinLower_insert {h₁ : Heap} (hu : UpperJoined base h bp s l₂ h₁ b' l₂')
    (hjoin : b.addr + sizeofHeader * b.units ≠ bp) :
    ∃ fl', Arena base { h₁.joinLower bp b.addr with freep := b.addr } fl' os ∧ b' ∈ fl' := by
  have hlt := ha.place_lt hp
  have hlower := hp.lower
  have hmem : b ∈ root base :: fl := by
    rw [hp.split]
    simp
  have hsize₁ : h₁.size b.addr = b.units := by
    rw [hu.size _ hlt.ne]
    exact ha.size b hmem
  have hbelow : Below b b' := by
    unfold Below
    rw [hu.addr]
    omega
  unfold Heap.joinLower
  rw [hsize₁, if_neg hjoin]
  suffices hnew : ∃ fl', Arena base { h₁.setPtr b.addr bp with freep := b.addr } fl' os ∧
      root base :: fl' = l₁ ++ b :: ([b'] ++ l₂') by
    obtain ⟨fl', ha', hfl'⟩ := hnew
    refine ⟨fl', ha', ?_⟩
    cases l₁ with
    | nil =>
      rw [(List.cons.inj hfl').2]
      simp
    | cons d l₁ =>
      rw [(List.cons.inj hfl').2]
      simp
  refine ha.relink hp hu.suffix hu.rest.regions hu.rest.brk rfl
    (fun a ha hb => (update_of_ne ha _ _).trans (hu.ptr a hb))
    (fun a ha hb => hu.size a hb) rfl ?_ ?_ ?_ ?_ ?_ ?_
  · rintro rfl
    exact (List.cons.inj hp.split).1.symm
  · refine linked_cons_cons.mpr ⟨?_, linked_cons_cons.mpr ⟨?_, .singleton _⟩⟩
    · rw [hu.addr]
      exact update_self _ _ _
    · rw [hu.addr]
      exact (update_of_ne hlt.ne' _ _).trans hu.ptr_bp
  · intro c hc
    rcases mem_cons.mp hc with rfl | hc
    · exact hsize₁
    · obtain rfl := mem_singleton.mp hc
      rw [hu.addr]
      exact hu.size_bp
  · refine pairwise_cons.mpr ⟨fun c hc => ?_, pairwise_cons.mpr ⟨hu.below, ?_⟩⟩
    · rcases mem_cons.mp hc with rfl | hc
      · exact hbelow
      · exact Nat.lt_trans hbelow (hu.below c hc).addr_lt
    · exact ((ha.toFreeList.below hp.split).2.2.2).sublist hu.suffix.sublist
  · have hheaders := hu.headers
    simp only [headers, cons_append, nil_append, unitsOf_cons] at hheaders ⊢
    rw [hheaders]
  · intro c hc hbase
    rcases mem_cons.mp hc with rfl | hc
    · rcases mem_cons.mp hmem with rfl | hmem
      · exact absurd hbase (Nat.lt_irrefl _)
      · exact ha.pos _ (mem_append_left _ hmem)
    · obtain rfl := mem_singleton.mp hc
      exact Nat.lt_of_lt_of_le (ha.pos ⟨bp, s⟩ (by simp)) hu.le

/-- After `free`, the block is in the list of free blocks, and the invariant holds without it. -/
theorem Arena.freed :
    ∃ fl', Arena base { (h.joinUpper bp b.addr).joinLower bp b.addr with freep := b.addr } fl' os ∧
      ∃ c ∈ fl', s ≤ c.units := by
  obtain ⟨b', l₂', hu⟩ := ha.joinUpper hp
  by_cases hjoin : b.addr + sizeofHeader * b.units = bp
  · obtain ⟨fl', ha', hmem⟩ := ha.joinLower_join hp hu hjoin
    exact ⟨fl', ha', _, hmem, Nat.le_trans hu.le (Nat.le_add_left _ _)⟩
  · obtain ⟨fl', ha', hmem⟩ := ha.joinLower_insert hp hu hjoin
    exact ⟨fl', ha', _, hmem, hu.le⟩

end

end Node

/-- `free` touches nothing but headers and `freep`. -/
theorem free_rest (hrun : h.free fuel ap = some h') :
    h'.brk = h.brk ∧ h'.regions = h.regions ∧ h'.live = h.live := by
  obtain ⟨p, -, rfl⟩ := Option.map_eq_some_iff.mp hrun
  unfold Heap.joinLower Heap.joinUpper
  split_ifs <;> exact ⟨rfl, rfl, rfl⟩

/-- `free` returns, and the block is free then, as a block or as a part of one. -/
theorem Arena.free (ha : Arena base h fl (⟨ap - sizeofHeader, s⟩ :: os)) :
    (∃ k, ∀ fuel > k, ∃ h', h.free fuel ap = some h') ∧
    ∀ fuel h', h.free fuel ap = some h' →
      ∃ fl', Arena base h' fl' os ∧ ∃ c ∈ fl', s ≤ c.units := by
  obtain ⟨⟨k, hk⟩, hplace⟩ := ha.findPlace
  refine ⟨⟨k, fun fuel hfuel => ?_⟩, fun fuel h' hrun => ?_⟩
  · obtain ⟨p, hp⟩ := hk fuel hfuel
    exact ⟨_, Option.map_eq_some_iff.mpr ⟨p, hp, rfl⟩⟩
  · obtain ⟨p, hp, rfl⟩ := Option.map_eq_some_iff.mp hrun
    obtain ⟨l₁, b, l₂, rfl, hpl⟩ := hplace fuel p hp
    exact ha.freed hpl

theorem free_mono {fuel' : Nat} (hrun : h.free fuel ap = some h') (hle : fuel ≤ fuel') :
    h.free fuel' ap = some h' := by
  obtain ⟨p, hp, rfl⟩ := Option.map_eq_some_iff.mp hrun
  exact Option.map_eq_some_iff.mpr ⟨p, findPlace_mono hp hle, rfl⟩

end Arena

end Xv6.Proofs
