import Xv6.Proofs.Umalloc.Run
import Xv6.Proofs.Vm.Sbrk

/-!
# `Xv6.Proofs.Umalloc.Sizes`: requests of every size

`sbrk` takes an `int`, and a process has less than `MAXVA` bytes. For a request whose bytes fit into
a positive `int`, `mallocInt` is `malloc` with an `sbrk` that returns the end of the process
(`Simulated`), so the results about `malloc` carry over.

For a larger request the `int` is negative, zero or 16. Then `sbrk` takes memory away, or does
nothing, or adds one unit, and reports success. `morecore` enters a block of the requested size into
the free list all the same, and `malloc` returns it.
-/

set_option autoImplicit false

namespace Xv6.Proofs

open Lib List

variable {a calls fuel prevp : Nat}

/-! ### The model of `sbrk` -/

/-- The size of a process stays below the trapframe. -/
theorem sbrkInt_le {room : Bool} {sz sz' : Nat} {n : CInt} (hsz : sz ≤ TRAPFRAME)
    (hrun : Heap.sbrkInt room sz n = some sz') : sz' ≤ TRAPFRAME := by
  unfold Heap.sbrkInt at hrun
  simp only at hrun
  split_ifs at hrun with hpos hrefuse hneg
  · obtain rfl := Option.some.inj hrun
    unfold TRAPFRAME
    omega
  · obtain rfl := Option.some.inj hrun
    exact Nat.le_trans (Nat.min_le_left _ _) hsz
  · exact Option.some.inj hrun ▸ hsz

/-- For a positive `int`, `sbrk` fails or adds what it is asked for. -/
theorem sbrkInt_pos (room : Bool) {sz : Nat} (hsz : sz ≤ TRAPFRAME) (ha : 0 < a)
    (hlt : a < 2 ^ 31) :
    Heap.sbrkInt room sz (BitVec.ofNat 32 a) = none ∨
      Heap.sbrkInt room sz (BitVec.ofNat 32 a) = some (sz + a) := by
  have htf : TRAPFRAME < 2 ^ 20 := by decide
  have hnat : (BitVec.ofNat 32 a).toNat = a := by
    rw [BitVec.toNat_ofNat]
    exact Nat.mod_eq_of_lt (by omega)
  have hint : 0 < (BitVec.ofNat 32 a).toInt := by
    rw [BitVec.toInt_eq_toNat_of_lt (by omega), hnat]
    omega
  unfold Heap.sbrkInt
  simp only [if_pos hint, hnat]
  rw [Nat.mod_eq_of_lt (show sz + a < 2 ^ 32 by omega)]
  split_ifs
  · exact .inl rfl
  · exact .inr rfl

/-- `growproc` is `sbrkInt`, for a kernel that has the pages or has not. -/
theorem growproc_sbrkInt {s : Os} {p : Slot} {d : Dirs} {tf : Entry} {es : List Entry}
    {other : List Nat} (h : AddressSpace s.phys d tf es other)
    (hroot : (s.proc p).pagetable = d.root) (hlen : es.length = npages (s.proc p).sz)
    (hsz : (s.proc p).sz ≤ TRAPFRAME) (n : CInt) :
    ∃ r s' room, (growproc p n).run s = .ok (r, s') ∧
      ((r = 0 ∧ Heap.sbrkInt room (s.proc p).sz n = some (s'.proc p).sz) ∨
       (r = -1 ∧ Heap.sbrkInt room (s.proc p).sz n = none ∧ s'.proc = s.proc)) := by
  by_cases hlarge : 0 < n.toInt ∧ MAXVA - PGSIZE ≤ wrapSize (s.proc p).sz n
  · have hmod : (s.proc p).sz % 2 ^ 32 = (s.proc p).sz := by
      unfold TRAPFRAME MAXVA at hsz
      omega
    unfold wrapSize at hlarge
    refine ⟨-1, s, true, ?_, .inr ⟨rfl, ?_, rfl⟩⟩
    · unfold growproc
      rw [run_bind_ok (StateT.run_get s)]
      dsimp only
      rw [hmod, if_pos hlarge.1, if_pos hlarge.2]
      rfl
    · unfold Heap.sbrkInt
      simp only
      rw [if_pos hlarge.1, if_pos (.inl hlarge.2)]
  · obtain ⟨r, s', hrun, -, hcase⟩ := growproc_exact h hroot hlen hsz n
    rcases hcase with ⟨rfl, hsz', -⟩ | ⟨rfl, hpos, hs', -⟩
    · refine ⟨0, s', true, hrun, .inl ⟨rfl, ?_⟩⟩
      rw [hsz']
      unfold Heap.sbrkInt
      simp only
      rcases Int.lt_trichotomy n.toInt 0 with hneg | hzero | hpos
      · rw [if_neg (by omega), if_pos hneg, if_pos hneg]
        rfl
      · rw [if_neg (by omega), if_neg (by omega), if_neg (by omega)]
        have := wrapSize_eq hsz n
        exact congrArg some (by omega)
      · have hsmall : ¬ (MAXVA - PGSIZE ≤ wrapSize (s.proc p).sz n ∨ true = false) := by
          rintro (hle | hfalse)
          · exact hlarge ⟨hpos, hle⟩
          · cases hfalse
        have hnneg : ¬ n.toInt < 0 := by omega
        rw [if_pos hpos, if_neg hnneg]
        exact if_neg hsmall
    · refine ⟨-1, s', false, hrun, .inr ⟨rfl, ?_, by rw [hs']⟩⟩
      unfold Heap.sbrkInt
      simp only
      rw [if_pos hpos, if_pos (.inr trivial)]

/-- The first process gives 96 bytes of its page back. -/
theorem growproc_sbrkInt_init :
    ∃ s s' room, run (fun _ => 0) [] = .ok s ∧ (growproc initproc (-96)).run s = .ok (0, s') ∧
      Heap.sbrkInt room 4096 (-96) = some 4000 ∧ (s'.proc initproc).sz = 4000 := by
  obtain ⟨s, G, pg, hbooted, -, hrun⟩ := run_eq fun _ => 0
  obtain ⟨d, es, other, hroot, h, hsp⟩ :=
    run_userSpace (hrun []) (by rw [hbooted.state]; decide : (s.proc initproc).state ≠ .unused)
  have hshrink : ∀ room, Heap.sbrkInt room PGSIZE (-96) = some 4000 := by decide
  obtain ⟨r, s', room, hgrow, ⟨rfl, hsome⟩ | ⟨-, hnone, -⟩⟩ :=
    growproc_sbrkInt h hroot hsp.length hsp.le (-96)
  · rw [hbooted.sz, hshrink room] at hsome
    exact ⟨s, s', room, hrun [], hgrow, hshrink room, (Option.some.inj hsome).symm⟩
  · rw [hbooted.sz, hshrink room] at hnone
    cases hnone

/-! ### Requests in the domain -/

section Small

variable {base n sz : Nat} {h : Heap} {room : Nat → Bool}

theorem init_brk (h : Heap) (base : Nat) : (h.init base).brk = h.brk := by
  unfold Heap.init
  split_ifs <;> rfl

theorem take_brk (h : Heap) (n prevp p : Nat) : (h.take n prevp p).2.brk = h.brk := by
  unfold Heap.take
  split_ifs <;> rfl

/-- The bytes that `morecore` asks for. -/
def askedBytes (n : Nat) : Nat := wanted n * sizeofHeader

/-- The answers of the `sbrk` of the kernel in one `malloc`, as distances. Only the first region may
lie above the memory that the allocator has. -/
def gaps (n : Nat) (room : Nat → Bool) (sz gap : Nat) (calls : Nat) : Option Nat :=
  (Heap.sbrkInt (room calls) (sz + calls * askedBytes n) (BitVec.ofNat 32 (askedBytes n))).map
    fun _ => if calls = 0 then gap else 0

theorem growTo_eq (h : Heap) (sz nu : Nat) :
    h.growTo sz (sz + nu * sizeofHeader) = h.grow sz nu := by
  unfold Heap.growTo Heap.grow
  rw [Nat.add_sub_cancel_left, Nat.mul_div_cancel _ sizeofHeader_pos, Nat.mul_comm sizeofHeader]

/-- The process does the same as the allocator with `sbrk` as an argument, and it has the memory. -/
def Simulated (sz : Nat) (result : Option (Nat × Heap))
    (resultInt : Option (Option Nat × Heap × Nat)) : Prop :=
  (result = none ∧ resultInt = none) ∨
  ∃ r sz', result = some r ∧ resultInt = some (some r.1, r.2, sz') ∧
    r.2.brk ≤ sz' ∧ sz ≤ sz' ∧ sz' ≤ TRAPFRAME

theorem Simulated.of_le {sz₁ sz₂ : Nat} {result : Option (Nat × Heap)}
    {resultInt : Option (Option Nat × Heap × Nat)} (hs : Simulated sz₂ result resultInt)
    (hle : sz₁ ≤ sz₂) : Simulated sz₁ result resultInt := by
  rcases hs with hnone | ⟨r, sz', hr, hrInt, hbrk, hge, htf⟩
  · exact .inl hnone
  · exact .inr ⟨r, sz', hr, hrInt, hbrk, Nat.le_trans hle hge, htf⟩

/-- With a positive `int`, `morecore` fails, or it enters the block at the end of the process. -/
theorem morecoreInt_cases (room : Bool) (hn : 0 < n) (hlt : askedBytes n < 2 ^ 31)
    (hsz : sz ≤ TRAPFRAME) (fuel : Nat) :
    (Heap.sbrkInt room sz (BitVec.ofNat 32 (askedBytes n)) = none ∧
      h.morecoreInt fuel n room sz = some (some 0, h, sz)) ∨
    (Heap.sbrkInt room sz (BitVec.ofNat 32 (askedBytes n)) = some (sz + askedBytes n) ∧
      h.morecoreInt fuel n room sz =
        (((h.grow sz (wanted n)).setSize sz (wanted n)).free fuel (sz + sizeofHeader)).map
          fun h => (some h.freep, h, sz + askedBytes n)) := by
  have hpos : sizeofHeader ≤ askedBytes n :=
    Nat.le_mul_of_pos_left _ (Nat.lt_of_lt_of_le hn (le_wanted n))
  have hheader : sizeofHeader = 16 := rfl
  rcases sbrkInt_pos room hsz (by omega) hlt with hnone | hsome
  · left
    refine ⟨hnone, ?_⟩
    unfold askedBytes wanted at hnone
    unfold Heap.morecoreInt
    simp only [hnone]
  · right
    have hround : ¬ PGROUNDUP (sz + askedBytes n) < sz + 12 := by
      have htf : TRAPFRAME < 2 ^ 20 := by decide
      unfold PGROUNDUP PGSIZE
      omega
    refine ⟨hsome, ?_⟩
    unfold askedBytes wanted at hsome hround ⊢
    unfold Heap.morecoreInt
    simp only [hsome, if_neg hround, growTo_eq]

/-- The two loops do the same. -/
theorem mallocLoopInt_simulated (hn : 0 < n) (hlt : askedBytes n < 2 ^ 31) {sz₀ gap : Nat} {p : Nat}
    (hsz : sz ≤ TRAPFRAME) (hcalls : sz = sz₀ + calls * askedBytes n)
    (hgap : h.brk + (if calls = 0 then gap else 0) = sz) :
    Simulated sz (h.mallocLoop n (gaps n room sz₀ gap) fuel calls prevp p)
      (h.mallocLoopInt n room fuel calls prevp p sz) := by
  induction fuel generalizing calls prevp p sz h with
  | zero => exact .inl ⟨rfl, rfl⟩
  | succ fuel ih =>
    unfold Heap.mallocLoop Heap.mallocLoopInt
    by_cases hp : n ≤ h.size p
    · rw [if_pos hp, if_pos hp]
      refine .inr ⟨_, sz, rfl, rfl, ?_, Nat.le_refl sz, hsz⟩
      rw [take_brk]
      omega
    rw [if_neg hp, if_neg hp]
    by_cases heq : p = h.freep
    · rw [if_pos heq, if_pos heq]
      rcases morecoreInt_cases (h := h) (room calls) hn hlt hsz fuel with
        ⟨hnone, hmore⟩ | ⟨hsome, hmore⟩
      · have hgaps : gaps n room sz₀ gap calls = none := by
          unfold gaps
          rw [← hcalls, hnone]
          rfl
        rw [hmore, hgaps]
        exact .inr ⟨_, sz, rfl, rfl, by simp only; omega, Nat.le_refl sz, hsz⟩
      · have hgaps : gaps n room sz₀ gap calls = some (if calls = 0 then gap else 0) := by
          unfold gaps
          rw [← hcalls, hsome]
          rfl
        have hideal : h.morecore fuel n (some (if calls = 0 then gap else 0)) =
            (((h.grow sz (wanted n)).setSize sz (wanted n)).free fuel (sz + sizeofHeader)).map
              fun h => (h.freep, h) := by
          unfold Heap.morecore
          simp only [hgap]
          rfl
        rw [hgaps, hideal, hmore]
        cases hfree : ((h.grow sz (wanted n)).setSize sz (wanted n)).free fuel
          (sz + sizeofHeader) with
        | none => exact .inl ⟨rfl, rfl⟩
        | some h' =>
          have hbrk : h'.brk = sz + askedBytes n :=
            (free_rest hfree).1.trans (congrArg (sz + ·) (Nat.mul_comm _ _))
          have hle := sbrkInt_le hsz hsome
          simp only [Option.map_some]
          by_cases h0 : h'.freep = 0
          · rw [if_pos h0, if_pos h0]
            exact .inr ⟨_, _, rfl, rfl, Nat.le_of_eq hbrk, Nat.le_add_right _ _, hle⟩
          · rw [if_neg h0, if_neg h0]
            refine (ih hle ?_ ?_).of_le (Nat.le_add_right _ _)
            · rw [hcalls, Nat.add_mul, Nat.one_mul, Nat.add_assoc]
            · rw [if_neg (Nat.succ_ne_zero calls)]
              exact hbrk
    · rw [if_neg heq, if_neg heq]
      exact ih hsz hcalls hgap

/-- There is no more memory than the process has. -/
theorem Arena.totalUnits_le {fl os : List MemBlock} (ha : Arena base h fl os) :
    sizeofHeader * totalUnits h ≤ h.brk := by
  have hcard := ha.spaced.card_le ha.brk ha.above
  rw [card_unitsOf] at hcard
  unfold totalUnits
  omega

/-- The heap of a process of size `sz`. -/
structure ProcHeap (base : Nat) (h : Heap) (sz : Nat) : Prop where
  inv : HeapInv base h
  brk : h.brk ≤ sz
  size : sz ≤ TRAPFRAME

/-- How `malloc(nbytes)` should end: with 0, or with a block of the heap. -/
structure Answered (base : Nat) (h : Heap) (sz nbytes : Nat) (res : Option Nat × Heap × Nat) :
    Prop where
  brk : res.2.1.brk ≤ res.2.2
  grown : sz ≤ res.2.2
  size : res.2.2 ≤ TRAPFRAME
  live : res.2.1.live = h.live
  regions : h.regions <+: res.2.1.regions
  pointer : (res.1 = some 0 ∧ HeapInv base res.2.1) ∨
    ∃ r, res.1 = some r ∧ sizeofHeader ≤ r ∧
      ∃ fl, Arena base res.2.1 fl (⟨r - sizeofHeader, Heap.nunits nbytes⟩ :: askedBlocks h.live)

theorem wanted_mul_lt {n m : Nat} (hn : n * sizeofHeader < m) (hm : 65536 < m) :
    wanted n * sizeofHeader < m := by
  unfold wanted
  split_ifs
  · exact hm
  · exact hn

theorem askedBytes_lt {nbytes : Nat} (hn : Heap.InDomain nbytes) :
    askedBytes (Heap.nunits nbytes) < 2 ^ 31 := by
  refine wanted_mul_lt ?_ (by omega)
  rw [nunits_eq hn]
  exact hn

/-- For sizes in the domain, the arithmetic of the code is that of the model without overflow. -/
theorem ProcHeap.simulated (hp : ProcHeap base h sz) {nbytes : Nat} (hn : Heap.InDomain nbytes)
    (room : Nat → Bool) (fuel : Nat) :
    Simulated sz
      (h.malloc base fuel nbytes (gaps (Heap.nunits nbytes) room sz (sz - h.brk)))
      (h.mallocInt base fuel nbytes room sz) := by
  have hbrk := hp.brk
  refine mallocLoopInt_simulated ?_ (askedBytes_lt hn) hp.size ?_ ?_
  · rw [nunits_eq hn]
    exact Nat.succ_pos _
  · simp
  · rw [init_brk, if_pos rfl]
    omega

/-- What the loop has found, for the process. -/
theorem ProcHeap.answered (hp : ProcHeap base h sz) (hbase : 0 < base) {nbytes : Nat}
    (hn : Heap.InDomain nbytes) (room : Nat → Bool) :
    (∃ k, ∀ fuel > k, ∃ res, h.mallocInt base fuel nbytes room sz = some res) ∧
    ∀ fuel res, h.mallocInt base fuel nbytes room sz = some res →
      Answered base h sz nbytes res := by
  obtain ⟨⟨fl, ha⟩, hregions, hlive⟩ := hp.inv.init hbase
  have hfew : totalUnits (h.init base) + wanted (Heap.nunits nbytes) < 2 ^ 32 := by
    have htotal := ha.totalUnits_le
    have hbytes := askedBytes_lt hn
    have hbrk := hp.brk
    have hsz := hp.size
    have htf : TRAPFRAME < 2 ^ 20 := by decide
    rw [init_brk] at htotal
    unfold askedBytes sizeofHeader at *
    omega
  obtain ⟨k, hk⟩ := hp.inv.malloc hbase hn (gaps (Heap.nunits nbytes) room sz (sz - h.brk))
  refine ⟨⟨k, fun fuel hfuel => ?_⟩, fun fuel res hres => ?_⟩
  · rcases hp.simulated hn room fuel with ⟨hnone, -⟩ | ⟨r, sz', -, hr, -⟩
    · cases hk fuel hfuel with
      | found r hr _ => cases hnone.symm.trans hr
      | failed _ hr => cases hnone.symm.trans hr
      | grown gap _ _ hr =>
        obtain ⟨r, hr, -⟩ := hr hfew
        cases hnone.symm.trans hr
    · exact ⟨_, hr⟩
  · rcases hp.simulated hn room fuel with
      ⟨-, hnone⟩ | ⟨r, sz', hr, hrInt, hbrk, hgrown, hsize⟩
    · cases hnone.symm.trans hres
    cases hrInt.symm.trans hres
    obtain ⟨hadded, hlive'⟩ := mallocLoop_rest hr
    rw [hregions] at hadded
    refine ⟨hbrk, hgrown, hsize, hlive'.trans hlive, hadded, ?_⟩
    -- with more fuel the result is the same
    have hmore := mallocLoop_mono hr (Nat.le_add_right fuel (k + 1))
    cases hk (fuel + (k + 1)) (by omega) with
    | found r' hr' htaken =>
      cases hmore.symm.trans hr'
      exact .inr ⟨r.1, rfl, htaken.header, htaken.arena⟩
    | failed _ hr' =>
      cases hmore.symm.trans hr'
      exact .inl ⟨rfl, .inr ⟨fl, hlive ▸ ha⟩, fun c hc => hp.inv.live c (hlive ▸ hc)⟩
    | grown gap _ _ hr' =>
      obtain ⟨r', hr', hheader, harena, -⟩ := hr' hfew
      cases hmore.symm.trans hr'
      exact .inr ⟨r.1, rfl, hheader, harena⟩

end Small

/-! ### Requests out of the domain -/

section Large

variable {base n sz : Nat} {h : Heap} {fl os : List MemBlock} {room : Nat → Bool}

/-- The rest of a round in which the loop has come to `freep`. -/
def afterRoundInt (n : Nat) (room : Nat → Bool) (fuel calls sz : Nat) (h : Heap) :
    Option (Option Nat × Heap × Nat) :=
  match h.morecoreInt fuel n (room calls) sz with
  | none => none
  | some (none, h, sz) => some (none, h, sz)
  | some (some p, h, sz) =>
    if p = 0 then some (some 0, h, sz)
    else h.mallocLoopInt n room fuel (calls + 1) p (h.ptr p) sz

/-- More fuel does not change the outcome. -/
theorem morecoreInt_mono {fuel' : Nat} {more : Bool} {res : Option Nat × Heap × Nat}
    (hrun : h.morecoreInt fuel n more sz = some res) (hle : fuel ≤ fuel') :
    h.morecoreInt fuel' n more sz = some res := by
  unfold Heap.morecoreInt at hrun ⊢
  dsimp only at hrun ⊢
  split at hrun
  · exact hrun
  · next sz' _ =>
    by_cases hkill : PGROUNDUP sz' < sz + 12
    · rwa [if_pos hkill] at hrun ⊢
    · rw [if_neg hkill] at hrun ⊢
      obtain ⟨h₁, hfree, rfl⟩ := Option.map_eq_some_iff.mp hrun
      rw [free_mono hfree hle]
      rfl

/-- No free block is large enough if none in the list is. -/
theorem Arena.size_next_lt (ha : Arena base h fl os) (hlarge : ∀ b ∈ root base :: fl, b.units < n)
    (hprev : prevp ∈ (root base :: fl).map MemBlock.addr) : ¬ n ≤ h.size (h.ptr prevp) := by
  have hmem : h.ptr prevp ∈ (root base :: fl).map MemBlock.addr := ring_next_mem ha.ring hprev
  obtain ⟨b, hb, heq⟩ := mem_map.mp hmem
  rw [← heq, ha.size b hb]
  exact Nat.not_le.mpr (hlarge b hb)

/-- More fuel does not change the result. -/
theorem mallocLoopInt_mono {fuel' p : Nat} {res : Option Nat × Heap × Nat}
    (hrun : h.mallocLoopInt n room fuel calls prevp p sz = some res) (hle : fuel ≤ fuel') :
    h.mallocLoopInt n room fuel' calls prevp p sz = some res := by
  induction fuel generalizing fuel' calls prevp p sz h with
  | zero => cases hrun
  | succ fuel ih =>
    obtain ⟨fuel', rfl⟩ := Nat.exists_eq_succ_of_ne_zero (by omega : fuel' ≠ 0)
    unfold Heap.mallocLoopInt at hrun ⊢
    split_ifs at hrun ⊢
    · exact hrun
    · cases hmore : h.morecoreInt fuel n (room calls) sz with
      | none =>
        rw [hmore] at hrun
        cases hrun
      | some r =>
        rw [morecoreInt_mono hmore (Nat.le_of_succ_le_succ hle)]
        rw [hmore] at hrun
        obtain ⟨_ | p', h', sz'⟩ := r
        · exact hrun
        · dsimp only at hrun ⊢
          split_ifs at hrun ⊢
          · exact hrun
          · exact ih hrun (Nat.le_of_succ_le_succ hle)
    · exact ih hrun (Nat.le_of_succ_le_succ hle)

/-- If no block is large enough, the loop comes to `freep`. -/
theorem Arena.mallocLoopInt_round (ha : Arena base h fl os)
    (hlarge : ∀ b ∈ root base :: fl, b.units < n) {j : Nat}
    (hprev : prevp ∈ (root base :: fl).map MemBlock.addr) (hj : h.ptr^[j] (h.ptr prevp) = h.freep)
    (room : Nat → Bool) (sz calls : Nat) (hfuel : j < fuel) :
    ∃ fuel', fuel ≤ fuel' + j + 1 ∧
      h.mallocLoopInt n room fuel calls prevp (h.ptr prevp) sz
        = afterRoundInt n room fuel' calls sz h := by
  obtain ⟨fuel, rfl⟩ := Nat.exists_eq_succ_of_ne_zero (Nat.ne_zero_of_lt hfuel)
  induction j generalizing prevp fuel with
  | zero =>
    have hp := ha.size_next_lt hlarge hprev
    refine ⟨fuel, Nat.le_refl _, ?_⟩
    rw [Nat.succ_eq_add_one, Heap.mallocLoopInt, if_neg hp,
      if_pos (show h.ptr prevp = h.freep from hj)]
    rfl
  | succ j ih =>
    have hp := ha.size_next_lt hlarge hprev
    rw [Nat.succ_eq_add_one, Heap.mallocLoopInt, if_neg hp]
    by_cases heq : h.ptr prevp = h.freep
    · rw [if_pos heq]
      exact ⟨fuel, by omega, rfl⟩
    · rw [if_neg heq]
      obtain ⟨fuel, rfl⟩ := Nat.exists_eq_succ_of_ne_zero (by omega : fuel ≠ 0)
      obtain ⟨fuel', hle, hmore⟩ := ih (ring_next_mem ha.ring hprev) hj fuel (by omega)
      exact ⟨fuel', by omega, hmore⟩

/-- The heap, with other records of what `sbrk` has returned. -/
def recorded (regions : List MemBlock) (brk : Nat) (h : Heap) : Heap :=
  { h with regions := regions, brk := brk }

section

variable (regions : List MemBlock)
include regions

theorem joinUpper_recorded (brk bp p : Nat) (h : Heap) :
    (recorded regions brk h).joinUpper bp p = recorded regions brk (h.joinUpper bp p) := by
  unfold Heap.joinUpper
  rw [apply_ite (recorded regions brk)]
  rfl

theorem joinLower_recorded (brk bp p : Nat) (h : Heap) :
    (recorded regions brk h).joinLower bp p = recorded regions brk (h.joinLower bp p) := by
  unfold Heap.joinLower
  rw [apply_ite (recorded regions brk)]
  rfl

/-- The records do not matter for `free`, -/
theorem free_recorded (brk fuel ap : Nat) (h : Heap) :
    (recorded regions brk h).free fuel ap = (h.free fuel ap).map (recorded regions brk) := by
  have hplace : ∀ bp fuel p,
      (recorded regions brk h).findPlace bp fuel p = h.findPlace bp fuel p := by
    intro bp fuel
    induction fuel with
    | zero => exact fun _ => rfl
    | succ fuel ih =>
      intro p
      unfold Heap.findPlace
      rw [ih]
      rfl
  unfold Heap.free
  simp only
  rw [hplace, Option.map_map]
  refine congrArg (fun f => Option.map f _) (funext fun p => ?_)
  rw [joinUpper_recorded, joinLower_recorded]
  rfl

/-- Taking a block does not depend on what is recorded. -/
theorem take_recorded (brk n prevp p : Nat) (h : Heap) : (recorded regions brk h).take n prevp p
      = ((h.take n prevp p).1, recorded regions brk (h.take n prevp p).2) := by
  unfold Heap.take
  by_cases heq : h.size p = n
  · rw [if_pos (show (recorded regions brk h).size p = n from heq), if_pos heq]
    rfl
  · rw [if_neg (show ¬ (recorded regions brk h).size p = n from heq), if_neg heq]
    rfl

/-- nor for the loop as long as it finds a block. -/
theorem mallocLoopInt_recorded (brk : Nat) {p : Nat} {r : Nat × Heap}
    (hrun : h.mallocLoop n (fun _ => none) fuel calls prevp p = some r) (hr : r.1 ≠ 0) :
    (recorded regions brk h).mallocLoopInt n room fuel calls prevp p sz
      = some (some r.1, recorded regions brk r.2, sz) := by
  induction fuel generalizing prevp p with
  | zero => cases hrun
  | succ fuel ih =>
    unfold Heap.mallocLoop at hrun
    unfold Heap.mallocLoopInt
    by_cases hp : n ≤ h.size p
    · rw [if_pos hp] at hrun
      rw [if_pos (show n ≤ (recorded regions brk h).size p from hp)]
      obtain rfl := Option.some.inj hrun
      rw [take_recorded]
    · rw [if_neg hp] at hrun
      rw [if_neg (show ¬ n ≤ (recorded regions brk h).size p from hp)]
      by_cases heq : p = h.freep
      · rw [if_pos heq] at hrun
        obtain rfl := Option.some.inj hrun
        exact absurd rfl hr
      · rw [if_neg heq] at hrun
        rw [if_neg (show ¬ p = (recorded regions brk h).freep from heq)]
        exact ih hrun

end

/-- When `sbrk` succeeds, whatever it has done, the process is killed or gets a pointer. -/
theorem Arena.afterRoundInt_some (ha : Arena base h fl os) (hbase : 0 < base) (hn : 4096 ≤ n)
    (hbrk : h.brk ≤ sz) (hfew : totalUnits h + n < 2 ^ 32) {sz' : Nat}
    (hsbrk : Heap.sbrkInt (room calls) sz (BitVec.ofNat 32 (n * sizeofHeader)) = some sz') :
    ∃ k, ∀ fuel > k, ∃ r h', afterRoundInt n room fuel calls sz h = some (r, h', sz') ∧
      r ≠ some 0 := by
  have hwanted : (if n < 4096 then 4096 else n) = n := if_neg (by omega)
  by_cases hkill : PGROUNDUP sz' < sz + 12
  · refine ⟨0, fun fuel _ => ⟨none, h, ?_, (Option.some_ne_none 0).symm⟩⟩
    unfold afterRoundInt Heap.morecoreInt
    simp only [hwanted, hsbrk, if_pos hkill]
  -- the allocator cannot tell what it has got
  have hgrow : Arena base ((h.grow sz n).setSize sz n) fl
      (⟨sz + sizeofHeader - sizeofHeader, n⟩ :: os) := by
    obtain ⟨gap, rfl⟩ := Nat.exists_eq_add_of_le hbrk
    rw [Nat.add_sub_cancel]
    exact ha.grow (by omega) hfew
  obtain ⟨⟨k, hk⟩, hfree⟩ := hgrow.free
  obtain ⟨h₁, hrun⟩ := hk (k + 1) (Nat.lt_succ_self k)
  obtain ⟨fl', ha', c, hc, hle⟩ := hfree (k + 1) h₁ hrun
  have hne : h₁.freep ≠ 0 := by
    obtain ⟨b, hb, hfreep⟩ := mem_map.mp ha'.freep
    have := ha'.toFreeList.base_le hb
    omega
  obtain ⟨j, hj, hstop⟩ := ring_reachBefore ha'.ring ha'.freep
    (mem_map_of_mem (mem_cons_of_mem _ hc))
  refine ⟨k + j, fun fuel hfuel => ?_⟩
  obtain ⟨r, hr, htaken⟩ := ha'.mallocLoop_reach (n := n) (by omega) ha'.freep hj
    (by rwa [ha'.size c (mem_cons_of_mem _ hc)]) hstop (fun _ => none) (calls + 1)
    (show j < fuel by omega)
  have hr0 : r.1 ≠ 0 := by
    have := htaken.header
    have := sizeofHeader_pos
    omega
  refine ⟨some r.1, recorded (h.growTo sz sz').regions sz' r.2, ?_,
    fun h0 => hr0 (Option.some.inj h0)⟩
  have hgrown : (h.growTo sz sz').setSize sz n = recorded (h.growTo sz sz').regions sz'
      ((h.grow sz n).setSize sz n) := rfl
  have hmore : h.morecoreInt fuel n (room calls) sz
      = some (some h₁.freep, recorded (h.growTo sz sz').regions sz' h₁, sz') := by
    unfold Heap.morecoreInt
    simp only [hwanted, hsbrk, if_neg hkill]
    rw [hgrown, free_recorded, free_mono hrun (by omega)]
    rfl
  unfold afterRoundInt
  rw [hmore]
  simp only
  rw [if_neg hne]
  exact mallocLoopInt_recorded _ _ hr hr0

end Large

/-! ### The result -/

/-- The byte at `a` is in a region that `sbrk` has returned, and the process has it. -/
def Granted (h : Heap) (sz a : Nat) : Prop :=
  a < sz ∧ ∃ g ∈ h.regions, g.addr ≤ a ∧ a < g.addr + sizeofHeader * g.units

/-- `malloc(nbytes)` has returned 0 and taken nothing away, or it has returned `nbytes` bytes that
are there, and these and their header are apart from the blocks of the program and their headers. -/
def Honoured (h : Heap) (sz nbytes : Nat) (res : Option Nat × Heap × Nat) : Prop :=
  (res.1 = some 0 ∧ h.regions <+: res.2.1.regions ∧ res.2.1.live = h.live ∧ sz ≤ res.2.2) ∨
  ∃ r, res.1 = some r ∧ r ≠ 0 ∧ (∀ a, r ≤ a → a < r + nbytes → Granted res.2.1 res.2.2 a) ∧
    ∀ c ∈ h.live, r + nbytes ≤ c.ap - sizeofHeader ∨ c.ap + c.nbytes ≤ r - sizeofHeader

section Result

variable {base sz : Nat} {h : Heap} {nbytes : Nat} {res : Option Nat × Heap × Nat}

/-- A block of the heap is in memory that the process has. -/
theorem Arena.granted {h : Heap} {fl os : List MemBlock} (ha : Arena base h fl os)
    (hbrk : h.brk ≤ sz) {b : MemBlock} (hb : b ∈ os) (hlo : b.addr ≤ a)
    (hhi : a < b.addr + sizeofHeader * b.units) : Granted h sz a := by
  -- the unit of the byte
  have hi : (a - b.addr) / sizeofHeader < b.units := by
    rw [Nat.div_lt_iff_lt_mul sizeofHeader_pos, Nat.mul_comm]
    omega
  have hmem : b.addr + sizeofHeader * ((a - b.addr) / sizeofHeader) ∈ headers h.regions := by
    rw [← ha.parts]
    exact mem_unitsOf.mpr ⟨b, mem_append_right fl hb, mem_units.mpr ⟨_, hi, rfl⟩⟩
  have habove := (ha.above _ hmem).2
  have hdiv := Nat.div_add_mod (a - b.addr) sizeofHeader
  have hmod := Nat.mod_lt (a - b.addr) sizeofHeader_pos
  obtain ⟨g, hg, hu⟩ := mem_unitsOf.mp hmem
  obtain ⟨j, hj, hu⟩ := mem_units.mp hu
  have hle : sizeofHeader * (j + 1) ≤ sizeofHeader * g.units := Nat.mul_le_mul_left _ hj
  rw [Nat.mul_add, Nat.mul_one] at hle
  exact ⟨by omega, g, hg, by omega, by omega⟩

/-- A block that `malloc` returns has its bytes, apart from all live blocks and their headers. -/
theorem Answered.honoured (ha : Answered base h sz nbytes res) (hi : HeapInv base h)
    (hn : Heap.InDomain nbytes) : Honoured h sz nbytes res := by
  rcases ha.pointer with ⟨hzero, -⟩ | ⟨r, hr, hheader, fl, harena⟩
  · exact .inl ⟨hzero, ha.regions, ha.live, ha.grown⟩
  have hsize : r + nbytes ≤ r - sizeofHeader + sizeofHeader * Heap.nunits nbytes := by
    rw [nunits_eq hn]
    unfold sizeofHeader at hheader ⊢
    omega
  have hpos := sizeofHeader_pos
  refine .inr ⟨r, hr, by omega, fun a hlo hhi => ?_, fun c hc => ?_⟩
  · exact harena.granted ha.brk mem_cons_self (by simp only; omega) (by simp only; omega)
  · -- the two blocks are apart
    obtain ⟨hdomain, hap⟩ := hi.live c hc
    have hmem : (⟨c.ap - sizeofHeader, Heap.nunits c.nbytes⟩ : MemBlock) ∈ askedBlocks h.live :=
      mem_map_of_mem hc
    have hapart := (pairwise_cons.mp (pairwise_append.mp harena.apart).2.1).1 _ hmem
    have hsize' : c.ap + c.nbytes ≤ c.ap - sizeofHeader + sizeofHeader * Heap.nunits c.nbytes := by
      rw [nunits_eq hdomain]
      unfold sizeofHeader at hap ⊢
      omega
    unfold Apart at hapart
    simp only at hapart
    omega

/-- No block is larger than all of them. -/
theorem Arena.units_le {h : Heap} {fl os : List MemBlock} (ha : Arena base h fl os) {b : MemBlock}
    (hb : b ∈ fl ++ os) : b.units ≤ totalUnits h := by
  have hcard : (headers (fl ++ os)).card = (headers h.regions).card := by rw [ha.parts]
  rw [card_unitsOf, card_unitsOf] at hcard
  unfold totalUnits
  rw [← hcard]
  exact le_sum_of_mem (mem_map_of_mem hb)

theorem nunits_large (hn : nbytes < 2 ^ 32) (hdomain : ¬ Heap.InDomain nbytes) :
    2 ^ 27 ≤ Heap.nunits nbytes ∧ Heap.nunits nbytes ≤ 2 ^ 28 + 1 ∧ 2 ^ 31 ≤ nbytes + 32 := by
  have heq : Heap.nunits nbytes = (nbytes + 15) / 16 + 1 :=
    Nat.mod_eq_of_lt (show (nbytes + 16 - 1) / 16 + 1 < 2 ^ 32 by omega)
  unfold Heap.InDomain at hdomain
  omega

/-- A request out of the domain ends at `sbrk`. -/
theorem ProcHeap.large (hp : ProcHeap base h sz) (hbase : 0 < base) (hn : nbytes < 2 ^ 32)
    (hdomain : ¬ Heap.InDomain nbytes) (room : Nat → Bool) :
    ∃ k, ∀ fuel > k, ∃ res, h.mallocInt base fuel nbytes room sz = some res ∧
      (Heap.sbrkInt (room 0) sz (BitVec.ofNat 32 (Heap.nunits nbytes * sizeofHeader)) = none →
        res = (some 0, h.init base, sz)) ∧
      ∀ sz', Heap.sbrkInt (room 0) sz (BitVec.ofNat 32 (Heap.nunits nbytes * sizeofHeader))
        = some sz' → res.1 ≠ some 0 ∧ res.2.2 = sz' := by
  obtain ⟨⟨fl, ha⟩, -, -⟩ := hp.inv.init hbase
  obtain ⟨hlo, hhi, -⟩ := nunits_large hn hdomain
  have htotal := ha.totalUnits_le
  rw [init_brk, show sizeofHeader = 16 from rfl] at htotal
  have hbrk := hp.brk
  have hsz := hp.size
  have htf : TRAPFRAME < 2 ^ 20 := by decide
  have hlarge : ∀ b ∈ root base :: fl, b.units < Heap.nunits nbytes := by
    intro b hb
    rcases mem_cons.mp hb with rfl | hb
    · simp only [root]
      omega
    · have := ha.units_le (mem_append_left _ hb)
      omega
  obtain ⟨j, hj⟩ := ring_reach ha.ring (ring_next_mem ha.ring ha.freep) ha.freep
  cases hsbrk : Heap.sbrkInt (room 0) sz
      (BitVec.ofNat 32 (Heap.nunits nbytes * sizeofHeader)) with
  | none =>
    refine ⟨j, fun fuel hfuel => ?_⟩
    obtain ⟨fuel', -, hmore⟩ := ha.mallocLoopInt_round hlarge ha.freep hj room sz 0 hfuel
    refine ⟨_, hmore.trans ?_, fun _ => rfl, fun _ h => (Option.some_ne_none _ h.symm).elim⟩
    have hwanted : (if Heap.nunits nbytes < 4096 then 4096 else Heap.nunits nbytes)
        = Heap.nunits nbytes := if_neg (by omega)
    unfold afterRoundInt Heap.morecoreInt
    simp only [hwanted, hsbrk, if_pos]
  | some sz' =>
    obtain ⟨k, hk⟩ := ha.afterRoundInt_some hbase (n := Heap.nunits nbytes) (by omega)
      (by rw [init_brk]; exact hbrk) (by omega) hsbrk
    refine ⟨j + k + 1, fun fuel hfuel => ?_⟩
    obtain ⟨fuel', hle, hmore⟩ := ha.mallocLoopInt_round hlarge ha.freep hj room sz 0
      (show j < fuel by omega)
    obtain ⟨r, h', hr, hne⟩ := hk fuel' (by omega)
    refine ⟨_, hmore.trans hr, fun h => (Option.some_ne_none _ h).elim, fun sz'' heq => ?_⟩
    exact ⟨hne, Option.some.inj heq⟩

end Result

/-! ### A run -/

section Run

variable {base sz sz' : Nat} {h h' : Heap}

/-- A request in the domain keeps the heap, whether it is honoured or refused. -/
theorem Answered.heap {nbytes r : Nat} {h₁ : Heap} {sz₁ : Nat}
    (ha : Answered base h sz nbytes (some r, h₁, sz₁)) (hi : HeapInv base h)
    (hn : Heap.InDomain nbytes) :
    ProcHeap base (if r = 0 then h₁ else { h₁ with live := h₁.live ++ [⟨r, nbytes⟩] }) sz₁ := by
  rcases ha.pointer with ⟨hzero, hinv⟩ | ⟨r', hr', hheader, harena⟩
  · cases hzero
    exact ⟨hinv, ha.brk, ha.size⟩
  · cases hr'
    have hne : r ≠ 0 := by
      have := sizeofHeader_pos
      omega
    rw [if_neg hne]
    exact ⟨heapInv_taken (r := (r, h₁)) hn hi.live hheader ha.live harena, ha.brk, ha.size⟩

/-- A request out of the domain that is refused leaves the heap as it is. -/
theorem ProcHeap.refused (hp : ProcHeap base h sz) (hbase : 0 < base) {nbytes : Nat}
    (hn : nbytes < 2 ^ 32) (hdomain : ¬ Heap.InDomain nbytes) {room : Nat → Bool} {h₁ : Heap}
    {sz₁ : Nat} (hres : h.mallocInt base fuel nbytes room sz = some (some 0, h₁, sz₁)) :
    ProcHeap base h₁ sz₁ := by
  obtain ⟨k, hk⟩ := hp.large hbase hn hdomain room
  obtain ⟨res, hmore, hnone, hsome⟩ := hk (fuel + k + 1) (by omega)
  cases (mallocLoopInt_mono hres (by omega)).symm.trans hmore
  cases hsbrk : Heap.sbrkInt (room 0) sz
      (BitVec.ofNat 32 (Heap.nunits nbytes * sizeofHeader)) with
  | some sz' => exact absurd rfl (hsome sz' hsbrk).1
  | none =>
    cases hnone hsbrk
    obtain ⟨⟨fl, ha⟩, -, hlive⟩ := hp.inv.init hbase
    exact ⟨⟨.inr ⟨fl, hlive ▸ ha⟩, hlive ▸ hp.inv.live⟩, init_brk h base ▸ hp.brk, hp.size⟩

theorem step_free_brk {ap : Nat} (hstep : h.step base fuel (.free ap) = some h') :
    h'.brk = h.brk := by
  by_cases hap : ∃ c ∈ h.live, c.ap = ap
  · obtain ⟨h₁, hfree, rfl⟩ := Option.map_eq_some_iff.mp ((if_pos hap).symm.trans hstep)
    exact (free_rest hfree).1
  · cases (if_neg hap).symm.trans hstep

theorem step_write_brk {ptr size : Nat} (hstep : h.step base fuel (.write a ptr size) = some h') :
    h'.brk = h.brk := by
  by_cases hw : h.Writable a
  · cases (if_pos hw).symm.trans hstep
    rfl
  · cases (if_neg hw).symm.trans hstep

/-- Every call that was in the domain or refused keeps the invariant. -/
theorem ProcHeap.step (hp : ProcHeap base h sz) (hbase : 0 < base) {ev : HeapCall}
    (hstep : Heap.stepInt base fuel (h, sz) ev = some (h', sz')) : ProcHeap base h' sz' := by
  cases ev with
  | malloc nbytes room =>
    dsimp only [Heap.stepInt] at hstep
    by_cases hn : nbytes < 2 ^ 32
    swap
    · rw [if_neg hn] at hstep
      cases hstep
    rw [if_pos hn] at hstep
    split at hstep
    swap
    · cases hstep
    next r h₁ sz₁ hres =>
    by_cases hdomain : Heap.InDomain nbytes
    · have hheap := ((hp.answered hbase hdomain room).2 fuel _ hres).heap hp.inv hdomain
      split_ifs at hstep hheap <;> cases hstep <;> exact hheap
    · split_ifs at hstep with hzero
      cases hstep
      exact hp.refused hbase hn hdomain (hzero ▸ hres)
  | free ap =>
    obtain ⟨h₁, hfree, heq⟩ := Option.map_eq_some_iff.mp hstep
    obtain ⟨rfl, rfl⟩ := Prod.mk.inj heq
    exact ⟨hp.inv.step_free hfree, step_free_brk hfree ▸ hp.brk, hp.size⟩
  | write a ptr size =>
    obtain ⟨h₁, hwrite, heq⟩ := Option.map_eq_some_iff.mp hstep
    obtain ⟨rfl, rfl⟩ := Prod.mk.inj heq
    exact ⟨hp.inv.step_write hwrite, step_write_brk hwrite ▸ hp.brk, hp.size⟩

/-- The invariant along a run of such calls. -/
theorem ProcHeap.run (hp : ProcHeap base h sz) (hbase : 0 < base) {evs : List HeapCall}
    (hrun : Heap.runInt base fuel (h, sz) evs = some (h', sz')) : ProcHeap base h' sz' := by
  induction evs generalizing h sz with
  | nil =>
    cases hrun
    exact hp
  | cons ev evs ih =>
    obtain ⟨⟨h₁, sz₁⟩, hstep, hrest⟩ := Option.bind_eq_some_iff.mp hrun
    exact ih (hp.step hbase hstep) hrest

end Run

/-! ### The theorem -/

/-- `malloc` in a process whose program has called `malloc` and `free` in any order, with requests
so far that were in the domain or refused: it honours a request of any size exactly if
the bytes of the request and its header fit into a positive `int`, or if `sbrk` refuses what the
`int` says. -/
theorem malloc_honoured_iff {base fuel sz₀ sz nbytes : Nat} {ptr size : Nat → Nat}
    {evs : List HeapCall} {h : Heap} (hbase : 0 < base) (hstart : base + sizeofHeader ≤ sz₀)
    (hsize : sz₀ ≤ TRAPFRAME)
    (hrun : Heap.runInt base fuel (Heap.start base ptr size, sz₀) evs = some (h, sz))
    (hn : nbytes < 2 ^ 32) (room : Nat → Bool) :
    (∃ k, ∀ fuel > k, ∃ res, h.mallocInt base fuel nbytes room sz = some res ∧
      Honoured h sz nbytes res) ↔
    Heap.InDomain nbytes ∨
      Heap.sbrkInt (room 0) sz (BitVec.ofNat 32 (Heap.nunits nbytes * sizeofHeader)) = none := by
  have hp : ProcHeap base h sz :=
    ProcHeap.run ⟨heapInv_start base ptr size, hstart, hsize⟩ hbase hrun
  by_cases hdomain : Heap.InDomain nbytes
  · refine ⟨fun _ => .inl hdomain, fun _ => ?_⟩
    obtain ⟨⟨k, hk⟩, hall⟩ := hp.answered hbase hdomain room
    refine ⟨k, fun fuel hfuel => ?_⟩
    obtain ⟨res, hres⟩ := hk fuel hfuel
    exact ⟨res, hres, (hall fuel res hres).honoured hp.inv hdomain⟩
  obtain ⟨k, hk⟩ := hp.large hbase hn hdomain room
  obtain ⟨-, hregions, hlive⟩ := hp.inv.init hbase
  constructor
  · rintro ⟨k', hk'⟩
    right
    obtain ⟨res, hres, hspec⟩ := hk (k + k' + 1) (by omega)
    obtain ⟨res', hres', hhonoured⟩ := hk' (k + k' + 1) (by omega)
    cases hres.symm.trans hres'
    cases hsbrk : Heap.sbrkInt (room 0) sz
        (BitVec.ofNat 32 (Heap.nunits nbytes * sizeofHeader)) with
    | none => rfl
    | some sz' =>
      obtain ⟨hne, hsz'⟩ := hspec.2 sz' hsbrk
      -- there are not so many bytes
      have hle := sbrkInt_le hp.size hsbrk
      have htf : TRAPFRAME < 2 ^ 20 := by decide
      obtain ⟨-, -, hbytes⟩ := nunits_large hn hdomain
      rcases hhonoured with ⟨hzero, -⟩ | ⟨r, -, -, hgranted, -⟩
      · exact absurd hzero hne
      · have hlt := (hgranted (r + 2 ^ 20) (by omega) (by omega)).1
        omega
  · rintro (hin | hrefused)
    · exact absurd hin hdomain
    · refine ⟨k, fun fuel hfuel => ?_⟩
      obtain ⟨res, hres, hspec⟩ := hk fuel hfuel
      obtain rfl := hspec.1 hrefused
      exact ⟨_, hres, .inl ⟨rfl, hregions ▸ prefix_rfl, hlive, Nat.le_refl sz⟩⟩

/-- The actions of a program that is refused a large block, allocates two and frees one. -/
def twoBlocks : List HeapCall :=
  [.malloc (2 ^ 32 - 1) fun _ => false, .malloc 100 fun _ => true, .malloc 20 fun _ => true,
    .free (4096 + 65536 - 112)]

/-- After a request that is refused, two blocks and a `free`, there is room for 200 bytes. -/
theorem malloc_honoured_twoBlocks :
    ∃ h sz, Heap.runInt 16 5 (Heap.start 16 (fun _ => 0) fun _ => 0, 4096) twoBlocks
        = some (h, sz) ∧
      ∃ k, ∀ fuel > k, ∃ res, h.mallocInt 16 fuel 200 (fun _ => true) sz = some res ∧
        Honoured h sz 200 res := by
  have hrun : (Heap.runInt 16 5 (Heap.start 16 (fun _ => 0) fun _ => 0, 4096)
      twoBlocks).isSome = true := by
    decide +kernel
  obtain ⟨⟨h, sz⟩, hh⟩ := Option.isSome_iff_exists.mp hrun
  exact ⟨h, sz, hh, (malloc_honoured_iff (by decide) (by decide) (by decide) hh (by decide)
    fun _ => true).mpr (.inl (by decide))⟩

/-- A request for `2 ^ 32 - 1` bytes: 16 times its units are `2 ^ 32 + 16`, which is 16 as an `int`.
`malloc` returns a pointer, and the process has no byte behind it. -/
theorem malloc_honoured_wraps :
    ∃ res, (Heap.start 16 (fun _ => 0) fun _ => 0).mallocInt 16 5 (2 ^ 32 - 1) (fun _ => true) 4096
        = some res ∧ res.1 = some 4112 ∧ res.2.2 = 4112 ∧
      ¬ Honoured (Heap.start 16 (fun _ => 0) fun _ => 0) 4096 (2 ^ 32 - 1) res := by
  have hrun : (((Heap.start 16 (fun _ => 0) fun _ => 0).mallocInt 16 5 (2 ^ 32 - 1) (fun _ => true)
      4096).any fun res => res.1 = some 4112 ∧ res.2.2 = 4112) = true := by
    decide +kernel
  obtain ⟨res, hres, hfacts⟩ := (Option.any_eq_true _ _).mp hrun
  obtain ⟨hptr, hsz⟩ := of_decide_eq_true hfacts
  refine ⟨res, hres, hptr, hsz, ?_⟩
  rintro (⟨hzero, -⟩ | ⟨r, hr, -, hgranted, -⟩)
  · cases hptr.symm.trans hzero
  · obtain rfl := Option.some.inj (hptr.symm.trans hr)
    have hlt := (hgranted 4112 (by omega) (by omega)).1
    omega

end Xv6.Proofs
