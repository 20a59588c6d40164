import Xv6.Proofs.Vm.UserCopy

/-!
# `Xv6.Proofs.Vm.Sbrk`: what `growproc` does to an address space

`growproc` adds zeroed pages or takes the last ones away, and in both cases leaves the bytes below
the two sizes alone (`growproc_exact`). It computes the new size in a `uint`, and `uvmdealloc` has
nothing to do when the new size is not smaller. So a request to shrink by more than the whole size
wraps around to a huge new size, and the call reports success with nothing changed
(`sbrk_below_zero`). That is the only way to miss the law of `sbrk` (`sbrk_law_iff`).

What an address space contains is read through its page table (`contentAt`).
-/

set_option autoImplicit false

namespace Xv6.Proofs

open Lib

variable {ph : Phys} {va : Nat}

/-! ### Reading an address space -/

/-- The byte at `va`, as the page table finds it. -/
def contentAt (ph : Phys) (pagetable va : Nat) : Option UInt8 :=
  (mappedAt ph pagetable va).map fun pg => ph.mem (pg + va % PGSIZE)

theorem va_lt_maxva {es : List Entry} (hle : es.length ≤ tfIndex) (hva : va < es.length * PGSIZE) :
    va < MAXVA ∧ va / PGSIZE < es.length := by
  rw [tfIndex_eq] at hle
  unfold MAXVA
  unfold PGSIZE at *
  omega

theorem Tables.mappedAt_user {d : Dirs} {tf : Option Entry} {es : List Entry}
    (hc : Tables ph.mem d (userMap tf es)) (hle : es.length ≤ tfIndex)
    (hva : va < es.length * PGSIZE) : mappedAt ph d.root va = es[va / PGSIZE]?.map Entry.page := by
  obtain ⟨hmax, hidx⟩ := va_lt_maxva hle hva
  rw [hc.mappedAt_va hmax, userMap_get (by omega)]

/-- The first pages of `es`, with what they hold, are what the user table maps from address 0 on. -/
theorem contentAt_take {d : Dirs} {tf : Option Entry} {es : List Entry} {c : Bytes} {k : Nat}
    (hc : Chain ph.mem d (userMap tf es)) (hbytes : PagesHold ph.mem (es.take k) c)
    (hle : es.length ≤ tfIndex) (hk : va < k * PGSIZE) (hva : va < es.length * PGSIZE) :
    contentAt ph d.root va = some (c va) := by
  have hidx := (va_lt_maxva hle hva).2
  have hget : (es.take k)[va / PGSIZE]? = some es[va / PGSIZE] := by
    have hlt : va / PGSIZE < k := by
      unfold PGSIZE at *
      omega
    rw [List.getElem?_take_of_lt hlt, List.getElem?_eq_getElem hidx]
  have hbyte := hbytes _ _ hget (va % PGSIZE) (Nat.mod_lt _ (by decide))
  unfold contentAt
  rw [hc.mappedAt_user hle hva, List.getElem?_eq_getElem hidx, Option.map_some, Option.map_some,
    hbyte, Nat.mul_comm, Nat.div_add_mod]

theorem contentAt_user {d : Dirs} {tf : Option Entry} {es : List Entry} {c : Bytes}
    (hc : Chain ph.mem d (userMap tf es)) (hbytes : PagesHold ph.mem es c)
    (hle : es.length ≤ tfIndex) (hva : va < es.length * PGSIZE) :
    contentAt ph d.root va = some (c va) :=
  contentAt_take hc (hbytes.take _) hle hva hva

theorem entryAt_congr {ph' : Phys} {d : Dirs} {m : PageMap} (hc : Chain ph.mem d m)
    (hc' : Chain ph'.mem d m) (va : Nat) : entryAt ph' d.root va = entryAt ph d.root va := by
  by_cases hva : va < MAXVA
  · rw [hc.entryAt_va hva, hc'.entryAt_va hva]
  · unfold entryAt walk
    rw [if_pos (by omega)]
    rfl

/-! ### `growproc` -/

/-- The law of `sbrk` for a call of `growproc(n)` from `s` to `s'` with result `r`. -/
structure SbrkLaw (s s' : Os) (p : Slot) (n : CInt) (r : Int) : Prop where
  result : r = 0 ∨ r = -1
  /-- the size has changed by `n` -/
  size : r = 0 → ((s'.proc p).sz : Int) = (s.proc p).sz + n.toInt
  kept : r = 0 → ∀ va < min (s.proc p).sz (s'.proc p).sz,
    contentAt s'.phys (s'.proc p).pagetable va = contentAt s.phys (s.proc p).pagetable va
  sbrk : r = 0 → (sys_sbrk p n).run s = .ok (((s.proc p).sz : Int), s')
  /-- nothing has changed -/
  failed : r = -1 → (s'.proc p).sz = (s.proc p).sz ∧
    (∀ va, entryAt s'.phys (s'.proc p).pagetable va = entryAt s.phys (s.proc p).pagetable va) ∧
    s'.phys.freelist.Perm s.phys.freelist

section Growproc

variable {s : Os} {p : Slot} {d : Dirs} {tf : Entry} {es : List Entry} {other : List Nat}

theorem sys_sbrk_run {r : Int} {s' : Os} {n : CInt} (hsz : (s.proc p).sz ≤ TRAPFRAME)
    (hrun : (growproc p n).run s = .ok (r, s')) (hr : r = 0) :
    (sys_sbrk p n).run s = .ok (((s.proc p).sz : Int), s') := by
  have hint : (BitVec.ofNat 32 (s.proc p).sz).toInt = ((s.proc p).sz : Int) := by
    unfold TRAPFRAME MAXVA at hsz
    rw [BitVec.toInt_ofNat', Int.bmod_def]
    omega
  unfold sys_sbrk
  rw [run_bind_ok (StateT.run_get s)]
  dsimp only
  rw [run_bind_ok hrun, if_neg (by omega), hint]
  rfl

/-- `growproc(n)` follows the law of `sbrk` unless it is asked to shrink the process by more than
its size. -/
theorem sbrk_law_iff (h : AddressSpace s.phys d tf es other)
    (hroot : (s.proc p).pagetable = d.root) (hlen : es.length = npages (s.proc p).sz)
    (hsz : (s.proc p).sz ≤ TRAPFRAME) (n : CInt) :
    ∃ r s', (growproc p n).run s = .ok (r, s') ∧
      (SbrkLaw s s' p n r ↔ 0 ≤ ((s.proc p).sz : Int) + n.toInt) := by
  obtain ⟨r, s', hrun, hroot', hcase⟩ := growproc_exact h hroot hlen hsz n
  refine ⟨r, s', hrun, ?_⟩
  rcases hcase with ⟨rfl, hsz', -, es', hlen', hle', hc', -, -, hbytes⟩ |
    ⟨rfl, hpos, hs', hc', hm⟩
  · constructor
    · intro hlaw
      have := hlaw.size rfl
      omega
    · intro hnonneg
      have hwrap := wrapSize_eq hsz n
      refine ⟨Or.inl rfl, fun _ => ?_, fun _ va hva => ?_,
        fun _ => sys_sbrk_run hsz hrun rfl, nofun⟩
      · split at hsz' <;> omega
      · -- both sizes take the page of `va`
        have hold := le_npages hsz
        have hnew := le_npages hle'
        rw [← hlen] at hold
        rw [← hlen'] at hnew
        have hle : es.length ≤ tfIndex := hlen ▸ npages_le hsz
        have hk : va < min es.length es'.length * PGSIZE := by
          unfold PGSIZE at *
          omega
        rw [hroot, hroot', contentAt_user h.chain (holds_bytesOf _ _) hle (by omega),
          contentAt_take hc' (hbytes _ (holds_bytesOf _ _)) (hlen' ▸ npages_le hle') hk (by omega)]
  · refine iff_of_true ⟨Or.inr rfl, nofun, nofun, nofun, fun _ => ?_⟩ (by omega)
    rw [congrArg Os.proc hs', hroot]
    exact ⟨rfl, entryAt_congr h.chain hc', (List.perm_append_right_iff _).mp hm.perm⟩

end Growproc

/-! ### In the running system -/

/-- The address space of a process of the system, with its size. -/
theorem run_userSpace {mem : Bytes} {calls : List (Slot × Call)} {s : Os}
    (hrun : run mem calls = .ok s) {p : Slot} (hused : (s.proc p).state ≠ .unused) :
    ∃ d es other, (s.proc p).pagetable = d.root ∧
      AddressSpace s.phys d (tfEntry (s.proc p).trapframe) es other ∧
      UserSpace s.phys.mem (s.proc p).trapframe d es (s.proc p).sz := by
  obtain ⟨G, h⟩ := run_inv hrun
  obtain ⟨sp, hheld⟩ := h.settled.used p hused
  obtain ⟨htf, hroot, hsp⟩ := h.sys.space hheld
  rw [htf]
  exact ⟨sp.d, sp.es, _, hroot, h.sys.addressSpace hheld, hsp⟩

/-- The first process, which has one page, grows by another one. -/
theorem sbrk_law_iff_init :
    ∃ s, run (fun _ => 0) [] = .ok s ∧ ∃ r s', (growproc initproc 4096).run s = .ok (r, s') ∧
      (SbrkLaw s s' initproc 4096 r ↔ 0 ≤ ((s.proc initproc).sz : Int) + (4096 : CInt).toInt) := by
  obtain ⟨s, G, pg, hbooted, -, hrun⟩ := run_eq fun _ => 0
  obtain ⟨d, es, other, hroot, h, hsp⟩ :=
    run_userSpace (hrun []) (by rw [hbooted.state]; decide : (s.proc initproc).state ≠ .unused)
  exact ⟨s, hrun [], sbrk_law_iff h hroot hsp.length hsp.le 4096⟩

/-- The first process asks to shrink by two pages. It is told that this is done, and keeps the one
page that it has. -/
theorem sbrk_below_zero :
    ∃ s, run (fun _ => 0) [] = .ok s ∧ ∃ s', (growproc initproc (-8192)).run s = .ok (0, s') ∧
      (s.proc initproc).sz = PGSIZE ∧ (s'.proc initproc).sz = PGSIZE ∧
      ¬ SbrkLaw s s' initproc (-8192) 0 := by
  obtain ⟨s, G, pg, hbooted, -, hrun⟩ := run_eq fun _ => 0
  obtain ⟨d, es, other, hroot, h, hsp⟩ :=
    run_userSpace (hrun []) (by rw [hbooted.state]; decide : (s.proc initproc).state ≠ .unused)
  have hint : (-8192 : CInt).toInt = -8192 := by decide
  obtain ⟨r, s', hgrow, -, ⟨rfl, hsz', -⟩ | ⟨-, hpos, -⟩⟩ :=
    growproc_exact h hroot hsp.length hsp.le (-8192)
  · rw [hbooted.sz, if_pos (by decide)] at hsz'
    have hsize : (s'.proc initproc).sz = PGSIZE := by rw [hsz']; decide
    refine ⟨s, hrun [], s', hgrow, hbooted.sz, hsize, fun hlaw => ?_⟩
    have := hlaw.size rfl
    rw [hsize, hbooted.sz, hint] at this
    exact absurd this (by decide)
  · exact absurd hpos (by decide)

end Xv6.Proofs
