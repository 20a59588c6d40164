import Xv6.Proofs.Vm.Copy

/-!
# `Xv6.Proofs.Vm.UserMemory`: user memory through a page table

The translation of an address is `userPage`. The loops of `copyout` and `copyin` go page by page
from any 64-bit address on and stop at the first page that the user cannot reach. They agree on how
far they get (`Extent`, with one step lemma), and the argument that a later page does not undo an
earlier one is that different addresses have different bytes (`AddressSpace.byte_inj`).

`copyinstr` walks the user's pages with two nested loops and two counters. What it does is a scan of
the user's bytes one by one, `scanStr`, which knows nothing of pages: it stops at '\0', at a byte
that the user cannot reach, and when there is no more room. `copyinstrLoop_scan` says that the loops
are this scan, by induction on the rounds with one lemma for the bytes of a page (`scanStr_append`).
-/

set_option autoImplicit false

namespace Xv6.Proofs

open Lib List

variable {k len n pg va : Nat} {mem mem' : Bytes}

/-! ### What a table says about user addresses -/

/-- Whether the user may access the page at `va`. -/
def Reachable (ph : Phys) (pagetable va : Nat) : Prop :=
  va < MAXVA ∧ entryAt ph pagetable va &&& PTE_V ≠ 0 ∧ entryAt ph pagetable va &&& PTE_PLV ≠ 0

instance (ph : Phys) (pagetable va : Nat) : Decidable (Reachable ph pagetable va) :=
  inferInstanceAs (Decidable (_ ∧ _ ∧ _))

/-- The physical byte behind user address `va`, through the window at `DMWIN_MASK`. -/
def userByte (ph : Phys) (pagetable va : Nat) : Option Nat :=
  if Reachable ph pagetable va then
    some (dmwin (PTE2PA (entryAt ph pagetable va)) + va % PGSIZE)
  else none

/-- All pages touched by `[va, va + len)` are reachable, and the range does not wrap around. -/
def RangeReachable (ph : Phys) (pagetable va len : Nat) : Prop :=
  va + len < 2 ^ 64 ∧ ∀ k < len, Reachable ph pagetable (PGROUNDDOWN (va + k))

/-- An address space: the pages `es` from address 0 on, and the trapframe, which the user cannot
reach. All these pages are different, and different from the free pages and the pages `other` that
someone else has. -/
structure AddressSpace (ph : Phys) (d : Dirs) (tf : Entry) (es : List Entry) (other : List Nat) :
    Prop where
  chain : Chain ph.mem d (userMap (some tf) es)
  trapframe : tf.flags &&& PTE_PLV = 0
  length : es.length ≤ tfIndex
  owns : Owns ramPages ph (tf.page :: (spacePages d es ++ other))

/-- The page behind user address `va`. -/
def userPage (es : List Entry) (va : Nat) : Option Nat :=
  es[va / PGSIZE]?.bind fun e => if e.flags &&& PTE_PLV = 0 then none else some e.page

theorem pgrounddown_div (va : Nat) : PGROUNDDOWN va / PGSIZE = va / PGSIZE := by
  unfold PGROUNDDOWN
  exact Nat.mul_div_cancel _ (by decide)

theorem sub_pgrounddown (va : Nat) : va - PGROUNDDOWN va = va % PGSIZE := by
  unfold PGROUNDDOWN PGSIZE
  omega

theorem userPage_eq_some {es : List Entry} :
    userPage es va = some pg ↔
      ∃ e, es[va / PGSIZE]? = some e ∧ e.flags &&& PTE_PLV ≠ 0 ∧ e.page = pg := by
  unfold userPage
  rw [Option.bind_eq_some_iff]
  refine exists_congr fun e => and_congr_right fun _ => ?_
  by_cases hplv : e.flags &&& PTE_PLV = 0
  · rw [if_pos hplv]
    exact ⟨nofun, fun h => absurd hplv h.1⟩
  · rw [if_neg hplv, Option.some.injEq]
    exact ⟨fun h => ⟨hplv, h⟩, (·.2)⟩

section Space

variable {ph : Phys} {d : Dirs} {tf : Entry} {es : List Entry} {other : List Nat}

section

variable (h : AddressSpace ph d tf es other)
include h

/-- The trapframe is above the pages of `es`. -/
theorem AddressSpace.entry {i : Nat} {e : Entry} (he : es[i]? = some e) :
    userMap (some tf) es i = some e := by
  have hlt := (List.getElem?_eq_some_iff.mp he).1
  rw [userMap_get (Nat.lt_of_lt_of_le hlt h.length), he]

/-- What a leaf gives the user, and the entry of the trapframe gives nothing. -/
theorem AddressSpace.userAddr (va : Nat) :
    userAddr (userMap (some tf) es (va / PGSIZE)) = (userPage es va).elim 0 phys := by
  unfold userPage
  cases hget : es[va / PGSIZE]? with
  | some e =>
    rw [h.entry hget, Proofs.userAddr, Option.bind_some]
    by_cases hplv : e.flags &&& PTE_PLV = 0
    · rw [if_pos hplv, if_pos hplv, Option.elim_none]
    · rw [if_neg hplv, if_neg hplv, Option.elim_some]
  | none =>
    unfold userMap
    rw [hget, Option.bind_none, Option.elim_none]
    split
    · rw [Proofs.userAddr, if_pos h.trapframe]
    · rw [Proofs.userAddr]

theorem AddressSpace.below (hpg : userPage es va ≠ none) : va < MAXVA := by
  obtain ⟨pg, hpg⟩ := Option.ne_none_iff_exists'.mp hpg
  obtain ⟨e, he, -⟩ := userPage_eq_some.mp hpg
  have hlt := (List.getElem?_eq_some_iff.mp he).1
  have hle := h.length
  rw [tfIndex_eq] at hle
  unfold MAXVA
  unfold PGSIZE at hlt
  omega

/-- What `walkaddr` returns for the page of `va`. -/
theorem AddressSpace.walkaddr (va : Nat) :
    (walkaddr d.root (PGROUNDDOWN va)).run ph = .ok ((userPage es va).elim 0 phys, ph) := by
  rw [walkaddr_chain h.chain, pgrounddown_div, h.userAddr]
  congr 2
  split
  · rfl
  · rename_i hva
    cases hpg : userPage es va with
    | none => rfl
    | some pg =>
      have hlt := h.below (hpg ▸ Option.some_ne_none pg)
      unfold PGROUNDDOWN at hva
      have := Nat.div_mul_le_self va PGSIZE
      omega

theorem AddressSpace.page (hpg : userPage es va = some pg) : IsPage pg := by
  obtain ⟨e, he, -, rfl⟩ := userPage_eq_some.mp hpg
  exact h.owns.own_valid (mem_cons_of_mem _ (mem_append_left _
    (mem_append_right _ (mem_map_of_mem (mem_of_getElem? he)))))

/-- The table's own answer is `userPage`. -/
theorem AddressSpace.reachable_iff (va : Nat) : Reachable ph d.root va ↔ userPage es va ≠ none := by
  by_cases hva : va < MAXVA
  swap
  · exact ⟨fun hr => absurd hr.1 hva, fun hpg => absurd (h.below hpg) hva⟩
  unfold Reachable userPage
  rw [h.chain.entryAt_va hva]
  cases hget : es[va / PGSIZE]? with
  | some e =>
    rw [h.entry hget, pteOf_some, Entry.pte_plv, Option.bind_some]
    by_cases hplv : e.flags &&& PTE_PLV = 0
    · rw [if_pos hplv]
      exact iff_of_false (fun hr => hr.2.2 hplv) (fun hne => hne rfl)
    · rw [if_neg hplv]
      exact iff_of_true ⟨hva, Entry.pte_v e, hplv⟩ (Option.some_ne_none _)
  | none =>
    refine iff_of_false (fun hr => ?_) fun hne => hne rfl
    obtain ⟨-, hv, hplv⟩ := hr
    unfold userMap at hv hplv
    rw [hget] at hv hplv
    split at hplv
    · rw [pteOf_some, Entry.pte_plv] at hplv
      exact hplv h.trapframe
    · rename_i hi
      rw [if_neg hi] at hv
      exact hv rfl

/-- Where a byte of the program is in memory. -/
theorem AddressSpace.userByte (va : Nat) :
    userByte ph d.root va = (userPage es va).map (· + va % PGSIZE) := by
  unfold Proofs.userByte
  cases hpg : userPage es va with
  | none => exact if_neg fun hr => (h.reachable_iff va).mp hr hpg
  | some pg =>
    have hr := (h.reachable_iff va).mpr (hpg ▸ Option.some_ne_none pg)
    obtain ⟨e, he, -, rfl⟩ := userPage_eq_some.mp hpg
    rw [if_pos hr, h.chain.entryAt_va hr.1, h.entry he, pteOf_some,
      (h.chain.ok _ e (h.entry he)).dmwin]
    rfl

/-- Different addresses have different bytes. -/
theorem AddressSpace.byte_inj {va' pg' : Nat} (hpg : userPage es va = some pg)
    (hpg' : userPage es va' = some pg') (heq : pg + va % PGSIZE = pg' + va' % PGSIZE) :
    va = va' := by
  have hin : InPage ramPages pg (pg + va % PGSIZE) :=
    ⟨Nat.le_add_right _ _, Nat.add_lt_add_left (Nat.mod_lt _ (by decide)) _⟩
  have hin' : InPage ramPages pg' (pg + va % PGSIZE) :=
    heq ▸ ⟨Nat.le_add_right _ _, Nat.add_lt_add_left (Nat.mod_lt _ (by decide)) _⟩
  obtain rfl : pg = pg' := inPage_unique (K := ramPages) (h.page hpg) (h.page hpg') hin hin'
  obtain ⟨e, he, -, hpage⟩ := userPage_eq_some.mp hpg
  obtain ⟨e', he', -, hpage'⟩ := userPage_eq_some.mp hpg'
  -- the pages of `es` are different, so the two addresses have the same page number
  have hnodup : (es.map Entry.page).Nodup := by
    have hall := (nodup_append.mp h.owns.nodup).2.1
    exact (nodup_append.mp (nodup_append.mp (nodup_cons.mp hall).2).1).2.1
  have hidx : va / PGSIZE = va' / PGSIZE := by
    obtain ⟨hlt, -⟩ := List.getElem?_eq_some_iff.mp he
    refine (List.getElem?_inj (by rwa [length_map]) hnodup).mp ?_
    rw [List.getElem?_map, List.getElem?_map, he, he', Option.map_some, Option.map_some, hpage,
      hpage']
  have hoff : va % PGSIZE = va' % PGSIZE := Nat.add_left_cancel heq
  rw [← Nat.div_add_mod va PGSIZE, ← Nat.div_add_mod va' PGSIZE, hidx, hoff]

end

end Space

/-! ### How far a copy gets -/

/-- The loops stop after `n` of `len` bytes from `va` on, with result `r`. -/
structure Extent (es : List Entry) (va len n : Nat) (r : Int) : Prop where
  reach : ∀ k < n, userPage es (va + k) ≠ none
  stop : (r = 0 ∧ n = len) ∨
    (r = -1 ∧ n < len ∧ userPage es (va + n) = none ∧ (n = 0 ∨ (va + n) % PGSIZE = 0))

theorem Extent.zero (es : List Entry) (va : Nat) : Extent es va 0 0 0 :=
  ⟨nofun, Or.inl ⟨rfl, rfl⟩⟩

theorem Extent.fault {es : List Entry} (hlen : len ≠ 0) (hpg : userPage es va = none) :
    Extent es va len 0 (-1) :=
  ⟨nofun, Or.inr ⟨rfl, Nat.pos_of_ne_zero hlen, hpg, Or.inl rfl⟩⟩

/-- The bytes that one round transfers. -/
def chunk (va len : Nat) : Nat := min (PGSIZE - va % PGSIZE) len

theorem chunk_le (va len : Nat) : va % PGSIZE + chunk va len ≤ PGSIZE ∧ chunk va len ≤ len := by
  have := Nat.mod_lt va (show 0 < PGSIZE by decide)
  unfold chunk
  omega

/-- If there is more to copy, the next round starts where this one ended. -/
theorem chunk_next (h : k < len - chunk va len) : PGROUNDDOWN va + PGSIZE = va + chunk va len := by
  unfold chunk at *
  unfold PGROUNDDOWN
  unfold PGSIZE at *
  omega

theorem userPage_chunk {es : List Entry} (hk : k < chunk va len) :
    userPage es (va + k) = userPage es va := by
  have hdiv : (va + k) / PGSIZE = va / PGSIZE := by
    unfold chunk at hk
    unfold PGSIZE at *
    omega
  unfold userPage
  rw [hdiv]

theorem mod_chunk (hk : k < chunk va len) : (va + k) % PGSIZE = va % PGSIZE + k := by
  unfold chunk at hk
  unfold PGSIZE at *
  omega

/-- One round before the others. -/
theorem Extent.step {es : List Entry} {r : Int} (hpg : userPage es va ≠ none)
    (h : Extent es (PGROUNDDOWN va + PGSIZE) (len - chunk va len) n r) :
    Extent es va len (chunk va len + n) r := by
  have hle := (chunk_le va len).2
  have hn : n ≤ len - chunk va len := by
    rcases h.stop with ⟨-, hn⟩ | ⟨-, hn, -⟩ <;> omega
  constructor
  · intro k hk
    by_cases hfirst : k < chunk va len
    · rwa [userPage_chunk hfirst]
    · have hreach := h.reach (k - chunk va len) (by omega)
      rwa [chunk_next (show 0 < len - chunk va len by omega), Nat.add_assoc,
        Nat.add_sub_cancel' (by omega)] at hreach
  · rcases h.stop with ⟨hr, hall⟩ | ⟨hr, hlt, hnone, halign⟩
    · exact Or.inl ⟨hr, by omega⟩
    · have hnext := chunk_next (k := n) hlt
      rw [hnext, Nat.add_assoc] at hnone
      refine Or.inr ⟨hr, by omega, hnone, Or.inr ?_⟩
      rcases halign with rfl | halign
      · rw [Nat.add_zero, ← hnext]
        unfold PGROUNDDOWN
        rw [← Nat.succ_mul]
        exact Nat.mul_mod_left _ _
      · rwa [hnext, Nat.add_assoc] at halign

theorem length_leBytes (k v : Nat) : (leBytes k v).length = k := by simp [leBytes]

/-! ### The two loops -/

section Loops

variable {d : Dirs} {tf : Entry} {es : List Entry} {other : List Nat}

/-- Memory changes only where the user may write. -/
def UserWrites (es : List Entry) (mem mem' : Bytes) : Prop :=
  ∀ a, mem' a ≠ mem a → ∃ va pg, userPage es va = some pg ∧ a = pg + va % PGSIZE

theorem UserWrites.agree (h : UserWrites es mem mem') {a : Nat}
    (ha : ∀ pg ∈ es.map Entry.page, ¬ InPage ramPages pg a) : mem' a = mem a := by
  by_contra hne
  obtain ⟨va, pg, hpg, rfl⟩ := h a hne
  obtain ⟨e, he, -, rfl⟩ := userPage_eq_some.mp hpg
  exact ha e.page (mem_map_of_mem (mem_of_getElem? he))
    ⟨Nat.le_add_right _ _, Nat.add_lt_add_left (Nat.mod_lt _ (by decide)) _⟩

theorem UserWrites.moves {ph : Phys} (h : UserWrites es ph.mem mem') (d : Dirs) :
    Moves ramPages ph (spacePages d es) ⟨mem', ph.freelist⟩ (spacePages d es) :=
  ⟨.refl _, fun _ ha => h.agree fun pg hpg =>
    ha pg (mem_append_right _ (mem_append_right _ hpg))⟩

/-- The pages that the user cannot write: the trapframe, the tables, those cut off from the user,
those of others and those that are free. -/
def kernelSide (ph : Phys) (d : Dirs) (tf : Entry) (es : List Entry) (other : List Nat) :
    List Nat :=
  tf.page :: (d.list ++
    ((es.filter fun e => e.flags &&& PTE_PLV = 0).map Entry.page ++ (other ++ ph.freelist)))

/-- A page of the program is none of the kernel. -/
theorem AddressSpace.not_kernelSide {ph : Phys} (h : AddressSpace ph d tf es other)
    (hpg : userPage es va = some pg) : pg ∉ kernelSide ph d tf es other := by
  obtain ⟨e, he, hplv, rfl⟩ := userPage_eq_some.mp hpg
  have hmem := mem_of_getElem? he
  have hpage : e.page ∈ es.map Entry.page := mem_map_of_mem hmem
  obtain ⟨-, hall, hfree⟩ := nodup_append.mp h.owns.nodup
  obtain ⟨htf, hrest⟩ := nodup_cons.mp hall
  obtain ⟨hspace, -, hother⟩ := nodup_append.mp hrest
  obtain ⟨-, hes, hd⟩ := nodup_append.mp hspace
  have hin : e.page ∈ spacePages d es := mem_append_right _ hpage
  unfold kernelSide
  rw [mem_cons, mem_append, mem_append, mem_append]
  rintro (heq | hdir | hcut | hoth | hfr)
  · exact htf (heq ▸ mem_append_left _ hin)
  · exact hd _ hdir _ hpage rfl
  · obtain ⟨e', he', heq⟩ := mem_map.mp hcut
    obtain ⟨hmem', hcut'⟩ := mem_filter.mp he'
    obtain rfl : e' = e := inj_on_of_nodup_map hes hmem' hmem heq
    exact hplv (of_decide_eq_true hcut')
  · exact hother _ hin _ hoth rfl
  · exact hfree _ hfr _ (mem_cons_of_mem _ (mem_append_left _ hin)) rfl

theorem AddressSpace.kernelSide_page {ph : Phys} (h : AddressSpace ph d tf es other)
    (hpg : pg ∈ kernelSide ph d tf es other) : IsPage pg := by
  refine h.owns.valid pg ?_
  unfold kernelSide at hpg
  unfold spacePages
  simp only [mem_cons, mem_append, mem_map, mem_filter] at hpg ⊢
  grind

/-- A copy to the program does not change a page of the kernel. -/
theorem AddressSpace.untouched {ph : Phys} (h : AddressSpace ph d tf es other)
    (hw : UserWrites es ph.mem mem') (hpg : pg ∈ kernelSide ph d tf es other) {a : Nat}
    (ha : InPage ramPages pg a) : mem' a = ph.mem a := by
  by_contra hne
  obtain ⟨va, q, hq, rfl⟩ := hw a hne
  have hin : InPage ramPages q (q + va % PGSIZE) :=
    ⟨Nat.le_add_right _ _, Nat.add_lt_add_left (Nat.mod_lt _ (by decide)) _⟩
  have heq := inPage_unique (K := ramPages) (h.page hq) (h.kernelSide_page hpg) hin ha
  exact h.not_kernelSide hq (heq ▸ hpg)

theorem AddressSpace.after {ph : Phys} (h : AddressSpace ph d tf es other)
    (hw : UserWrites es ph.mem mem') : AddressSpace ⟨mem', ph.freelist⟩ d tf es other :=
  { h with
    chain := h.chain.congr fun _ hpg _ ha => h.untouched hw
      (mem_cons_of_mem _ (mem_append_left _ hpg)) ha
    owns := ⟨h.owns.nodup, h.owns.valid⟩ }

/-- The first `n` bytes of `src` are at user address `va`, and nothing else has changed. -/
structure CopiedOut (es : List Entry) (va : Nat) (src : List UInt8) (n : Nat) (mem mem' : Bytes) :
    Prop where
  wrote : ∀ k < n, ∀ pg, userPage es (va + k) = some pg →
    src[k]? = some (mem' (pg + (va + k) % PGSIZE))
  frame : ∀ a, mem' a ≠ mem a →
    ∃ k < n, ∃ pg, userPage es (va + k) = some pg ∧ a = pg + (va + k) % PGSIZE

theorem CopiedOut.userWrites {src : List UInt8} (h : CopiedOut es va src n mem mem') :
    UserWrites es mem mem' := fun a ha => by
  obtain ⟨k, -, pg, hpg, ha⟩ := h.frame a ha
  exact ⟨va + k, pg, hpg, ha⟩

theorem CopiedOut.none (es : List Entry) (va : Nat) (src : List UInt8) (mem : Bytes) :
    CopiedOut es va src 0 mem mem := ⟨nofun, fun _ ha => absurd rfl ha⟩

/-- One round of `copyout`. -/
theorem copiedOut_chunk (src : List UInt8) (hpg : userPage es va = some pg) (mem : Bytes) :
    CopiedOut es va src (chunk va src.length) mem
      (putBytes mem (pg + va % PGSIZE) (src.take (chunk va src.length))) := by
  have hle := (chunk_le va src.length).2
  constructor
  · intro k hk q hq
    rw [userPage_chunk hk, hpg] at hq
    obtain rfl := Option.some.inj hq
    unfold putBytes
    rw [mod_chunk hk, if_pos (by rw [length_take]; omega), ← Nat.add_assoc,
      Nat.add_sub_cancel_left, getD_eq_getElem?_getD, List.getElem?_take_of_lt hk,
      List.getElem?_eq_getElem (by omega)]
    rfl
  · intro a ha
    unfold putBytes at ha
    split at ha
    · rename_i hin
      rw [length_take] at hin
      have hk : a - (pg + va % PGSIZE) < chunk va src.length := by omega
      refine ⟨a - (pg + va % PGSIZE), hk, pg, by rw [userPage_chunk hk, hpg], ?_⟩
      rw [mod_chunk hk]
      omega
    · exact absurd rfl ha

/-- The rounds after the first write elsewhere. -/
theorem CopiedOut.append {ph : Phys} (h : AddressSpace ph d tf es other) {c : Nat}
    {src : List UInt8} {mem₁ : Bytes} (h₁ : CopiedOut es va src c mem mem₁)
    (h₂ : CopiedOut es (va + c) (src.drop c) n mem₁ mem') :
    CopiedOut es va src (c + n) mem mem' := by
  constructor
  · intro k hk pg hpg
    by_cases hfirst : k < c
    · have hkept : mem' (pg + (va + k) % PGSIZE) = mem₁ (pg + (va + k) % PGSIZE) := by
        by_contra hne
        obtain ⟨k', -, q, hq, heq⟩ := h₂.frame _ hne
        have := h.byte_inj hpg hq heq
        omega
      rw [hkept]
      exact h₁.wrote k hfirst pg hpg
    · obtain ⟨j, rfl⟩ : ∃ j, k = c + j := ⟨k - c, by omega⟩
      rw [← Nat.add_assoc] at hpg ⊢
      rw [← h₂.wrote j (by omega) pg hpg, List.getElem?_drop]
  · intro a ha
    by_cases hsame : mem' a = mem₁ a
    · obtain ⟨k, hk, hloc⟩ := h₁.frame a (hsame ▸ ha)
      exact ⟨k, by omega, hloc⟩
    · obtain ⟨k, hk, hloc⟩ := h₂.frame a hsame
      rw [Nat.add_assoc] at hloc
      exact ⟨c + k, by omega, hloc⟩

/-- The loop of `copyout` copies up to the first byte that is not accessible. -/
theorem copyoutLoop_exact (rounds : Nat) :
    ∀ {ph : Phys} (va : Nat) (src : List UInt8), AddressSpace ph d tf es other →
      src.length ≤ rounds →
      ∃ r mem' n, (copyoutLoop d.root rounds va src).run ph = .ok (r, ⟨mem', ph.freelist⟩) ∧
        Extent es va src.length n r ∧ CopiedOut es va src n ph.mem mem' := by
  induction rounds with
  | zero =>
    intro ph va src _ hlen
    rw [Nat.le_zero.mp hlen]
    exact ⟨0, ph.mem, 0, rfl, Extent.zero _ _, CopiedOut.none _ _ _ _⟩
  | succ rounds ih =>
    intro ph va src h hlen
    rw [copyoutLoop]
    by_cases hsrc : src.length = 0
    · rw [if_pos hsrc, hsrc]
      exact ⟨0, ph.mem, 0, rfl, Extent.zero _ _, CopiedOut.none _ _ _ _⟩
    rw [if_neg hsrc, run_bind_ok (h.walkaddr va)]
    cases hpg : userPage es va with
    | none =>
      exact ⟨-1, ph.mem, 0, rfl, Extent.fault hsrc hpg, CopiedOut.none _ _ _ _⟩
    | some pg =>
      have hpage := h.page hpg
      rw [Option.elim_some, if_neg (phys_ne_zero hpage), sub_pgrounddown,
        dmwin_phys hpage (Nat.mod_lt _ (by decide))]
      have hfirst := copiedOut_chunk src hpg ph.mem
      have hpos : 0 < chunk va src.length := by
        have := Nat.mod_lt va (show 0 < PGSIZE by decide)
        unfold chunk
        omega
      have hdrop : (src.drop (chunk va src.length)).length = src.length - chunk va src.length :=
        length_drop
      obtain ⟨r, mem', n, hrun, hext, hrest⟩ := ih (PGROUNDDOWN va + PGSIZE)
        (src.drop (chunk va src.length)) (h.after hfirst.userWrites) (by omega)
      rw [hdrop] at hext
      refine ⟨r, mem', chunk va src.length + n, ?_, hext.step (hpg ▸ Option.some_ne_none pg),
        hfirst.append h ?_⟩
      · show (store _ (src.take (chunk va src.length)) >>= fun _ => _).run ph = _
        rw [run_bind_ok (store_run _ _ _)]
        exact hrun
      · -- the next round starts where this one ended, if there is one
        by_cases hn : n = 0
        · subst hn
          exact ⟨fun k hk => absurd hk (Nat.not_lt_zero k),
            fun a ha => absurd (hrest.frame a ha) (by simp)⟩
        · have hle : n ≤ src.length - chunk va src.length := by
            rcases hext.stop with ⟨-, hn⟩ | ⟨-, hn, -⟩ <;> omega
          rwa [chunk_next (show 0 < src.length - chunk va src.length by omega)] at hrest

/-- The loop of `copyin` copies up to the first byte that is not accessible. -/
theorem copyinLoop_exact {ph : Phys} (h : AddressSpace ph d tf es other) (rounds : Nat) :
    ∀ va len, len ≤ rounds →
      ∃ bs r, (copyinLoop d.root rounds va len).run ph = .ok ((bs, r), ph) ∧
        Extent es va len bs.length r ∧
        ∀ k < bs.length, ∀ pg, userPage es (va + k) = some pg →
          bs[k]? = some (ph.mem (pg + (va + k) % PGSIZE)) := by
  induction rounds with
  | zero =>
    intro va len hlen
    rw [Nat.le_zero.mp hlen]
    exact ⟨[], 0, rfl, Extent.zero _ _, nofun⟩
  | succ rounds ih =>
    intro va len hlen
    rw [copyinLoop]
    by_cases hzero : len = 0
    · rw [if_pos hzero, hzero]
      exact ⟨[], 0, rfl, Extent.zero _ _, nofun⟩
    rw [if_neg hzero, run_bind_ok (h.walkaddr va)]
    cases hpg : userPage es va with
    | none => exact ⟨[], -1, rfl, Extent.fault hzero hpg, nofun⟩
    | some pg =>
      have hpage := h.page hpg
      rw [Option.elim_some, if_neg (phys_ne_zero hpage), sub_pgrounddown,
        dmwin_phys hpage (Nat.mod_lt _ (by decide)), run_bind_ok (StateT.run_get _)]
      have hpos : 0 < chunk va len := by
        have := Nat.mod_lt va (show 0 < PGSIZE by decide)
        unfold chunk
        omega
      obtain ⟨bs, r, hrun, hext, hread⟩ := ih (PGROUNDDOWN va + PGSIZE) (len - chunk va len)
        (by omega)
      have hget : (getBytes ph.mem (pg + va % PGSIZE) (chunk va len)).length = chunk va len := by
        simp [getBytes]
      refine ⟨getBytes ph.mem (pg + va % PGSIZE) (chunk va len) ++ bs, r, ?_, ?_, ?_⟩
      · show (copyinLoop d.root rounds (PGROUNDDOWN va + PGSIZE) (len - chunk va len)
          >>= fun _ => _).run ph = _
        rw [run_bind_ok hrun]
        rfl
      · rw [length_append, hget]
        exact hext.step (hpg ▸ Option.some_ne_none pg)
      · intro k hk q hq
        rw [length_append, hget] at hk
        by_cases hfirst : k < chunk va len
        · rw [userPage_chunk hfirst, hpg] at hq
          obtain rfl := Option.some.inj hq
          rw [mod_chunk hfirst, List.getElem?_append_left (by omega), getBytes,
            List.getElem?_map, List.getElem?_range hfirst, ← Nat.add_assoc]
          rfl
        · obtain ⟨j, rfl⟩ : ∃ j, k = chunk va len + j := ⟨k - chunk va len, by omega⟩
          have hle : bs.length ≤ len - chunk va len := by
            rcases hext.stop with ⟨-, hn⟩ | ⟨-, hn, -⟩ <;> omega
          have hnext := chunk_next (show 0 < len - chunk va len by omega)
          rw [← Nat.add_assoc, ← hnext] at hq ⊢
          rw [← hread j (by omega) q hq, List.getElem?_append_right (by omega), hget,
            Nat.add_sub_cancel_left]

end Loops

/-! ### Strings -/

/-- The bytes stored and the result, if `f` are the bytes that the user can reach and there is room
for `max` bytes. -/
def scanStr (f : Nat → Option UInt8) : (max va : Nat) → List UInt8 × Int
  | 0, _ => ([], -1)
  | max + 1, va =>
    match f va with
    | none => ([], -1)
    | some b =>
      if b = 0 then ([0], 0)
      else (b :: (scanStr f max (va + 1)).1, (scanStr f max (va + 1)).2)

section Scan

variable {f : Nat → Option UInt8}

theorem scanStr_length (max : Nat) : ∀ va, (scanStr f max va).1.length ≤ max := by
  induction max with
  | zero => exact fun _ => le_rfl
  | succ max ih =>
    intro va
    rw [scanStr]
    split
    · exact Nat.zero_le _
    · split
      · exact Nat.succ_le_succ (Nat.zero_le max)
      · exact Nat.succ_le_succ (ih _)

/-- The bytes `bs` before the rest: the '\0' is among them, or all of them are stored. -/
theorem scanStr_append (bs : List UInt8) :
    ∀ {max va : Nat}, bs.length ≤ max → (∀ j b, bs[j]? = some b → f (va + j) = some b) →
      scanStr f max va =
        if (bs.takeWhile (· ≠ 0)).length < bs.length then (bs.takeWhile (· ≠ 0) ++ [0], 0)
        else (bs ++ (scanStr f (max - bs.length) (va + bs.length)).1,
          (scanStr f (max - bs.length) (va + bs.length)).2) := by
  induction bs with
  | nil => exact fun _ _ => rfl
  | cons b bs ih =>
    intro max va hle hbytes
    obtain ⟨max, rfl⟩ : ∃ m, max = m + 1 := Nat.exists_eq_succ_of_ne_zero (by
      rw [List.length_cons] at hle
      omega)
    have hb : f va = some b := hbytes 0 b rfl
    rw [scanStr, hb]
    dsimp only
    by_cases hzero : b = 0
    · rw [if_pos hzero, List.takeWhile_cons_of_neg (by simpa using hzero)]
      exact (if_pos (Nat.zero_lt_succ _)).symm
    · have hbytes' : ∀ j c, bs[j]? = some c → f (va + 1 + j) = some c := by
        intro j c hc
        rw [Nat.add_assoc, Nat.add_comm 1]
        exact hbytes (j + 1) c hc
      have hrest := ih (Nat.le_of_succ_le_succ hle) hbytes'
      rw [if_neg hzero, hrest, List.takeWhile_cons_of_pos (by simpa using hzero)]
      simp only [List.length_cons, Nat.add_lt_add_iff_right, Nat.add_sub_add_right,
        Nat.add_assoc, Nat.add_comm 1]
      split <;> rfl

end Scan

/-- The byte at user address `va`. -/
def userAt (ph : Phys) (pagetable va : Nat) : Option UInt8 := (userByte ph pagetable va).map ph.mem

section Loop

variable {ph : Phys} {d : Dirs} {tf : Entry} {es : List Entry} {other : List Nat}

theorem AddressSpace.userAt (h : AddressSpace ph d tf es other) (va : Nat) :
    userAt ph d.root va = (userPage es va).map fun pg => ph.mem (pg + va % PGSIZE) := by
  unfold Proofs.userAt
  rw [h.userByte, Option.map_map]
  rfl

/-- The loop of `copyinstr` reads the string byte by byte. -/
theorem copyinstrLoop_scan (h : AddressSpace ph d tf es other) (rounds : Nat) :
    ∀ srcva max, max ≤ rounds →
      (copyinstrLoop d.root rounds srcva max).run ph =
        .ok (scanStr (Proofs.userAt ph d.root) max srcva, ph) := by
  induction rounds with
  | zero =>
    intro srcva max hmax
    rw [Nat.le_zero.mp hmax]
    rfl
  | succ rounds ih =>
    intro srcva max hmax
    rw [copyinstrLoop]
    by_cases hzero : max = 0
    · rw [if_pos hzero, hzero]
      rfl
    obtain ⟨m, hm⟩ := Nat.exists_eq_succ_of_ne_zero hzero
    rw [if_neg hzero, run_bind_ok (h.walkaddr srcva)]
    cases hpg : userPage es srcva with
    | none =>
      have hnone : Proofs.userAt ph d.root srcva = none := by
        rw [h.userAt, hpg]
        rfl
      rw [hm, scanStr, hnone]
      rfl
    | some pg =>
      have hpage := h.page hpg
      rw [Option.elim_some, if_neg (phys_ne_zero hpage), sub_pgrounddown,
        dmwin_phys hpage (Nat.mod_lt _ (by decide)), run_bind_ok (StateT.run_get _)]
      have hlen : (getBytes ph.mem (pg + srcva % PGSIZE) (chunk srcva max)).length
          = chunk srcva max := by
        simp [getBytes]
      have hbytes : ∀ j b, (getBytes ph.mem (pg + srcva % PGSIZE) (chunk srcva max))[j]? = some b →
          Proofs.userAt ph d.root (srcva + j) = some b := by
        intro j b hb
        have hj : j < chunk srcva max := hlen ▸ (List.getElem?_eq_some_iff.mp hb).1
        rw [getBytes, List.getElem?_map, List.getElem?_range hj] at hb
        rw [h.userAt, userPage_chunk hj, hpg, mod_chunk hj, Option.map_some, ← Nat.add_assoc]
        exact hb
      have hpos : 0 < chunk srcva max := by
        have := Nat.mod_lt srcva (show 0 < PGSIZE by decide)
        unfold chunk
        omega
      have hle := (chunk_le srcva max).2
      rw [scanStr_append _ (by rw [hlen]; exact hle) hbytes, hlen]
      -- the inner loop finds the '\0' in this page, or the outer loop goes on
      have hmin : min (PGSIZE - srcva % PGSIZE) max = chunk srcva max := rfl
      dsimp only
      rw [hmin]
      split
      · rfl
      · rw [run_bind_ok (ih (PGROUNDDOWN srcva + PGSIZE) (max - chunk srcva max) (by omega))]
        -- the next round starts where this one ended, if there is one
        by_cases hmore : 0 < max - chunk srcva max
        · rw [chunk_next hmore]
          rfl
        · rw [Nat.eq_zero_of_not_pos hmore]
          rfl

theorem copyinstr_scan (h : AddressSpace ph d tf es other) (srcva max : Nat) :
    (copyinstr d.root srcva max).run ph =
      .ok (scanStr (Proofs.userAt ph d.root) max srcva, ph) :=
  copyinstrLoop_scan h max srcva max le_rfl

end Loop

end Xv6.Proofs
