import Xv6.Kernel.Vm

/-!
# `Xv6.Proofs.Vm.Pte`: page-table entries

An entry is 0, or it names a page of RAM and has some flags (`Entry`). The lemmas read the parts
of an entry back: its page, its flags, and the tests that `vm.c` makes. They hold because the
page bits (`PAMASK`) and the flag bits do not overlap, and because every page of RAM is its own
direct-mapped pointer (`dmwin_phys`).
-/

set_option autoImplicit false

namespace Xv6.Proofs

open Lib

variable {flags : Pte} {page pg : Nat}

/-! ### Pages of RAM -/

/-- A page of `[RAMBASE, RAMSTOP)`. -/
def IsPage (pg : Nat) : Prop := pg % PGSIZE = 0 ∧ RAMBASE ≤ pg ∧ pg < RAMSTOP

def ramPages : PageKind where
  size := PGSIZE
  Valid := IsPage
  aligned := fun _ h => Nat.dvd_of_mod_eq_zero h.1

/-- The physical address of a page. -/
def phys (pg : Nat) : Nat := pg - 0x9000000000000000

theorem and_pamask (n : Nat) : n &&& PAMASK.toNat = n / 4096 % 2 ^ 36 * 4096 := by
  have hmask : PAMASK.toNat = (2 ^ 36 - 1) <<< 12 := by decide
  have hdiv : n / 4096 % 2 ^ 36 * 4096 = (n >>> 12 % 2 ^ 36) <<< 12 := by
    rw [Nat.shiftRight_eq_div_pow, Nat.shiftLeft_eq]
  rw [hmask, hdiv]
  apply Nat.eq_of_testBit_eq
  intro i
  simp only [Nat.testBit_and, Nat.testBit_shiftLeft, Nat.testBit_two_pow_sub_one,
    Nat.testBit_mod_two_pow, Nat.testBit_shiftRight]
  by_cases hi : 12 ≤ i
  · simp [hi, Bool.and_comm]
  · simp [hi]

/-- The page bits of a pointer are the physical address. -/
theorem pa2pte_toNat (h : IsPage pg) : (PA2PTE pg).toNat = phys pg := by
  obtain ⟨halign, hlo, hhi⟩ := h
  unfold PA2PTE phys
  rw [BitVec.toNat_and, and_pamask, BitVec.toNat_ofNat]
  unfold RAMSTOP at hhi
  unfold RAMBASE at hlo hhi
  unfold PGSIZE at halign
  omega

/-- An address below `2 ^ 60` and the pointer for it. -/
theorem dmwin_eq {pa : Nat} (h : pa < 2 ^ 60) : dmwin pa = 0x9000000000000000 + pa := by
  unfold dmwin
  have hmask : DMWIN_MASK.toNat = 2 ^ 60 * 9 := by decide
  rw [BitVec.toNat_or, BitVec.toNat_ofNat, hmask, Nat.mod_eq_of_lt (by omega), Nat.or_comm,
    ← Nat.two_pow_add_eq_or_of_lt h]

/-- The pointer for the address of a byte of a page. -/
theorem dmwin_phys {off : Nat} (h : IsPage pg) (hoff : off < PGSIZE) :
    dmwin (phys pg + off) = pg + off := by
  obtain ⟨-, hlo, hhi⟩ := h
  unfold PGSIZE at hoff
  unfold RAMSTOP at hhi
  unfold RAMBASE at hlo hhi
  unfold phys
  rw [dmwin_eq (by omega)]
  omega

theorem dmwin_phys_zero (h : IsPage pg) : dmwin (phys pg) = pg := by
  have h0 := dmwin_phys h (show 0 < PGSIZE by decide)
  rwa [Nat.add_zero, Nat.add_zero] at h0

theorem phys_ne_zero (h : IsPage pg) : phys pg ≠ 0 := by
  obtain ⟨-, hlo, -⟩ := h
  unfold RAMBASE at hlo
  unfold phys
  omega

theorem isPage_ne_zero (h : IsPage pg) : pg ≠ 0 := by
  obtain ⟨-, hlo, -⟩ := h
  unfold RAMBASE at hlo
  omega

/-! ### Entries -/

/-- A valid entry: its page and its flags, without `PTE_V`. -/
structure Entry where
  page : Nat
  flags : Pte
  deriving DecidableEq

variable {e : Entry}

/-- The word of an entry. -/
def Entry.pte (e : Entry) : Pte := PA2PTE e.page ||| e.flags ||| PTE_V

/-- The word of an entry that may be missing. -/
def pteOf : Option Entry → Pte
  | none => 0
  | some e => Entry.pte e

/-- The page is a page of RAM, and the flags do not reach into its number. -/
structure Entry.Valid (e : Entry) : Prop where
  page : IsPage e.page
  flags : PTE_FLAGS e.flags = e.flags

/-- The entry has a flag beside `PTE_V`. Directories have none. -/
def Entry.Leaf (e : Entry) : Prop := e.flags ||| PTE_V ≠ PTE_V

structure Entry.Ok (e : Entry) : Prop extends Entry.Valid e where
  leaf : Entry.Leaf e

instance (e : Entry) : Decidable (Entry.Leaf e) := inferInstanceAs (Decidable (_ ≠ _))

/-- The entry of a directory for the next table. -/
def dirPte (page : Nat) : Pte := PA2PTE page ||| PTE_V

/-- Bits outside the page bits are read from the flags alone. -/
theorem pte_and {mask : Pte} (hmask : PAMASK &&& mask = 0#64) :
    (PA2PTE page ||| flags) &&& mask = flags &&& mask := by
  unfold PA2PTE
  rw [BitVec.and_or_distrib_right, BitVec.and_assoc, hmask, BitVec.and_zero, BitVec.zero_or]

theorem pte_and_pamask (hflags : flags &&& PAMASK = 0#64) :
    (PA2PTE page ||| flags) &&& PAMASK = PA2PTE page := by
  unfold PA2PTE
  rw [BitVec.and_or_distrib_right, BitVec.and_assoc, BitVec.and_self, hflags, BitVec.or_zero]

theorem flags_and_pamask (h : PTE_FLAGS flags = flags) : flags &&& PAMASK = 0#64 := by
  rw [← h]
  unfold PTE_FLAGS
  rw [BitVec.and_assoc, show (0xE0000000000001FF#64 &&& PAMASK : Pte) = 0#64 by decide,
    BitVec.and_zero]

theorem flags_or_v (h : PTE_FLAGS flags = flags) :
    PTE_FLAGS (flags ||| PTE_V) = flags ||| PTE_V := by
  unfold PTE_FLAGS at h ⊢
  rw [BitVec.and_or_distrib_right, h,
    show (PTE_V &&& 0xE0000000000001FF#64 : Pte) = PTE_V by decide]

theorem Entry.pte_eq (e : Entry) : Entry.pte e = PA2PTE e.page ||| (e.flags ||| PTE_V) :=
  BitVec.or_assoc _ _ _

theorem or_v_and_v (x : Pte) : (x ||| PTE_V) &&& PTE_V ≠ 0 := by
  rw [BitVec.and_or_distrib_right, BitVec.and_self]
  intro h
  have hbit : (x &&& PTE_V ||| PTE_V).getLsbD 0 = true := by
    rw [BitVec.getLsbD_or, show PTE_V.getLsbD 0 = true by decide, Bool.or_true]
  rw [h] at hbit
  simp at hbit

theorem Entry.pte_v (e : Entry) : Entry.pte e &&& PTE_V ≠ 0 := or_v_and_v _

theorem dirPte_v (page : Nat) : dirPte page &&& PTE_V ≠ 0 := or_v_and_v _

theorem Entry.Valid.flags_pte (h : Entry.Valid e) :
    PTE_FLAGS (Entry.pte e) = e.flags ||| PTE_V := by
  rw [Entry.pte_eq]
  unfold PTE_FLAGS
  rw [pte_and (by decide)]
  exact flags_or_v h.flags

/-- `PTE_FLAGS(*pte) == PTE_V` fails for a leaf and holds for a directory entry. -/
theorem Entry.Valid.flags_ne_iff (h : Entry.Valid e) :
    PTE_FLAGS (Entry.pte e) ≠ PTE_V ↔ Entry.Leaf e := by
  rw [h.flags_pte]
  exact Iff.rfl

theorem dirPte_flags (page : Nat) : PTE_FLAGS (dirPte page) = PTE_V := by
  unfold dirPte PTE_FLAGS
  rw [pte_and (by decide)]
  decide

theorem Entry.Valid.pte2pa (h : Entry.Valid e) : PTE2PA (Entry.pte e) = phys e.page := by
  unfold PTE2PA
  rw [Entry.pte_eq, pte_and_pamask (flags_and_pamask (flags_or_v h.flags)), pa2pte_toNat h.page]

theorem dirPte_pte2pa (h : IsPage page) : PTE2PA (dirPte page) = phys page := by
  unfold PTE2PA dirPte
  rw [pte_and_pamask (by decide), pa2pte_toNat h]

theorem Entry.pte_plv (e : Entry) : Entry.pte e &&& PTE_PLV = e.flags &&& PTE_PLV := by
  rw [Entry.pte_eq, pte_and (by decide), BitVec.and_or_distrib_right,
    show (PTE_V &&& PTE_PLV : Pte) = 0#64 by decide, BitVec.or_zero]

/-- The pointers that `vm.c` computes from entries. -/
theorem Entry.Valid.dmwin (h : Entry.Valid e) : dmwin (PTE2PA (Entry.pte e)) = e.page := by
  rw [h.pte2pa, dmwin_phys_zero h.page]

theorem dirPte_dmwin (h : IsPage page) : dmwin (PTE2PA (dirPte page)) = page := by
  rw [dirPte_pte2pa h, dmwin_phys_zero h]

end Xv6.Proofs
