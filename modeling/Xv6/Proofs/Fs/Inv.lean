import Xv6.Proofs.Fs.Disk
import Xv6.Lib.BlockMap

/-!
# `Xv6.Proofs.Fs.Inv`: blocks and the inodes that refer to them

The blocks of an inode are named by its thirteen addresses and by the entries of its indirect block
(`Ptr`). `AllocInv` is the block allocation invariant: the free map marks the blocks before the data
blocks and those that some inode refers to, no block is referred to twice, and an inode has a block
for every byte below its size.

It is stated for any table `node` of inodes, because the inodes in memory are ahead of those on disk
while they are locked. The lemmas follow the changes that the file system makes: a free block is put
into an empty place (`alloc_addr`, `alloc_entry`), a place is cleared, data is written.
-/

set_option autoImplicit false

namespace Xv6

variable {b bn j : Nat} {d d' : Dinode} {disk' : Disk}

/-- The address of the indirect block. -/
def Dinode.ind (d : Dinode) : Nat := d.addrs (Fin.last NDIRECT)

def Dinode.withAddrs (d : Dinode) (as : Fin (NDIRECT + 1) → Nat) : Dinode := { d with addrs := as }

def Dinode.withSize (d : Dinode) (n : Nat) : Dinode := { d with size := n }

def Inode.withDinode (i : Inode) (d : Dinode) : Inode := { i with toDinode := d }

@[simp] theorem Inode.toDinode_withDinode (i : Inode) (d : Dinode) :
    (i.withDinode d).toDinode = d := rfl

namespace Proofs

open Lib Fs
open Function (update_eq_self update_idem update_of_ne update_self)

/-! ### Places for block numbers -/

/-- A place in an inode: one of its addresses, or an entry of its indirect block. -/
inductive Ptr where
  | addr (k : Fin (NDIRECT + 1))
  | entry (j : Fin NINDIRECT)
  deriving DecidableEq

/-- The block number in a place, or 0. -/
def ptr (disk : Disk) (d : Dinode) : Ptr → Nat
  | .addr k => d.addrs k
  | .entry j => if d.ind = 0 then 0 else indirectEntry (disk (d.ind)) j

theorem ptr_addr (disk : Disk) (d : Dinode) (k : Fin (NDIRECT + 1)) :
    ptr disk d (.addr k) = d.addrs k := rfl

theorem ptr_entry (disk : Disk) (d : Dinode) (j : Fin NINDIRECT) : ptr disk d (.entry j)
    = if d.ind = 0 then 0 else indirectEntry (disk (d.ind)) j := rfl

/-- The place of block `bn` of a file. -/
def ptrOf (bn : Nat) : Option Ptr :=
  if h : bn < NDIRECT then some (.addr ⟨bn, Nat.lt_succ_of_lt h⟩)
  else if h : bn - NDIRECT < NINDIRECT then some (.entry ⟨bn - NDIRECT, h⟩)
  else none

/-- The block number of block `bn` of a file, or 0. -/
def fileBlock (disk : Disk) (d : Dinode) (bn : Nat) : Nat := (ptrOf bn).elim 0 (ptr disk d)

/-- The byte at an offset of a file. -/
def byteAt (disk : Disk) (d : Dinode) (off : Nat) : UInt8 :=
  disk (fileBlock disk d (off / BSIZE)) (off % BSIZE)

theorem ptrOf_isSome (h : bn < MAXFILE) : ∃ p, ptrOf bn = some p := by
  unfold ptrOf
  split
  · exact ⟨_, rfl⟩
  · rw [dif_pos (by unfold MAXFILE at h; omega)]
    exact ⟨_, rfl⟩

theorem ptrOf_inj {bn' : Nat} {p : Ptr} (h : ptrOf bn = some p) (h' : ptrOf bn' = some p) :
    bn = bn' := by
  grind [ptrOf]

theorem ptrOf_ne_ind {p : Ptr} (h : ptrOf bn = some p) : p ≠ .addr (Fin.last NDIRECT) := by
  grind [ptrOf]

theorem ptrOf_direct (h : bn < NDIRECT) :
    ptrOf bn = some (.addr ⟨bn, Nat.lt_succ_of_lt h⟩) := dif_pos h

theorem ptrOf_indirect (h : ¬ bn < NDIRECT) (h' : bn - NDIRECT < NINDIRECT) :
    ptrOf bn = some (.entry ⟨bn - NDIRECT, h'⟩) := by
  rw [ptrOf, dif_neg h, dif_pos h']

theorem fileBlock_of_ptrOf {disk : Disk} {p : Ptr} (h : ptrOf bn = some p) :
    fileBlock disk d bn = ptr disk d p := by
  rw [fileBlock, h]
  rfl

/-- What a file has at a place depends on its addresses and its indirect block. -/
theorem ptr_congr {disk : Disk} (haddrs : d'.addrs = d.addrs)
    (hind : d.ind ≠ 0 → disk' (d.ind) = disk (d.ind)) (p : Ptr) :
    ptr disk' d' p = ptr disk d p := by
  cases p <;> grind [ptr, Dinode.ind]

theorem fileBlock_congr {disk : Disk} (haddrs : d'.addrs = d.addrs)
    (hind : d.ind ≠ 0 → disk' d.ind = disk d.ind) (bn : Nat) :
    fileBlock disk' d' bn = fileBlock disk d bn := by
  unfold fileBlock
  cases ptrOf bn with
  | none => rfl
  | some p => exact ptr_congr haddrs hind p

/-- One address changes, and the entries of the indirect block do not. -/
theorem fileBlock_of_addr {disk : Disk} {k : Fin (NDIRECT + 1)}
    (haddrs : d'.addrs = Function.update d.addrs k b)
    (hentries : ∀ e, ptr disk' d' (.entry e) = ptr disk d (.entry e))
    (hbn : ptrOf bn ≠ some (.addr k)) : fileBlock disk' d' bn = fileBlock disk d bn := by
  have hat := congrFun haddrs
  unfold fileBlock
  cases hp : ptrOf bn with
  | none => rfl
  | some p => cases p <;> grind [ptr]

/-- One entry of the indirect block changes. -/
theorem fileBlock_of_entry {disk : Disk} {e : Fin NINDIRECT}
    (hentries : ∀ e', e' ≠ e → ptr disk' d (.entry e') = ptr disk d (.entry e'))
    (hbn : ptrOf bn ≠ some (.entry e)) : fileBlock disk' d bn = fileBlock disk d bn := by
  unfold fileBlock
  cases hp : ptrOf bn with
  | none => rfl
  | some p => cases p <;> grind [ptr]

@[simp] theorem fileBlock_withSize (disk : Disk) (d : Dinode) (n bn : Nat) :
    fileBlock disk (d.withSize n) bn = fileBlock disk d bn :=
  fileBlock_congr rfl (fun _ => rfl) bn

@[simp] theorem byteAt_withSize (disk : Disk) (d : Dinode) (n off : Nat) :
    byteAt disk (d.withSize n) off = byteAt disk d off := by
  unfold byteAt
  rw [fileBlock_withSize]

/-! ### The invariant -/

variable {sb : Superblock} {disk : Disk} {node : Nat → Dinode}

/-- Inode `i` is allocated. -/
def Live (sb : Superblock) (node : Nat → Dinode) (i : Nat) : Prop :=
  1 ≤ i ∧ i < sb.ninodes ∧ (node i).type ≠ 0

instance (sb : Superblock) (node : Nat → Dinode) (i : Nat) : Decidable (Live sb node i) :=
  inferInstanceAs (Decidable (_ ∧ _))

/-- The block numbers in all places of all allocated inodes. -/
def refs (sb : Superblock) (disk : Disk) (node : Nat → Dinode) (q : Nat × Ptr) : Nat :=
  if Live sb node q.1 then ptr disk (node q.1) q.2 else 0

structure AllocInv (sb : Superblock) (disk : Disk) (node : Nat → Dinode) : Prop where
  map : Allocated (nmeta sb) sb.size (mapBit sb disk) (refs sb disk node)
  full : ∀ i, Live sb node i → ∀ bn, bn * BSIZE < (node i).size →
    fileBlock disk (node i) bn ≠ 0
  size_le : ∀ i, Live sb node i → (node i).size ≤ MAXFILE * BSIZE

theorem refs_of_live {i : Nat} (hi : Live sb node i) (p : Ptr) :
    refs sb disk node (i, p) = ptr disk (node i) p := if_pos hi

theorem refs_of_not_live {i : Nat} (hi : ¬ Live sb node i) (p : Ptr) :
    refs sb disk node (i, p) = 0 := if_neg hi

theorem live_update_self {i : Nat} :
    Live sb (Function.update node i d) i ↔ 1 ≤ i ∧ i < sb.ninodes ∧ d.type ≠ 0 := by
  unfold Live
  rw [update_self]

theorem live_update_of_ne {i : Nat} (h : j ≠ i) :
    Live sb (Function.update node i d) j ↔ Live sb node j := by
  unfold Live
  rw [update_of_ne h]

theorem live_of_refs {q : Nat × Ptr} (hq : refs sb disk node q ≠ 0) : Live sb node q.1 := by
  by_contra hnot
  exact hq (if_neg hnot)

section

variable (h : AllocInv sb disk node)
include h

theorem AllocInv.ptr_range {i : Nat} (hi : Live sb node i) {p : Ptr}
    (hp : ptr disk (node i) p ≠ 0) :
    nmeta sb ≤ ptr disk (node i) p ∧
      ptr disk (node i) p < sb.size := by
  have hrange := h.map.range (i, p)
  rw [refs_of_live hi] at hrange
  exact hrange hp

/-- Two places that refer to the same block are the same. -/
theorem AllocInv.ptr_inj {i : Nat} (hi : Live sb node i) (hj : Live sb node j) {p q : Ptr}
    (hp : ptr disk (node i) p ≠ 0) (heq : ptr disk (node i) p = ptr disk (node j) q) :
    i = j ∧ p = q := by
  have hinj := h.map.inj (i, p) (j, q)
  rw [refs_of_live hi, refs_of_live hj] at hinj
  exact Prod.ext_iff.mp (hinj hp heq)

theorem AllocInv.ind_range {i : Nat} (hi : Live sb node i) (hne : (node i).ind ≠ 0) :
    nmeta sb ≤ (node i).ind ∧ (node i).ind < sb.size :=
  h.ptr_range hi (p := .addr (Fin.last NDIRECT)) hne

/-- A free block is not the block of any place. -/
theorem AllocInv.free_ne (hb : b < sb.size) (hfree : mapBit sb disk b = false) {i : Nat}
    (hi : Live sb node i) {p : Ptr} (hp : ptr disk (node i) p ≠ 0) : ptr disk (node i) p ≠ b := by
  have hne := (h.map.of_unused hb hfree).2 (i, p)
  rw [refs_of_live hi] at hne
  exact hne hp

/-- Only the table and the disk of allocated inodes matter. -/
theorem AllocInv.congr {node' : Nat → Dinode}
    (hmap : ∀ b, b < sb.size → mapBit sb disk' b = mapBit sb disk b)
    (hlive : ∀ i, Live sb node' i ↔ Live sb node i)
    (hptr : ∀ i, Live sb node i → ∀ p, ptr disk' (node' i) p = ptr disk (node i) p)
    (hsize : ∀ i, Live sb node i → (node' i).size = (node i).size) : AllocInv sb disk' node' := by
  have href : ∀ q, refs sb disk' node' q = refs sb disk node q := by
    grind [refs]
  have hblock : ∀ i, Live sb node i → ∀ bn,
      fileBlock disk' (node' i) bn = fileBlock disk (node i) bn := by
    intro i hi bn
    cases hp : ptrOf bn <;> grind [fileBlock]
  obtain ⟨hold, hfull, hsize_le⟩ := h
  refine ⟨hold.congr hmap href, ?_, ?_⟩ <;> grind

end

/-! ### A block is added -/

/-- What `balloc` does to the disk: the free block `b` is marked and zeroed. -/
structure BlockTaken (sb : Superblock) (disk disk' : Disk) (b : Nat) : Prop where
  lt : b < sb.size
  free : mapBit sb disk b = false
  map : ∀ c, c < sb.size → mapBit sb disk' c = Function.update (mapBit sb disk) b true c
  zero : disk' b = fun _ => 0
  other : ∀ a, nmeta sb ≤ a → a ≠ b → disk' a = disk a
  dinode : ∀ i, i < sb.ninodes → dinodeOf sb disk' i = dinodeOf sb disk i

/-- A free block is put into the empty place `p` of inode `i`, and all other places are as they
were. -/
theorem AllocInv.alloc (h : AllocInv sb disk node) {node' : Nat → Dinode} {i : Nat} {p : Ptr}
    (hi : Live sb node i) (hb : b < sb.size) (hfree : mapBit sb disk b = false)
    (hp : ptr disk (node i) p = 0)
    (hmap : ∀ c, c < sb.size → mapBit sb disk' c = Function.update (mapBit sb disk) b true c)
    (hlive : ∀ j, Live sb node' j ↔ Live sb node j) (hnew : ptr disk' (node' i) p = b)
    (hold : ∀ j, Live sb node j → ∀ q, (j, q) ≠ (i, p) →
      ptr disk' (node' j) q = ptr disk (node j) q)
    (hsize : ∀ j, Live sb node j → (node' j).size = (node j).size) : AllocInv sb disk' node' := by
  have hpos : 0 < nmeta sb := Nat.succ_pos _
  have href : ∀ q, refs sb disk' node' q = Function.update (refs sb disk node) (i, p) b q := by
    grind [refs]
  refine ⟨(h.map.alloc hpos hb hfree ?_).congr hmap href, fun j hj bn hbn => ?_, fun j hj => ?_⟩
  · rw [refs_of_live hi, hp]
  · -- a block that was there is still there
    have hblock := h.full j ((hlive j).mp hj) bn
    cases hptr : ptrOf bn <;> grind [fileBlock]
  · have := h.size_le j
    grind

/-- Inode `i` may have more blocks than before; all places that had a block have the same one, and
the data blocks hold what they held. -/
structure Grown (sb : Superblock) (i : Nat) (disk : Disk) (node : Nat → Dinode) (disk' : Disk)
    (node' : Nat → Dinode) : Prop where
  addrs : ∃ as, node' = Function.update node i ((node i).withAddrs as)
  places : ∀ j, Live sb node j → ∀ p, ptr disk (node j) p ≠ 0 →
    ptr disk' (node' j) p = ptr disk (node j) p
  data : ∀ j, Live sb node j → ∀ p, p ≠ .addr (Fin.last NDIRECT) → ptr disk (node j) p ≠ 0 →
    disk' (ptr disk (node j) p) = disk (ptr disk (node j) p)
  others : ∀ j, Live sb node j → j ≠ i → ∀ p, ptr disk' (node' j) p = ptr disk (node j) p

theorem Grown.refl (sb : Superblock) (i : Nat) (disk : Disk) (node : Nat → Dinode) :
    Grown sb i disk node disk node where
  addrs := ⟨(node i).addrs, (update_eq_self i node).symm⟩
  places _ _ _ _ := rfl
  data _ _ _ _ _ := rfl
  others _ _ _ _ := rfl

section

variable {disk₁ disk₂ : Disk} {node₁ node₂ : Nat → Dinode} {i : Nat}

theorem live_update_addrs {as : Fin (NDIRECT + 1) → Nat} (j : Nat) :
    Live sb (Function.update node i ((node i).withAddrs as)) j ↔ Live sb node j := by
  by_cases hji : j = i
  · rw [hji, live_update_self]
    rfl
  · exact live_update_of_ne hji

section

variable (h : Grown sb i disk node disk₁ node₁)
include h

theorem Grown.live (j : Nat) : Live sb node₁ j ↔ Live sb node j := by
  obtain ⟨as, rfl⟩ := h.addrs
  exact live_update_addrs j

/-- Two additions of blocks to one inode. -/
theorem Grown.trans (h' : Grown sb i disk₁ node₁ disk₂ node₂) :
    Grown sb i disk node disk₂ node₂ := by
  refine ⟨?_, fun j hj p hp => ?_, fun j hj p hne hp => ?_, fun j hj hji p => ?_⟩
  · obtain ⟨as, rfl⟩ := h.addrs
    obtain ⟨as', rfl⟩ := h'.addrs
    refine ⟨as', ?_⟩
    rw [update_self, update_idem]
    rfl
  · have hp₁ := h.places j hj p hp
    rw [h'.places j ((h.live j).mpr hj) p (hp₁ ▸ hp), hp₁]
  · have hp₁ := h.places j hj p hp
    have hdata := h'.data j ((h.live j).mpr hj) p hne (hp₁ ▸ hp)
    rw [hp₁] at hdata
    rw [hdata, h.data j hj p hne hp]
  · rw [h'.others j ((h.live j).mpr hj) hji p, h.others j hj hji p]

theorem Grown.fileBlock_eq (hj : Live sb node j) (hbn : fileBlock disk (node j) bn ≠ 0) :
    fileBlock disk₁ (node₁ j) bn = fileBlock disk (node j) bn := by
  unfold fileBlock at hbn ⊢
  cases hptr : ptrOf bn with
  | none => rfl
  | some p =>
    rw [hptr] at hbn
    exact h.places j hj p hbn

/-- Bytes that are there stay as they are. -/
theorem Grown.byteAt_eq {off : Nat} (hj : Live sb node j)
    (hoff : fileBlock disk (node j) (off / BSIZE) ≠ 0) :
    byteAt disk₁ (node₁ j) off = byteAt disk (node j) off := by
  unfold byteAt
  rw [h.fileBlock_eq hj hoff]
  unfold fileBlock at hoff ⊢
  cases hptr : ptrOf (off / BSIZE) with
  | none =>
    rw [hptr] at hoff
    exact absurd rfl hoff
  | some p =>
    rw [hptr] at hoff
    exact congrFun (h.data j hj p (ptrOf_ne_ind hptr) hoff) _

end

end

section

variable (h : AllocInv sb disk node) (ht : BlockTaken sb disk disk' b)
include h ht

/-- The blocks in use are not touched when a free block is taken. -/
theorem AllocInv.taken_ptr (hj : Live sb node j) {p : Ptr} (hp : ptr disk (node j) p ≠ 0) :
    disk' (ptr disk (node j) p) = disk (ptr disk (node j) p) :=
  ht.other _ (h.ptr_range hj hp).1 (h.free_ne ht.lt ht.free hj hp)

theorem AllocInv.taken_ind (hj : Live sb node j) (hne : (node j).ind ≠ 0) :
    disk' ((node j).ind) = disk ((node j).ind) :=
  h.taken_ptr ht hj (p := .addr (Fin.last NDIRECT)) hne

theorem AllocInv.taken_pos : nmeta sb ≤ b := (h.map.of_unused ht.lt ht.free).1

/-- The block becomes an address of the inode. -/
theorem AllocInv.alloc_addr {i : Nat} (hi : Live sb node i) {k : Fin (NDIRECT + 1)}
    (hk : (node i).addrs k = 0) : AllocInv sb disk' (Function.update node i
      ((node i).withAddrs (Function.update (node i).addrs k b))) ∧
    Grown sb i disk node disk' (Function.update node i
      ((node i).withAddrs (Function.update (node i).addrs k b))) ∧
    ∀ e, ptr disk' ((node i).withAddrs (Function.update (node i).addrs k b)) (.entry e)
      = ptr disk (node i) (.entry e) := by
  set d' : Dinode := ((node i).withAddrs (Function.update (node i).addrs k b)) with hd'
  have hlive : ∀ j, Live sb (Function.update node i d') j ↔ Live sb node j := live_update_addrs
  have hnew : ptr disk' (Function.update node i d' i) (.addr k) = b := by
    rw [update_self, ptr_addr, hd']
    exact update_self ..
  have hold : ∀ j, Live sb node j → ∀ q, (j, q) ≠ (i, .addr k) →
      ptr disk' (Function.update node i d' j) q = ptr disk (node j) q := by
    intro j hj q hne
    by_cases hji : j = i
    · subst hji
      rw [update_self]
      cases q with
      | addr k' =>
        have hk' : k' ≠ k := fun heq => hne (by rw [heq])
        exact update_of_ne hk' _ _
      | entry e =>
        rw [ptr_entry, ptr_entry]
        by_cases hlast : Fin.last NDIRECT = k
        · -- the new indirect block is empty
          subst hlast
          have hind : d'.ind = b := by simp [hd', Dinode.ind, Dinode.withAddrs]
          have hind' : (node j).ind = 0 := hk
          rw [hind, ht.zero, if_pos hind']
          split
          · rfl
          · exact getLE_zero _ _
        · have hind : d'.ind = (node j).ind := update_of_ne hlast _ _
          rw [hind]
          split
          · rfl
          · rename_i hne
            rw [h.taken_ind ht hi hne]
    · rw [update_of_ne hji]
      exact ptr_congr rfl (h.taken_ind ht hj) q
  refine ⟨h.alloc (p := .addr k) hi ht.lt ht.free hk ht.map hlive hnew hold fun j hj => ?_,
    ⟨⟨_, rfl⟩, fun j hj p hp => hold j hj p ?_, fun j hj p _ hp => h.taken_ptr ht hj hp,
      fun j hj hji p => hold j hj p fun heq => hji (Prod.ext_iff.mp heq).1⟩,
    fun e => ?_⟩
  · by_cases hji : j = i
    · rw [hji, update_self]
      rfl
    · rw [update_of_ne hji]
  · rintro ⟨rfl, rfl⟩
    exact hp hk
  · have hentry := hold i hi (.entry e) (by simp)
    rwa [update_self] at hentry

end

/-- The block becomes an entry of the indirect block. -/
theorem AllocInv.alloc_entry (hl : Layout sb) (h : AllocInv sb disk node) {i : Nat}
    (ht : BlockTaken sb disk disk' b) (hi : Live sb node i) (hind : (node i).ind ≠ 0)
    {e : Fin NINDIRECT} (he : indirectEntry (disk (node i).ind) e = 0) :
    AllocInv sb (Function.update disk' (node i).ind
      (putLE (disk' (node i).ind) (4 * e) 4 b)) node ∧
    Grown sb i disk node (Function.update disk' (node i).ind
      (putLE (disk' (node i).ind) (4 * e) 4 b)) node ∧
    ptr (Function.update disk' (node i).ind (putLE (disk' (node i).ind) (4 * e) 4 b)) (node i)
      (.entry e) = b ∧
    ∀ e', e' ≠ e → ptr (Function.update disk' (node i).ind
        (putLE (disk' (node i).ind) (4 * e) 4 b)) (node i) (.entry e')
      = ptr disk (node i) (.entry e') := by
  set a := (node i).ind with ha
  set disk'' := Function.update disk' a (putLE (disk' a) (4 * e) 4 b) with hdisk
  have hb : b < 2 ^ 32 := Nat.lt_trans ht.lt hl.size_lt
  have hrange := h.ind_range hi hind
  have hptr : ptr disk (node i) (.entry e) = 0 := by
    rw [ptr_entry, ← ha, if_neg hind, he]
  have hnew : ptr disk'' (node i) (.entry e) = b := by
    rw [ptr_entry, ← ha, if_neg hind, hdisk, update_self]
    exact (getLE_putLE_self _ _ _ _).trans (Nat.mod_eq_of_lt hb)
  have hold : ∀ j, Live sb node j → ∀ q, (j, q) ≠ (i, .entry e) →
      ptr disk'' (node j) q = ptr disk (node j) q := by
    intro j hj q hne
    by_cases hji : j = i
    · subst hji
      cases q with
      | addr k => rfl
      | entry e' =>
        have he' : e' ≠ e := fun heq => hne (by rw [heq])
        rw [ptr_entry, ptr_entry, ← ha, if_neg hind, if_neg hind, hdisk, update_self,
          h.taken_ind ht hi hind]
        refine getLE_putLE_of_disjoint ?_
        have := Fin.val_ne_of_ne he'
        omega
    · -- the indirect blocks of other inodes are other blocks
      refine ptr_congr rfl (fun hne => ?_) q
      have hother : (node j).ind ≠ a := fun heq =>
        hji (h.ptr_inj hj hi (p := .addr (Fin.last NDIRECT)) (q := .addr (Fin.last NDIRECT)) hne
          heq).1
      rw [hdisk, update_of_ne hother, h.taken_ind ht hj hne]
  refine ⟨h.alloc hi ht.lt ht.free hptr (fun c hc => ?_) (fun _ => Iff.rfl) hnew hold
    fun _ _ => rfl, ⟨⟨_, (update_eq_self i node).symm⟩,
    fun j hj p hp => hold j hj p ?_, fun j hj p hne hp => ?_,
    fun j hj hji p => hold j hj p fun heq => hji (Prod.ext_iff.mp heq).1⟩, hnew,
    fun e' he' => hold i hi (.entry e') (by simp [he'])⟩
  · rw [hdisk, mapBit_update_data hrange.1 hc, ht.map c hc]
  · rintro ⟨rfl, rfl⟩
    exact hp hptr
  · -- a data block is not the indirect block
    have hother : ptr disk (node j) p ≠ a := fun heq =>
      hne (h.ptr_inj hj hi (q := .addr (Fin.last NDIRECT)) hp heq).2
    rw [hdisk, update_of_ne hother, h.taken_ptr ht hj hp]

/-! ### Other changes -/

section

variable (h : AllocInv sb disk node)
include h

/-- One inode is changed in memory: it has the places that it had. An inode that becomes allocated,
or is freed, has none. -/
theorem AllocInv.set_node {i : Nat} (d : Dinode) (hi : 1 ≤ i) (hi' : i < sb.ninodes)
    (hptr : ∀ p, (if d.type = 0 then 0 else ptr disk d p) = refs sb disk node (i, p))
    (hfull : d.type ≠ 0 → ∀ bn, bn * BSIZE < d.size → fileBlock disk d bn ≠ 0)
    (hsize : d.type ≠ 0 → d.size ≤ MAXFILE * BSIZE) :
    AllocInv sb disk (Function.update node i d) := by
  have hself : Live sb (Function.update node i d) i ↔ d.type ≠ 0 :=
    live_update_self.trans ⟨fun hl => hl.2.2, fun htype => ⟨hi, hi', htype⟩⟩
  have href : ∀ q, refs sb disk (Function.update node i d) q = refs sb disk node q := by
    grind [refs, Live]
  obtain ⟨hmap, hold, hsize_le⟩ := h
  refine ⟨hmap.congr (fun _ _ => rfl) href, ?_, ?_⟩ <;> grind [Live]

/-- The places are the same after a data block is written. -/
theorem AllocInv.ptr_write {i : Nat} (hi : Live sb node i) {p : Ptr}
    (hne : p ≠ .addr (Fin.last NDIRECT)) (x : Block) (hj : Live sb node j) (q : Ptr) :
    ptr (Function.update disk (ptr disk (node i) p) x) (node j) q = ptr disk (node j) q := by
  refine ptr_congr rfl (fun hind => ?_) q
  have hother : (node j).ind ≠ ptr disk (node i) p := fun heq =>
    hne (h.ptr_inj hj hi (p := .addr (Fin.last NDIRECT)) hind heq).2.symm
  exact update_of_ne hother _ _

/-- The bytes of a data block do not matter to the allocation. -/
theorem AllocInv.write {i : Nat} (hi : Live sb node i) {p : Ptr}
    (hne : p ≠ .addr (Fin.last NDIRECT)) (hp : ptr disk (node i) p ≠ 0) (x : Block) :
    AllocInv sb (Function.update disk (ptr disk (node i) p) x) node :=
  h.congr (fun _ hb => mapBit_update_data (h.ptr_range hi hp).1 hb x) (fun _ => Iff.rfl)
    (fun _ hj q => h.ptr_write hi hne x hj q) fun _ _ => rfl

/-- A byte changes only in the block that is written. -/
theorem AllocInv.byteAt_write {i : Nat} (hi : Live sb node i) (hne : fileBlock disk (node i) bn ≠ 0)
    (x : Block) (hj : Live sb node j) {y : Nat} (hy : fileBlock disk (node j) (y / BSIZE) ≠ 0) :
    byteAt (Function.update disk (fileBlock disk (node i) bn) x) (node j) y
      = if j = i ∧ y / BSIZE = bn then x (y % BSIZE) else byteAt disk (node j) y := by
  cases hp : ptrOf bn with
  | none =>
    rw [fileBlock, hp] at hne
    exact absurd rfl hne
  | some p =>
    cases hq : ptrOf (y / BSIZE) with
    | none =>
      rw [fileBlock, hq] at hy
      exact absurd rfl hy
    | some q =>
      rw [fileBlock_of_ptrOf hp] at hne ⊢
      rw [fileBlock_of_ptrOf hq] at hy
      unfold byteAt
      rw [fileBlock_of_ptrOf hq, h.ptr_write hi (ptrOf_ne_ind hp) x hj, fileBlock_of_ptrOf hq]
      by_cases hsame : ptr disk (node j) q = ptr disk (node i) p
      · -- one block has one place
        obtain ⟨rfl, rfl⟩ := h.ptr_inj hj hi hy hsame
        rw [update_self, if_pos ⟨rfl, ptrOf_inj hq hp⟩]
      · rw [update_of_ne hsame, if_neg]
        rintro ⟨rfl, rfl⟩
        rw [hp] at hq
        exact hsame (by rw [Option.some.inj hq])

/-- Nothing but blocks before the data blocks changes: the files stay as they are. -/
theorem AllocInv.fileBlock_of_data (hdata : ∀ a, nmeta sb ≤ a → disk' a = disk a)
    (hj : Live sb node j) (bn : Nat) : fileBlock disk' (node j) bn = fileBlock disk (node j) bn :=
  fileBlock_congr rfl (fun hne => hdata _ (h.ind_range hj hne).1) bn

/-- Nothing but blocks before the data blocks changes: the bytes stay as they are. -/
theorem AllocInv.byteAt_of_data (hdata : ∀ a, nmeta sb ≤ a → disk' a = disk a) {off : Nat}
    (hj : Live sb node j) (hoff : fileBlock disk (node j) (off / BSIZE) ≠ 0) :
    byteAt disk' (node j) off = byteAt disk (node j) off := by
  unfold byteAt
  rw [h.fileBlock_of_data hdata hj]
  unfold fileBlock at hoff ⊢
  cases hptr : ptrOf (off / BSIZE) with
  | none =>
    rw [hptr] at hoff
    exact absurd rfl hoff
  | some p =>
    rw [hptr] at hoff
    exact congrFun (hdata _ (h.ptr_range hj hoff).1) _

end

end Proofs

end Xv6
