import Xv6.Kernel.Fs
import Mathlib.Data.List.OfFn

/-!
# `Xv6.Proofs.Fs.Disk`: what the blocks of a disk hold

A disk is read as a free map (`mapBit`) and a table of inodes (`dinodeOf`); the layout of the
superblock (`Layout`) keeps the two apart from each other and from the data blocks. The lemmas say
what each change of a block does to all of them.
-/

set_option autoImplicit false

namespace Xv6.Proofs

open Lib Fs
open Function (update_of_ne update_self)

variable {a b i : Nat}

/-! ### Layout -/

theorem BSIZE_eq : BSIZE = 1024 := rfl

theorem BPB_eq : BPB = 8192 := rfl

theorem IPB_eq : IPB = 16 := rfl

/-- The first data block. -/
def nmeta (sb : Superblock) : Nat := sb.bmapstart + sb.size / BPB + 1

/-- The layout that `mkfs` computes: boot block, superblock, log, inodes, free map, data. -/
structure Layout (sb : Superblock) : Prop where
  inodestart : sb.inodestart = 2 + sb.nlog
  bmapstart : sb.bmapstart = sb.inodestart + sb.ninodes / IPB + 1
  nblocks : nmeta sb + sb.nblocks = sb.size
  size_lt : sb.size < 2 ^ 32
  ninodes_le : sb.ninodes ≤ 2 ^ 16

variable {sb : Superblock}

theorem Layout.nmeta_pos (h : Layout sb) : 2 < nmeta sb := by
  have := h.inodestart
  have := h.bmapstart
  simp only [nmeta, BPB_eq, IPB_eq] at *
  omega

theorem Layout.iblock_lt (h : Layout sb) (hi : i < sb.ninodes) : IBLOCK i sb < sb.bmapstart := by
  have hdiv : i / IPB ≤ sb.ninodes / IPB := Nat.div_le_div_right (Nat.le_of_lt hi)
  rw [IBLOCK, h.bmapstart]
  omega

theorem Layout.iblock_lt_nmeta (h : Layout sb) (hi : i < sb.ninodes) : IBLOCK i sb < nmeta sb := by
  have := h.iblock_lt hi
  simp only [nmeta, BPB_eq]
  omega

theorem bblock_lt (hb : b < sb.size) : BBLOCK b sb < nmeta sb := by
  have hdiv : b / BPB ≤ sb.size / BPB := Nat.div_le_div_right (Nat.le_of_lt hb)
  unfold BBLOCK nmeta
  omega

theorem bmapstart_le (sb : Superblock) (b : Nat) : sb.bmapstart ≤ BBLOCK b sb := Nat.le_add_left _ _

theorem Layout.iblock_ne_bblock (h : Layout sb) (hi : i < sb.ninodes) (b : Nat) :
    IBLOCK i sb ≠ BBLOCK b sb := by
  have := h.iblock_lt hi
  have := bmapstart_le sb b
  omega

/-! ### The free map -/

/-- The block is marked as used. -/
def mapBit (sb : Superblock) (disk : Disk) (b : Nat) : Bool :=
  testBit (disk (BBLOCK b sb)) (b % BPB)

variable {disk : Disk}

theorem mapBit_update_of_ne {x : Block} (h : a ≠ BBLOCK b sb) :
    mapBit sb (Function.update disk a x) b = mapBit sb disk b := by
  unfold mapBit
  rw [update_of_ne (Ne.symm h)]

/-- Two blocks with the same bit of the same map block are the same. -/
theorem eq_of_bblock_eq {c : Nat} (hblock : BBLOCK b sb = BBLOCK c sb) (hbit : b % BPB = c % BPB) :
    b = c := by
  have hdiv : b / BPB = c / BPB := by
    unfold BBLOCK at hblock
    omega
  rw [← Nat.div_add_mod b BPB, ← Nat.div_add_mod c BPB, hdiv, hbit]

/-- Setting the bit of a block marks this block and no other. -/
theorem mapBit_setBit (b : Nat) :
    mapBit sb (Function.update disk (BBLOCK b sb) (setBit (disk (BBLOCK b sb)) (b % BPB)))
      = Function.update (mapBit sb disk) b true := by
  funext c
  by_cases hcb : c = b
  · subst hcb
    rw [update_self, mapBit, update_self, testBit_setBit_self]
  · rw [update_of_ne hcb]
    by_cases hblock : BBLOCK c sb = BBLOCK b sb
    · have hbit : c % BPB ≠ b % BPB := fun hbit => hcb (eq_of_bblock_eq hblock hbit)
      unfold mapBit
      rw [hblock, update_self, testBit_setBit_of_ne _ hbit]
    · exact mapBit_update_of_ne (Ne.symm hblock)

/-! ### Inodes on disk -/

/-- The inode `i` on disk. -/
def dinodeOf (sb : Superblock) (disk : Disk) (i : Nat) : Dinode :=
  getDinode (disk (IBLOCK i sb)) (dinodeOff i)

/-- The fields fit into their widths. -/
structure FieldsFit (d : Dinode) : Prop where
  type : d.type < 2 ^ 16
  major : d.major < 2 ^ 16
  minor : d.minor < 2 ^ 16
  nlink : d.nlink < 2 ^ 16
  size : d.size < 2 ^ 32
  addrs : ∀ k, d.addrs k < 2 ^ 32

theorem fits_getDinode (buf : Block) (off : Nat) : FieldsFit (getDinode buf off) :=
  ⟨getLE_lt _ _ 2, getLE_lt _ _ 2, getLE_lt _ _ 2, getLE_lt _ _ 2, getLE_lt _ _ 4,
    fun _ => getLE_lt _ _ 4⟩

theorem fits_zero {t : Nat} (ht : t < 2 ^ 16) : FieldsFit { Dinode.zero with type := t } := by
  have hzero : ∀ n, 0 < 2 ^ n := fun n => Nat.two_pow_pos n
  exact ⟨ht, hzero 16, hzero 16, hzero 16, hzero 32, fun _ => hzero 32⟩

theorem fieldsLen_addrs (as : List Nat) :
    fieldsLen (as.map fun a => (4, a)) = 4 * as.length := by
  induction as with
  | nil => rfl
  | cons a as ih =>
    simp only [fieldsLen, List.map_cons, List.sum_cons, List.length_cons] at *
    omega

theorem fieldsLen_append (fs fs' : List (Nat × Nat)) :
    fieldsLen (fs ++ fs') = fieldsLen fs + fieldsLen fs' := by
  simp [fieldsLen]

theorem fieldsLen_fields (d : Dinode) : fieldsLen d.fields = DINODE_SIZE := by
  rw [Dinode.fields, fieldsLen_append, fieldsLen_addrs, List.length_ofFn]
  rfl

/-- The fields up to an address. -/
theorem fields_split (d : Dinode) (k : Fin (NDIRECT + 1)) :
    ∃ fs fs', d.fields = fs ++ (4, d.addrs k) :: fs' ∧ fieldsLen fs = 12 + 4 * k := by
  have hlen : k.val < (List.ofFn d.addrs).length := by
    rw [List.length_ofFn]
    exact k.isLt
  have hsplit : List.ofFn d.addrs
      = (List.ofFn d.addrs).take k ++ d.addrs k :: (List.ofFn d.addrs).drop (k + 1) := by
    have hdrop := List.drop_eq_getElem_cons hlen
    rw [List.getElem_ofFn] at hdrop
    rw [← hdrop, List.take_append_drop]
  refine ⟨[(2, d.type), (2, d.major), (2, d.minor), (2, d.nlink), (4, d.size)] ++
    ((List.ofFn d.addrs).take k).map fun a => (4, a),
    ((List.ofFn d.addrs).drop (k + 1)).map fun a => (4, a), ?_, ?_⟩
  · rw [Dinode.fields, List.append_assoc]
    conv_lhs => rw [hsplit, List.map_append, List.map_cons]
  · rw [fieldsLen_append, fieldsLen_addrs, List.length_take, Nat.min_eq_left (Nat.le_of_lt hlen)]
    rfl

/-- What `iupdate` stores is read back. -/
theorem getDinode_putDinode {d : Dinode} (hd : FieldsFit d) (buf : Block) (off : Nat) :
    getDinode (putDinode buf off d) off = d := by
  have hfield : ∀ fs k v fs', d.fields = fs ++ (k, v) :: fs' → v < 256 ^ k →
      getLE (putDinode buf off d) (off + fieldsLen fs) k = v := by
    intro fs k v fs' hsplit hv
    have hget := getLE_putFields buf off fs k v fs'
    rwa [← hsplit, Nat.mod_eq_of_lt hv] at hget
  have haddr : ∀ k : Fin (NDIRECT + 1),
      getLE (putDinode buf off d) (off + 12 + 4 * k) 4 = d.addrs k := by
    intro k
    obtain ⟨fs, fs', hsplit, hlen⟩ := fields_split d k
    have hget := hfield fs 4 (d.addrs k) fs' hsplit (hd.addrs k)
    rwa [hlen, ← Nat.add_assoc] at hget
  exact Dinode.ext (hfield [] 2 d.type _ rfl hd.type)
    (hfield [(2, d.type)] 2 d.major _ rfl hd.major)
    (hfield [(2, d.type), (2, d.major)] 2 d.minor _ rfl hd.minor)
    (hfield [(2, d.type), (2, d.major), (2, d.minor)] 2 d.nlink _ rfl hd.nlink)
    (hfield [(2, d.type), (2, d.major), (2, d.minor), (2, d.nlink)] 4 d.size _ rfl hd.size)
    (funext haddr)

/-- A store outside an inode leaves it alone. -/
theorem getDinode_congr {buf buf' : Block} {off : Nat}
    (h : ∀ x, off ≤ x → x < off + DINODE_SIZE → buf x = buf' x) :
    getDinode buf off = getDinode buf' off := by
  have hfield : ∀ o k, o + k ≤ DINODE_SIZE → getLE buf (off + o) k = getLE buf' (off + o) k :=
    fun o k hk => getLE_congr fun x hx hx' => h x (by omega) (by omega)
  refine Dinode.ext (hfield 0 2 (by decide)) (hfield 2 2 (by decide)) (hfield 4 2 (by decide))
    (hfield 6 2 (by decide)) (hfield 8 4 (by decide)) (funext fun k => ?_)
  have hk := k.isLt
  have haddr := hfield (12 + 4 * k) 4 (by simp only [DINODE_SIZE, NDIRECT] at *; omega)
  rwa [← Nat.add_assoc] at haddr

theorem dinodeOf_update_of_ne {x : Block} (h : a ≠ IBLOCK i sb) :
    dinodeOf sb (Function.update disk a x) i = dinodeOf sb disk i := by
  unfold dinodeOf
  rw [update_of_ne (Ne.symm h)]

/-- Inodes in one block do not overlap. -/
theorem dinodeOff_disjoint {j : Nat} (hij : j ≠ i) (hblock : IBLOCK j sb = IBLOCK i sb) :
    dinodeOff j + DINODE_SIZE ≤ dinodeOff i ∨ dinodeOff i + DINODE_SIZE ≤ dinodeOff j := by
  unfold IBLOCK at hblock
  simp only [dinodeOff, DINODE_SIZE, IPB, BSIZE] at *
  omega

/-- Storing an inode changes this inode and no other. -/
theorem dinodeOf_putDinode {d : Dinode} (hd : FieldsFit d) (i : Nat) :
    dinodeOf sb (Function.update disk (IBLOCK i sb)
        (putDinode (disk (IBLOCK i sb)) (dinodeOff i) d))
      = Function.update (dinodeOf sb disk) i d := by
  funext j
  by_cases hji : j = i
  · subst hji
    rw [update_self, dinodeOf, update_self, getDinode_putDinode hd]
  · rw [update_of_ne hji]
    by_cases hblock : IBLOCK j sb = IBLOCK i sb
    · unfold dinodeOf
      rw [hblock, update_self]
      refine getDinode_congr fun x hx hx' => putFields_apply_of_not_mem ?_
      have := dinodeOff_disjoint hji hblock
      rw [fieldsLen_fields]
      omega
    · exact dinodeOf_update_of_ne (Ne.symm hblock)

/-! ### Changes of a block -/

/-- A data block is changed. -/
theorem mapBit_update_data (ha : nmeta sb ≤ a) (hb : b < sb.size) (x : Block) :
    mapBit sb (Function.update disk a x) b = mapBit sb disk b :=
  mapBit_update_of_ne (by have := bblock_lt hb; omega)

theorem dinodeOf_update_data (h : Layout sb) (ha : nmeta sb ≤ a) (hi : i < sb.ninodes) (x : Block) :
    dinodeOf sb (Function.update disk a x) i = dinodeOf sb disk i :=
  dinodeOf_update_of_ne (by have := h.iblock_lt_nmeta hi; omega)

end Xv6.Proofs
