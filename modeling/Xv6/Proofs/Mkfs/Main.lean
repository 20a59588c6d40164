import Mathlib.Algebra.BigOperators.Group.Finset.Piecewise
import Mathlib.Algebra.Order.BigOperators.Group.Finset
import Xv6.Proofs.Mkfs.Append

/-!
# `Xv6.Proofs.Mkfs.Main`: the image that `mkfs` writes

`Made m n C`: the inodes below `n` hold the bytes `C`. Every call of `main` keeps it, with more
inodes or more bytes, and `main` ends before its last line exactly if an input file cannot be read,
has a slash in its name, or does not fit (`main_spec`).
-/

set_option autoImplicit false

namespace Xv6.Proofs.Mkfs

open Lib Xv6.Mkfs List
open Function (update update_eq_self update_idem update_of_ne update_self)

variable {m m' : DiskImage} {node : Nat → Dinode} {i n : Nat} {C : Nat → List UInt8}

variable {d : Dinode} {files : List Input}

/-! ### Writing an inode -/

/-- The image after `winode`. -/
def setNode (m : DiskImage) (i : Nat) (d : Dinode) : DiskImage :=
  put m (IBLOCK i sb) (putDinode (m.disk (IBLOCK i sb)) (dinodeOff i) d)

theorem iblock_lt (hi : i < 207) : IBLOCK i sb < 45 := wide_layout.iblock_lt hi

theorem wp_winode {Q : Unit → DiskImage → Prop} {E : Exit → Prop} (hnsect : m.nsect = FSSIZE)
    (hi : i < 207) (h : Q () (setNode m i d)) : wp (winode i d) Q E m := by
  have hlt := iblock_lt hi
  have hsize : FSSIZE = 1000 := rfl
  unfold winode
  rw [wp_bind]
  refine wp_rsect (by omega) (fun _ => ?_) fun hout => absurd hout (by omega)
  exact wp_wsect (by omega) (by omega) h

theorem wp_rinode {Q : Dinode → DiskImage → Prop} {E : Exit → Prop} (hnsect : m.nsect = FSSIZE)
    (hi : i < 207) (h : Q (dinodeOf wide m.disk i) m) : wp (rinode i) Q E m := by
  have hlt := iblock_lt hi
  have hsize : FSSIZE = 1000 := rfl
  unfold rinode
  rw [wp_bind]
  exact wp_rsect (by omega) (fun _ => h) fun hout => absurd hout (by omega)

theorem dinodeOf_setNode (hd : FieldsFit d) :
    dinodeOf wide (setNode m i d).disk = update (dinodeOf wide m.disk) i d :=
  dinodeOf_putDinode hd i

theorem marked_setNode (hi : i < 207) {a : Nat} (ha : 46 ≤ a) :
    marked (setNode m i d) a = marked m a := by
  have hlt := iblock_lt hi
  rw [marked_of_ne _ (Nat.ne_of_gt ha), marked_of_ne _ (Nat.ne_of_gt ha)]
  exact update_of_ne (by omega) _ _

/-- An inode with the same places is written. -/
theorem Work.setNode (h : Work m node) (hi : i < 207) {node' : Nat → Dinode}
    (halloc : AllocInv wide (marked m) node') : Work (setNode m i d) node' where
  toSound := by
    have hlt := iblock_lt hi
    have hle := h.nmeta_le
    exact h.toSound.put (by omega) _
  alloc := by
    refine halloc.congr (fun b hb => ?_) (fun _ => Iff.rfl) (fun j hj p => ?_) fun _ _ => rfl
    · rw [mapBit_marked _ hb, mapBit_marked _ hb]
      rfl
    · refine ptr_congr rfl (fun hne => marked_setNode hi ?_) p
      rw [← nmeta_wide]
      exact (halloc.ind_range hj hne).1

/-- Only the inodes of the layout matter. -/
theorem Work.congr (h : Work m node) {node' : Nat → Dinode}
    (hnode : ∀ j, j < 207 → node' j = node j) : Work m node' where
  toSound := h.toSound
  alloc := by
    refine h.alloc.congr (fun _ _ => rfl) (fun j => ?_) (fun j hj p => ?_) fun j hj => ?_
    · unfold Live
      constructor
      · rintro ⟨hpos, hlt, htype⟩
        exact ⟨hpos, hlt, hnode j hlt ▸ htype⟩
      · rintro ⟨hpos, hlt, htype⟩
        exact ⟨hpos, hlt, (hnode j hlt).symm ▸ htype⟩
    · rw [hnode j hj.2.1]
    · rw [hnode j hj.2.1]

/-- Writing an inode to the image does not change the bytes of a file. -/
theorem Holds.of_setNode {d₀ d' : Dinode} {c : List UInt8} (h : Holds (marked m) d c)
    (hc : c.length ≤ MAXFILE * BSIZE) (hi : i < 207) (hd' : d'.addrs = d.addrs)
    (hrange : ∀ p, ptr (marked m) d p ≠ 0 → 46 ≤ ptr (marked m) d p) :
    Holds (marked (setNode m i d₀)) d' c := by
  have hind : d'.ind = d.ind := by
    unfold Dinode.ind
    rw [hd']
  have hblocks : ∀ bn, fileBlock (marked (setNode m i d₀)) d' bn = fileBlock (marked m) d bn :=
    fun bn => fileBlock_congr hd'
      (fun hne => marked_setNode hi (hrange (.addr (Fin.last NDIRECT)) hne)) bn
  refine h.congr hc hblocks hind fun y hy => ?_
  unfold byteAt
  rw [hblocks]
  cases hp : ptrOf (y / BSIZE) with
  | none =>
    rw [fileBlock, hp] at hy
    exact absurd rfl hy
  | some p =>
    rw [fileBlock_of_ptrOf hp] at hy ⊢
    rw [marked_setNode hi (hrange p hy)]

/-! ### The inodes made so far -/

/-- The blocks of all inodes below `n`. -/
def total (n : Nat) (C : Nat → List UInt8) : Nat := ∑ i ∈ Finset.range n, blocksFor (C i).length

/-- The number of blocks in use when one file changes its length. -/
theorem total_update (hi : i < n) (c : List UInt8) :
    total n (update C i c) + blocksFor (C i).length = total n C + blocksFor c.length := by
  have hmem : i ∈ Finset.range n := Finset.mem_range.mpr hi
  have hupdate : (fun j => blocksFor (update C i c j).length)
      = update (fun j => blocksFor (C j).length) i (blocksFor c.length) := by
    funext j
    by_cases hji : j = i
    · rw [hji, update_self, update_self]
    · rw [update_of_ne hji, update_of_ne hji]
  unfold total
  rw [hupdate, Finset.sum_update_of_mem hmem, Finset.sdiff_singleton_eq_erase]
  have hsum := Finset.add_sum_erase (Finset.range n) (fun j => blocksFor (C j).length) hmem
  omega

/-- The bytes `C` fit into inodes and into the image. -/
def Room (n : Nat) (C : Nat → List UInt8) : Prop :=
  (∀ j, j < n → (C j).length ≤ MAXFILE * BSIZE) ∧ 46 + total n C ≤ FSSIZE

/-- Shorter files need less room. -/
theorem Room.mono {n' : Nat} {C' : Nat → List UInt8} (h : Room n' C') (hn : n ≤ n')
    (hC : ∀ j, j < n → (C j).length ≤ (C' j).length) : Room n C := by
  refine ⟨fun j hj => (hC j hj).trans (h.1 j (by omega)), ?_⟩
  refine Nat.le_trans (Nat.add_le_add_left ?_ 46) h.2
  refine (Finset.sum_le_sum fun j hj => blocksFor_mono (hC j (Finset.mem_range.mp hj))).trans ?_
  exact Finset.sum_le_sum_of_subset (Finset.range_subset_range.mpr hn)

structure Made (m : DiskImage) (n : Nat) (C : Nat → List UInt8) : Prop where
  work : Work m (dinodeOf wide m.disk)
  freeinode : m.freeinode = n
  pos : 1 ≤ n
  le : n ≤ 207
  unused : ∀ i, i < 207 → i = 0 ∨ n ≤ i → dinodeOf wide m.disk i = Dinode.zero
  type : ∀ i, 1 ≤ i → i < n → (dinodeOf wide m.disk i).type = if i = 1 then T_DIR else T_FILE
  nlink : ∀ i, 1 ≤ i → i < n → (dinodeOf wide m.disk i).nlink = 1
  size : ∀ i, 1 ≤ i → i < n → (dinodeOf wide m.disk i).size = (C i).length
  holds : ∀ i, 1 ≤ i → i < n → Holds (marked m) (dinodeOf wide m.disk i) (C i)
  room : Room n C
  count : m.freeblock = 46 + total n C

theorem Made.live (h : Made m n C) (hi : 1 ≤ i) (hn : i < n) :
    Live wide (dinodeOf wide m.disk) i := by
  refine ⟨hi, Nat.lt_of_lt_of_le hn h.le, ?_⟩
  rw [h.type i hi hn]
  split <;> decide

/-- The blocks of an inode are behind the free map. -/
theorem Made.range (h : Made m n C) (hi : 1 ≤ i) (hn : i < n) (p : Ptr)
    (hp : ptr (marked m) (dinodeOf wide m.disk i) p ≠ 0) :
    46 ≤ ptr (marked m) (dinodeOf wide m.disk i) p := by
  rw [← nmeta_wide]
  exact (h.work.alloc.ptr_range (h.live hi hn) hp).1

/-! ### `ialloc` -/

/-- `ialloc` makes the next inode, with no bytes. -/
theorem ialloc_spec (h : Made m n C) (hn : n < 207) (hC : C n = []) {type : Nat}
    (htype : type = if n = 1 then T_DIR else T_FILE) :
    wp (ialloc type) (fun r m' => r = n ∧ Made m' (n + 1) C) (fun _ => False) m := by
  set d : Dinode := { Dinode.zero with type := type, nlink := 1 } with hd
  have hfits : FieldsFit d := by
    have hlt : type < 2 ^ 16 := by
      rw [htype]
      split <;> decide
    have hzero : ∀ k, 0 < 2 ^ k := Nat.two_pow_pos
    exact ⟨hlt, hzero 16, hzero 16, show 1 < 2 ^ 16 by decide, hzero 32, fun _ => hzero 32⟩
  have hne : type ≠ 0 := by
    rw [htype]
    split <;> decide
  unfold ialloc
  rw [wp_bind, wp_get, wp_bind, wp_set, wp_bind, h.freeinode]
  set m₁ : DiskImage := { m with freeinode := n + 1 } with hm₁
  refine wp_winode (m := m₁) h.work.nsect hn ?_
  rw [wp_pure]
  have hdinode : dinodeOf wide (setNode m₁ n d).disk
      = update (dinodeOf wide m.disk) n d := dinodeOf_setNode (m := m₁) hfits
  have hwork₁ : Work m₁ (dinodeOf wide m.disk) :=
    ⟨⟨h.work.nsect, h.work.free, h.work.fresh, h.work.written⟩, h.work.alloc⟩
  have hnil : Holds (marked m₁) d [] := Holds.nil _ rfl
  -- the new inode has no blocks
  have halloc : AllocInv wide (marked m₁) (update (dinodeOf wide m.disk) n d) := by
    refine hwork₁.alloc.set_node d h.pos hn (fun p => ?_) (fun _ bn hbn => ?_)
      fun _ => Nat.zero_le _
    · have hdead : ¬ Live wide (dinodeOf wide m.disk) n := by
        rintro ⟨-, -, hlive⟩
        rw [h.unused n hn (.inr (Nat.le_refl n))] at hlive
        exact hlive rfl
      rw [refs_of_not_live hdead, if_neg hne]
      cases p with
      | addr k => rfl
      | entry e =>
        have hind : d.ind = 0 := rfl
        rw [ptr_entry, if_pos hind]
    · exact absurd hbn (Nat.not_lt_zero _)
  have hother : ∀ j, j ≠ n → dinodeOf wide (setNode m₁ n d).disk j = dinodeOf wide m.disk j := by
    intro j hj
    rw [hdinode, update_of_ne hj]
  have hself : dinodeOf wide (setNode m₁ n d).disk n = d := by
    rw [hdinode, update_self]
  have hpos := h.pos
  refine ⟨rfl, ?_, rfl, by omega, hn, fun j hj hout => ?_, fun j hj hlt => ?_, fun j hj hlt => ?_,
    fun j hj hlt => ?_, fun j hj hlt => ?_, ⟨fun j hj => ?_, ?_⟩, ?_⟩
  · rw [hdinode]
    exact hwork₁.setNode hn halloc
  · rw [hother j (by omega)]
    exact h.unused j hj (by omega)
  · grind [h.type j hj]
  · grind [h.nlink j hj]
  · grind [h.size j hj, Dinode.zero]
  · by_cases hjn : j = n
    · rw [hjn, hself, hC]
      exact Holds.nil _ rfl
    · rw [hother j hjn]
      have hlt' : j < n := by omega
      exact (h.holds j hj hlt').of_setNode (m := m₁) (h.room.1 j hlt') hn rfl (h.range hj hlt')
  · by_cases hjn : j = n
    · rw [hjn, hC]
      exact Nat.zero_le _
    · exact h.room.1 j (by omega)
  · rw [total, Finset.sum_range_succ, hC]
    exact h.room.2
  · rw [total, Finset.sum_range_succ, hC]
    exact h.count

/-! ### `iappend` -/

/-- `iappend` adds bytes to an inode, or the image has no room for them. -/
theorem iappend_spec (h : Made m n C) (hi : 1 ≤ i) (hn : i < n) (p : List UInt8) :
    wp (iappend i p) (fun _ m' => Made m' n (update C i (C i ++ p)))
      (fun _ => ¬ Room n (update C i (C i ++ p))) m := by
  have hi' : i < 207 := Nat.lt_of_lt_of_le hn h.le
  have htotal := total_update (C := C) hn (C i ++ p)
  have hcount := h.count
  rw [length_append] at htotal
  unfold iappend
  rw [wp_bind]
  refine wp_rinode h.work.nsect hi' ?_
  rw [wp_bind, h.size i hi hn]
  refine wp_mono (iappendLoop_spec p.length m (dinodeOf wide m.disk) (C i) p (Nat.le_refl _) h.work
    (h.live hi hn) (h.holds i hi hn) (h.room.1 i hn)) ?_ fun e he hroom => he ?_
  swap
  · obtain ⟨hlen, hblocks⟩ := hroom
    have hlen := hlen i hn
    rw [update_self, length_append] at hlen
    exact ⟨hlen, by omega⟩
  rintro ⟨din, off⟩ m₁ ⟨hoff, hmax, happ⟩
  dsimp only at hoff ⊢
  obtain ⟨as, rfl⟩ := happ.addrs
  set node := dinodeOf wide m.disk with hnode
  set d := (node i).withAddrs as with hd
  have hlive := happ.live (h.live hi hn)
  have hself : update node i d i = d := update_self ..
  -- the inode fits into its fields
  have hsize : MAXFILE * BSIZE < 2 ^ 32 := by decide
  have hfits₀ : FieldsFit (node i) := fits_getDinode _ _
  have hfits : FieldsFit { d with size := off } := by
    refine ⟨hfits₀.type, hfits₀.major, hfits₀.minor, hfits₀.nlink, ?_, fun k => ?_⟩
    · show off < 2 ^ 32
      omega
    · show d.addrs k < 2 ^ 32
      by_cases hzero : d.addrs k = 0
      · rw [hzero]
        decide
      · have hrange := (happ.work.alloc.ptr_range hlive (p := .addr k)
          (by rw [hself]; exact hzero)).2
        rw [hself] at hrange
        have hrange : d.addrs k < 1000 := hrange
        omega
  refine wp_winode happ.work.nsect hi' ?_
  have hkept : ∀ j, j < 207 → j ≠ i →
      dinodeOf wide (setNode m₁ i { d with size := off }).disk j = node j := by
    intro j hj hji
    rw [dinodeOf_setNode hfits, update_of_ne hji]
    exact happ.kept.dinode j hj
  have hself' : dinodeOf wide (setNode m₁ i { d with size := off }).disk i
      = { d with size := off } := by
    rw [dinodeOf_setNode hfits, update_self]
  have hholds : Holds (marked m₁) { d with size := off } (C i ++ p) :=
    happ.holds.congr (by rw [length_append]; exact hmax)
      (fun bn => fileBlock_withSize (marked m₁) d off bn) rfl
      fun y _ => byteAt_withSize (marked m₁) d off y
  have htype : d.type ≠ 0 := (h.live hi hn).2.2
  have hoff' : off = (C i ++ p).length := by rw [length_append, hoff]
  have halloc : AllocInv wide (marked m₁)
      (update (update node i d) i { d with size := off }) := by
    refine happ.work.alloc.set_node _ hi hi' (fun q => ?_) (fun _ bn hbn => ?_) fun _ => ?_
    · rw [refs_of_live hlive, hself]
      exact (if_neg htype).trans (ptr_congr rfl (fun _ => rfl) q)
    · have hbn : bn * BSIZE < off := hbn
      refine (hholds.block_iff bn ?_).mpr (hoff' ▸ hbn)
      rw [BSIZE_eq] at *
      omega
    · show off ≤ _
      omega
  rw [update_idem] at halloc
  have hrange : ∀ j, 1 ≤ j → j < n → ∀ q, ptr (marked m₁) (update node i d j) q ≠ 0 →
      46 ≤ ptr (marked m₁) (update node i d j) q := by
    intro j hj hjn q hq
    rw [← nmeta_wide]
    refine (happ.work.alloc.ptr_range ?_ hq).1
    by_cases hji : j = i
    · exact hji.symm ▸ hlive
    · exact (live_update_of_ne hji).mpr (h.live hj hjn)
  have hroom : Room n (update C i (C i ++ p)) := by
    refine ⟨fun j hj => ?_, ?_⟩
    · by_cases hji : j = i
      · rw [hji, update_self, length_append]
        exact hmax
      · rw [update_of_ne hji]
        exact h.room.1 j hj
    · have := happ.freeblock
      have := happ.work.free
      omega
  have hle := h.le
  refine ⟨?_, happ.kept.freeinode.trans h.freeinode, h.pos, hle, fun j hj hout => ?_,
    fun j hj hlt => ?_, fun j hj hlt => ?_, fun j hj hlt => ?_, fun j hj hlt => ?_, hroom, ?_⟩
  · refine (happ.work.setNode hi' halloc).congr fun j hj => ?_
    by_cases hji : j = i
    · rw [hji, hself', update_self]
    · rw [hkept j hj hji, update_of_ne hji]
  · rw [hkept j hj (by omega)]
    exact h.unused j hj hout
  · grind [h.type j hj hlt, Dinode.withAddrs]
  · grind [h.nlink j hj hlt, Dinode.withAddrs]
  · grind [h.size j hj hlt]
  · have hrangej := hrange j hj hlt
    by_cases hji : j = i
    · subst hji
      rw [hself] at hrangej
      rw [hself', update_self]
      exact happ.holds.of_setNode (by rw [length_append]; exact hmax) hi' rfl hrangej
    · rw [hkept j (by omega) hji, update_of_ne hji]
      rw [update_of_ne hji] at hrangej
      exact (happ.others j (h.live hj hlt) hji (C j) (h.room.1 j hlt)
        (h.holds j hj hlt)).of_setNode (h.room.1 j hlt) hi' rfl hrangej
  · show m₁.freeblock = _
    have := happ.freeblock
    omega

/-! ### One input file -/

/-- The loop that copies a file in pieces adds all of them. -/
theorem copyFile_spec : ∀ (rounds : Nat) (m : DiskImage) (C : Nat → List UInt8) (data : List UInt8),
    data.length ≤ rounds → Made m n C → 1 ≤ i → i < n →
    wp (copyFile i rounds data) (fun _ m' => Made m' n (update C i (C i ++ data)))
      (fun _ => ¬ Room n (update C i (C i ++ data))) m := by
  intro rounds
  induction rounds with
  | zero =>
    intro m C data hlen h hi hn
    obtain rfl := length_eq_zero_iff.mp (Nat.le_zero.mp hlen)
    rw [copyFile, wp_pure, append_nil, update_eq_self]
    exact h
  | succ rounds ih =>
    intro m C data hlen h hi hn
    rw [copyFile]
    refine wp_ite (fun hpos => ?_) fun hzero => ?_
    swap
    · obtain rfl := length_eq_zero_iff.mp (Nat.eq_zero_of_not_pos hzero)
      rw [wp_pure, append_nil, update_eq_self]
      exact h
    have hall : ∀ (C' : Nat → List UInt8), C' = update C i (C i ++ data.take BSIZE) →
        update C' i (C' i ++ data.drop BSIZE) = update C i (C i ++ data) := by
      rintro C' rfl
      rw [update_self, update_idem, append_assoc, take_append_drop]
    rw [wp_bind]
    refine wp_mono (iappend_spec h hi hn (data.take BSIZE)) ?_ fun e he hroom => he ?_
    · rintro - m₁ h₁
      have hrest : (data.drop BSIZE).length ≤ rounds := by
        rw [length_drop, BSIZE_eq]
        omega
      have hnext := ih m₁ _ (data.drop BSIZE) hrest h₁ hi hn
      rw [hall _ rfl] at hnext
      exact hnext
    · refine hroom.mono (Nat.le_refl n) fun j _ => ?_
      by_cases hji : j = i
      · rw [hji, update_self, update_self, length_append,
          length_append, length_take]
        omega
      · rw [update_of_ne hji, update_of_ne hji]

/-- The name that the file gets. -/
def nameOf (f : Input) : List UInt8 := skipUnderscore (dropUser f.arg)

/-- The input file can be read, and its name has no slash. -/
def Readable (f : Input) : Prop := (dropUser f.arg).contains 47 = false ∧ f.data.isSome

/-- The bytes after one more file. -/
def withFile (n : Nat) (C : Nat → List UInt8) (f : Input) : Nat → List UInt8 :=
  Function.update (Function.update C 1 (C 1 ++ entry n (nameOf f))) n (f.data.getD [])

/-- One file is added, with its name in the root directory. -/
theorem addFile_spec (h : Made m n C) (hn : 2 ≤ n) (hn' : n < 207) (hC : C n = []) (f : Input) :
    wp (addFile 1 f) (fun _ m' => Readable f ∧ Made m' (n + 1) (withFile n C f))
      (fun _ => ¬ (Readable f ∧ Room (n + 1) (withFile n C f))) m := by
  unfold addFile
  dsimp only
  refine wp_ite (fun hslash => ?_) fun hslash => ?_
  · rw [wp_throw]
    rintro ⟨⟨hno, -⟩, -⟩
    rw [hno] at hslash
    cases hslash
  cases hdata : f.data with
  | none =>
    show ¬ _
    rintro ⟨⟨-, hsome⟩, -⟩
    rw [hdata] at hsome
    cases hsome
  | some data =>
    have hreadable : Readable f := ⟨by simpa using hslash, by rw [hdata]; rfl⟩
    have hwith : withFile n C f
        = update (update C 1 (C 1 ++ entry n (nameOf f))) n data := by
      rw [withFile, hdata]
      rfl
    have hne : n ≠ 1 := by omega
    rw [hwith]
    rw [wp_bind]
    refine wp_mono (ialloc_spec h hn' hC (by rw [if_neg hne])) ?_ fun e he => he.elim
    rintro r m₁ ⟨rfl, h₁⟩
    rw [wp_bind]
    refine wp_mono (iappend_spec h₁ (Nat.le_refl 1) (by omega) (entry r (nameOf f))) ?_
      fun e he hroom => he ?_
    · rintro - m₂ h₂
      have hcopy := copyFile_spec data.length m₂ _ data (Nat.le_refl _) h₂ (i := r) (by omega)
        (by omega)
      have hnil : update C 1 (C 1 ++ entry r (nameOf f)) r = [] := by
        rw [update_of_ne hne, hC]
      rw [hnil, nil_append] at hcopy
      exact wp_mono hcopy (fun _ _ h => ⟨hreadable, h⟩) fun e he hroom => he hroom.2
    · refine hroom.2.mono (Nat.le_refl _) fun j _ => ?_
      by_cases hj : j = r
      · rw [hj, update_self, update_of_ne hne, hC]
        exact Nat.zero_le _
      · rw [update_of_ne hj]

/-! ### All input files -/

/-- The directory entries of files with the inode numbers from `k` on. -/
def entries (k : Nat) : List Input → List UInt8
  | [] => []
  | f :: fs => entry k (nameOf f) ++ entries (k + 1) fs

/-- The bytes of all inodes after the files `fs`. -/
def contentsOf (fs : List Input) (i : Nat) : List UInt8 :=
  if i = 1 then entry 1 [46] ++ entry 1 [46, 46] ++ entries 2 fs
  else if i = 0 then [] else (fs[i - 2]?).elim [] fun f => f.data.getD []

theorem entries_append (k : Nat) (fs gs : List Input) :
    entries k (fs ++ gs) = entries k fs ++ entries (k + fs.length) gs := by
  induction fs generalizing k with
  | nil => rfl
  | cons f fs ih =>
    rw [cons_append, entries, entries, ih, append_assoc, length_cons,
      Nat.add_right_comm, Nat.add_assoc]

theorem length_entry (k : Nat) (name : List UInt8) : (entry k name).length = 16 := by
  have hle := length_take_le DIRSIZ (name.takeWhile (· ≠ 0))
  have hsize : DIRSIZ = 14 := rfl
  unfold entry Fs.Dirent.bytes Fs.strncpy
  dsimp only
  rw [length_append, length_append, length_replicate]
  show 2 + _ = 16
  omega

theorem length_entries (k : Nat) (fs : List Input) : (entries k fs).length = 16 * fs.length := by
  induction fs generalizing k with
  | nil => rfl
  | cons f fs ih =>
    rw [entries, length_append, length_entry, ih, length_cons]
    omega

theorem length_root (fs : List Input) : (contentsOf fs 1).length = 16 * (fs.length + 2) := by
  rw [contentsOf, if_pos rfl, length_append, length_append, length_entry, length_entry,
    length_entries]
  omega

/-- The contents with one more file. -/
theorem contentsOf_snoc (fs : List Input) (f : Input) :
    contentsOf (fs ++ [f]) = withFile (fs.length + 2) (contentsOf fs) f := by
  funext i
  have hne : (1 : Nat) ≠ fs.length + 2 := by omega
  unfold withFile
  by_cases hi : i = fs.length + 2
  · subst hi
    rw [update_self, contentsOf, if_neg (Ne.symm hne), if_neg (Nat.succ_ne_zero _)]
    simp
  · rw [update_of_ne hi]
    by_cases hone : i = 1
    · subst hone
      rw [update_self, contentsOf, contentsOf, if_pos rfl, if_pos rfl, entries_append,
        append_assoc, append_assoc, append_assoc, Nat.add_comm 2, entries, entries,
        append_nil]
    · rw [update_of_ne hone, contentsOf, contentsOf, if_neg hone, if_neg hone]
      split
      · rfl
      · rw [getElem?_append]
        split
        · rfl
        · rename_i hpos hlt
          rw [getElem?_eq_none (by simp; omega), getElem?_eq_none (by omega)]

theorem contentsOf_out (fs : List Input) : contentsOf fs (fs.length + 2) = [] := by
  rw [contentsOf, if_neg (by omega), if_neg (by omega)]
  simp

theorem contentsOf_le (fs gs : List Input) (hi : i < fs.length + 2) :
    (contentsOf fs i).length ≤ (contentsOf (fs ++ gs) i).length := by
  by_cases hone : i = 1
  · rw [hone, length_root, length_root, length_append]
    omega
  · rw [contentsOf, contentsOf, if_neg hone, if_neg hone]
    split
    · exact Nat.le_refl _
    · rw [getElem?_append_left (by omega)]

/-- `mkfs` has room for the files and can read them. -/
def Fits (files : List Input) : Prop :=
  (∀ f ∈ files, Readable f) ∧ Room (files.length + 2) (contentsOf files)

/-- All files are added, or they do not fit. -/
theorem addFiles_spec (hlen : files.length + 2 ≤ 207) (h : Made m 2 (contentsOf [])) :
    wp (files.forM (addFile 1))
      (fun _ m' => (∀ f ∈ files, Readable f) ∧ Made m' (files.length + 2) (contentsOf files))
      (fun _ => ¬ Fits files) m := by
  have hloop := wp_forM (l := files) (f := addFile 1) (E := fun _ => ¬ Fits files) (s := m)
    (I := fun rest m' => ∃ done, files = done ++ rest ∧ (∀ f ∈ done, Readable f) ∧
      Made m' (done.length + 2) (contentsOf done))
    ⟨[], rfl, fun f hf => absurd hf not_mem_nil, h⟩ ?_
  · refine wp_post hloop ?_
    rintro - m' ⟨done, hdone, hread, hmade⟩
    rw [append_nil] at hdone
    exact hdone.symm ▸ ⟨hread, hmade⟩
  · rintro f rest m₁ - ⟨done, hdone, hread, hmade⟩
    have hfiles := congrArg List.length hdone
    rw [length_append, length_cons] at hfiles
    have hsnoc : files = (done ++ [f]) ++ rest := by rw [hdone, append_assoc]; rfl
    refine wp_mono (addFile_spec hmade (by omega) (by omega) (contentsOf_out done) f) ?_
      fun e he hfits => he ?_
    · rintro - m₂ ⟨hf, h₂⟩
      rw [← contentsOf_snoc] at h₂
      refine ⟨done ++ [f], hsnoc, fun g hg => ?_, by rwa [length_append]⟩
      rcases mem_append.mp hg with hg | hg
      · exact hread g hg
      · rw [mem_singleton.mp hg]
        exact hf
    · refine ⟨hfits.1 f (by rw [hdone]; simp), hfits.2.mono (by omega) fun j hj => ?_⟩
      rw [← contentsOf_snoc, hsnoc]
      exact contentsOf_le _ _ (by rw [length_append]; exact hj)

/-! ### `main` -/

/-- The image is filled with zeroes first. -/
theorem zeroLoop_spec {k : Nat} (hk : k ≤ FSSIZE) :
    wp ((List.range k).forM fun i => wsect i zeroes)
      (fun _ m => m.disk = (fun _ => zeroes) ∧ m.nsect = k ∧ m.freeinode = 1 ∧
        m.freeblock = 46 ∧ ∀ w ∈ m.written, w < k) (fun _ => False) start := by
  have hloop := wp_forM (l := List.range k) (f := fun i => wsect i zeroes)
    (E := fun _ => False) (s := start)
    (I := fun rest m => m.nsect + rest.length = k ∧ m.disk = (fun _ => zeroes) ∧
      m.freeinode = 1 ∧ m.freeblock = 46 ∧ ∀ w ∈ m.written, w < k)
    ⟨by rw [length_range]; exact Nat.zero_add k, rfl, rfl, rfl,
      fun w hw => absurd hw not_mem_nil⟩ ?_
  · refine wp_post hloop ?_
    rintro - m ⟨hnsect, hdisk, hfreeinode, hfreeblock, hwritten⟩
    exact ⟨hdisk, hnsect, hfreeinode, hfreeblock, hwritten⟩
  · rintro x rest m ⟨done, hdone⟩ ⟨hnsect, hdisk, hfreeinode, hfreeblock, hwritten⟩
    have hlen := congrArg List.length hdone
    rw [length_range, length_append, length_cons] at hlen
    have hx : x = done.length := by
      have hget := congrArg (fun l => l[done.length]?) hdone
      simp only [getElem?_append_right (Nat.le_refl _), Nat.sub_self] at hget
      rw [getElem?_range (by omega)] at hget
      exact (Option.some.inj hget).symm
    rw [length_cons] at hnsect
    have hsize : FSSIZE = 1000 := rfl
    unfold wsect
    rw [wp_modify, seek_of_lt (by omega)]
    refine ⟨?_, ?_, hfreeinode, hfreeblock, fun w hw => ?_⟩
    · show max m.nsect (x + 1) + rest.length = k
      omega
    · rw [hdisk]
      exact update_eq_self x _
    · rcases mem_append.mp hw with hw | hw
      · exact hwritten w hw
      · rw [mem_singleton.mp hw]
        omega

/-- The image before the root directory is made. -/
theorem made_empty (hdisk : m.disk = update (fun _ => zeroes) 1 sbBlock)
    (hnsect : m.nsect = FSSIZE) (hfreeinode : m.freeinode = 1) (hfreeblock : m.freeblock = 46)
    (hwritten : ∀ w ∈ m.written, w < FSSIZE) : Made m 1 fun _ => [] := by
  have hzero : ∀ i, i < 207 → dinodeOf wide m.disk i = Dinode.zero := by
    intro i hi
    have hblock : IBLOCK i wide ≠ 1 := by
      show i / IPB + 32 ≠ 1
      rw [IPB_eq]
      omega
    unfold dinodeOf
    rw [hdisk, update_of_ne hblock]
    show getDinode (fun _ => 0) _ = _
    unfold getDinode
    simp only [getLE_zero]
    rfl
  have hdead : ∀ i, ¬ Live wide (dinodeOf wide m.disk) i := by
    rintro i ⟨-, hi, htype⟩
    rw [hzero i hi] at htype
    exact htype rfl
  have hrefs : ∀ q, refs wide (marked m) (dinodeOf wide m.disk) q = 0 :=
    fun q => refs_of_not_live (hdead q.1) q.2
  have hsize : FSSIZE = 1000 := rfl
  refine ⟨⟨⟨hnsect, by omega, fun b hb => ?_, hwritten⟩, ⟨⟨fun q hq => absurd (hrefs q) hq,
    fun q _ hq => absurd (hrefs q) hq, fun b hb => ?_⟩, fun i hi => absurd hi (hdead i),
    fun i hi => absurd hi (hdead i)⟩⟩, hfreeinode, Nat.le_refl 1, by decide,
    fun i hi _ => hzero i hi, fun i hi hlt => by omega, fun i hi hlt => by omega,
    fun i hi hlt => by omega,
    fun i hi hlt => by omega, ⟨fun j _ => Nat.zero_le _, by decide⟩, hfreeblock⟩
  · rw [hdisk, update_of_ne (by omega)]
  · rw [mapBit_marked m hb, decide_eq_true_iff, hfreeblock, nmeta_wide]
    refine ⟨.inl, fun h => h.elim id ?_⟩
    rintro ⟨q, -, hq⟩
    exact absurd (hrefs q) hq

/-- What `mkfs` has written when it exits. -/
structure Written (files : List Input) (m : DiskImage) : Prop where
  freeinode : m.freeinode = files.length + 2
  written : ∀ w ∈ m.written, w < FSSIZE
  map : Allocated 46 FSSIZE (mapBit wide m.disk) (refs wide m.disk (dinodeOf wide m.disk))
  type : ∀ i, 1 ≤ i → i < files.length + 2 →
    (dinodeOf wide m.disk i).type = if i = 1 then T_DIR else T_FILE
  size : ∀ i, 1 ≤ i → i < files.length + 2 → (dinodeOf wide m.disk i).size
    = if i = 1 then ((contentsOf files 1).length / BSIZE + 1) * BSIZE
      else (contentsOf files i).length
  holds : ∀ i, 1 ≤ i → i < files.length + 2 →
    Holds m.disk (dinodeOf wide m.disk i) (contentsOf files i)
  unused : ∀ i, i < 207 → i = 0 ∨ files.length + 2 ≤ i → dinodeOf wide m.disk i = Dinode.zero
  room : Room (files.length + 2) (contentsOf files)

/-- The size of the root is rounded up to the next block. -/
theorem rounded_lt {len : Nat} (h : len ≤ MAXFILE * BSIZE) :
    (len / BSIZE + 1) * BSIZE < 2 ^ 32 := by
  have hmax : MAXFILE = 268 := rfl
  rw [BSIZE_eq] at *
  omega

/-- The last lines of `main`. -/
theorem finish_spec (h : Made m (files.length + 2) (contentsOf files)) :
    wp (do fixRoot 1; balloc (← get).freeblock) (fun _ m' => Written files m') (fun _ => False)
      m := by
  have hone : 1 < files.length + 2 := by omega
  set d : Dinode := { dinodeOf wide m.disk 1 with
    size := ((contentsOf files 1).length / BSIZE + 1) * BSIZE } with hd
  have hfits : FieldsFit d := by
    have hfits₀ : FieldsFit (dinodeOf wide m.disk 1) := fits_getDinode _ _
    refine ⟨hfits₀.type, hfits₀.major, hfits₀.minor, hfits₀.nlink, ?_, hfits₀.addrs⟩
    exact rounded_lt (h.room.1 1 hone)
  rw [wp_bind]
  unfold fixRoot
  rw [wp_bind]
  refine wp_rinode h.work.nsect (by decide) ?_
  rw [h.size 1 (Nat.le_refl 1) hone]
  refine wp_winode (d := d) h.work.nsect (by decide) ?_
  rw [wp_bind, wp_get]
  have hfree := h.work.free
  have hsize : FSSIZE = 1000 := rfl
  have hlt : (setNode m 1 d).freeblock < BSIZE * 8 := by
    show m.freeblock < BSIZE * 8
    rw [BSIZE_eq]
    omega
  unfold balloc
  refine wp_ite (fun _ => ?_) fun hno => absurd hlt hno
  have hnsect : (setNode m 1 d).nsect = FSSIZE := h.work.nsect
  have hmap : sb.bmapstart = 45 := rfl
  refine wp_wsect (by omega) (by omega) ?_
  -- the free map is the one that was put in place all the time
  have hdisk : (put (setNode m 1 d) sb.bmapstart (firstBits (setNode m 1 d).freeblock)).disk
      = marked (setNode m 1 d) := rfl
  have hdinode : ∀ i, i < 207 → dinodeOf wide (marked (setNode m 1 d)) i
      = update (dinodeOf wide m.disk) 1 d i := by
    intro i hi
    rw [dinodeOf_marked _ hi, dinodeOf_setNode hfits]
  have hother : ∀ i, i < 207 → i ≠ 1 →
      dinodeOf wide (marked (setNode m 1 d)) i = dinodeOf wide m.disk i := by
    intro i hi hne
    rw [hdinode i hi, update_of_ne hne]
  have hroot : dinodeOf wide (marked (setNode m 1 d)) 1 = d := by
    rw [hdinode 1 (by decide), update_self]
  have haddrs : ∀ i, i < 207 → (dinodeOf wide (marked (setNode m 1 d)) i).addrs
      = (dinodeOf wide m.disk i).addrs ∧ (dinodeOf wide (marked (setNode m 1 d)) i).type
      = (dinodeOf wide m.disk i).type := by
    intro i hi
    by_cases hne : i = 1
    · rw [hne, hroot]
      exact ⟨rfl, rfl⟩
    · rw [hother i hi hne]
      exact ⟨rfl, rfl⟩
  have hle := h.le
  refine ⟨h.freeinode, fun w hw => ?_, ?_, fun i hi hn => ?_, fun i hi hn => ?_,
    fun i hi hn => ?_, fun i hi hout => ?_, h.room⟩
  · rcases mem_append.mp hw with hw | hw
    · rcases mem_append.mp hw with hw | hw
      · exact h.work.written w hw
      · rw [mem_singleton.mp hw]
        exact Nat.lt_of_lt_of_le (iblock_lt (by decide)) (by decide)
    · rw [mem_singleton.mp hw]
      decide
  · rw [hdisk]
    have hold := h.work.alloc.map
    rw [nmeta_wide] at hold
    refine hold.congr (fun b hb => ?_) fun q => ?_
    · rw [mapBit_marked _ hb, mapBit_marked _ hb]
      rfl
    · obtain ⟨i, p⟩ := q
      by_cases hi : Live wide (dinodeOf wide m.disk) i
      · have hi' : Live wide (dinodeOf wide (marked (setNode m 1 d))) i :=
          ⟨hi.1, hi.2.1, by rw [(haddrs i hi.2.1).2]; exact hi.2.2⟩
        rw [refs_of_live hi, refs_of_live hi']
        refine ptr_congr (haddrs i hi.2.1).1 (fun hne => marked_setNode (by decide) ?_) p
        rw [← nmeta_wide]
        exact (h.work.alloc.ind_range hi hne).1
      · rw [refs_of_not_live hi, refs_of_not_live]
        rintro ⟨hpos, hlt, htype⟩
        exact hi ⟨hpos, hlt, by rwa [← (haddrs i hlt).2]⟩
  · rw [hdisk, (haddrs i (by omega)).2]
    exact h.type i hi hn
  · rw [hdisk]
    by_cases hne : i = 1
    · rw [if_pos hne, hne, hroot]
    · rw [if_neg hne, hother i (by omega) hne]
      exact h.size i hi hn
  · rw [hdisk]
    exact (h.holds i hi hn).of_setNode (h.room.1 i hn) (by decide) (haddrs i (by omega)).1
      (h.range hi hn)
  · rw [hdisk, hother i hi (by omega)]
    exact h.unused i hi hout

/-- `main` exits with the image, or the files do not fit. -/
theorem main_spec (hlen : files.length + 2 ≤ 207) :
    wp (main files) (fun _ m => (∀ f ∈ files, Readable f) ∧ Written files m)
      (fun _ => ¬ Fits files) start := by
  unfold main
  -- with the number itself, Lean would run the loop
  generalize hk : FSSIZE = k
  rw [wp_bind]
  refine wp_mono (zeroLoop_spec (Nat.le_of_eq hk.symm)) ?_ fun e he => he.elim
  rintro - m₀ ⟨hdisk, hnsect, hfreeinode, hfreeblock, hwritten⟩
  rw [← hk] at hnsect hwritten
  have hsize : FSSIZE = 1000 := rfl
  rw [wp_bind]
  refine wp_wsect (by omega) (by omega) ?_
  have hempty : Made (put m₀ 1 sbBlock) 1 fun _ => [] := by
    refine made_empty (by rw [← hdisk]; rfl) hnsect hfreeinode hfreeblock fun w hw => ?_
    rcases mem_append.mp hw with hw | hw
    · exact hwritten w hw
    · rw [mem_singleton.mp hw]
      decide
  rw [wp_bind]
  refine wp_mono (ialloc_spec hempty (by decide) rfl rfl) ?_ fun e he => he.elim
  rintro r m₁ ⟨rfl, h₁⟩
  refine wp_ite (fun _ => ?_) fun hno => absurd rfl hno
  have hroom : ∀ c : List UInt8, c.length ≤ 32 → Fits files →
      Room 2 (update (fun _ => []) 1 c) := by
    intro c hc hfits
    refine hfits.2.mono (by omega) fun j hj => ?_
    by_cases hone : j = 1
    · rw [hone, update_self, length_root]
      omega
    · rw [update_of_ne hone]
      exact Nat.zero_le _
  have happ := iappend_spec h₁ (Nat.le_refl 1) (by decide) (entry 1 [46])
  rw [nil_append] at happ
  rw [wp_bind]
  refine wp_mono happ ?_ fun e he hfits => he (hroom _ (by rw [length_entry]; decide) hfits)
  rintro - m₂ h₂
  have happ₂ := iappend_spec h₂ (Nat.le_refl 1) (by decide) (entry 1 [46, 46])
  rw [update_self, update_idem] at happ₂
  rw [wp_bind]
  refine wp_mono happ₂ ?_ fun e he hfits => he (hroom _ ?_ hfits)
  swap
  · rw [length_append, length_entry, length_entry]
  rintro - m₃ h₃
  have hdots : update (fun _ => []) 1 (entry 1 [46] ++ entry 1 [46, 46])
      = contentsOf [] := by
    funext j
    by_cases hone : j = 1
    · rw [hone, update_self, contentsOf, if_pos rfl, entries, append_nil]
    · rw [update_of_ne hone, contentsOf, if_neg hone]
      split <;> simp
  rw [hdots] at h₃
  rw [wp_bind]
  refine wp_mono (addFiles_spec hlen h₃) ?_ fun e he => he
  rintro - m₄ ⟨hread, h₄⟩
  exact wp_mono (finish_spec h₄) (fun _ _ h => ⟨hread, h⟩) fun e he => he.elim

end Xv6.Proofs.Mkfs
