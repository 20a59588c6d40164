import Xv6.Tools.Mkfs
import Xv6.Proofs.Fs.Blocks

/-!
# `Xv6.Proofs.Mkfs.Append`: what `iappend` does to the image

`mkfs` writes the free map at the end, from the counter `freeblock`. With that map put in place at
once (`marked`), the image satisfies the block allocation invariant of the kernel after every step:
taking the next block is what the kernel's `balloc` does (`Work.taken`), and `iappend` is a `writei`
at the end of the file. `Holds` says which bytes an inode has, and that it has no other blocks than
these need.

`wide` is the layout of `mkfs` with all inodes that the inode blocks have room for. `mkfs` gives out
more of them than its superblock says.
-/

set_option autoImplicit false

namespace Xv6.Proofs.Mkfs

open Lib Xv6.Mkfs List
open Function (update_comm update_eq_self update_idem update_of_ne update_self)
open Fs (indirectEntry)

variable {E : Exit → Prop} {c : List UInt8} {d : Dinode} {fbn sec : Nat}

/-! ### The free map -/

def wide : Superblock := { sb with ninodes := 207 }

theorem wide_layout : Layout wide := ⟨rfl, by decide, by decide, by decide, by decide⟩

theorem nmeta_wide : Proofs.nmeta wide = 46 := by decide

/-- A block of the map in which the first `n` bits are set. -/
theorem testBit_firstBits (n b : Nat) : testBit (firstBits n) b = decide (b < n) := by
  induction n with
  | zero => simp [firstBits, testBit, zeroes]
  | succ n ih =>
    have hsucc : firstBits (n + 1) = setBit (firstBits n) n := by
      unfold firstBits
      rw [range_succ, foldl_append]
      rfl
    rw [hsucc]
    by_cases hb : b = n
    · rw [hb, testBit_setBit_self]
      simp
    · rw [testBit_setBit_of_ne _ hb, ih]
      congr 1
      exact propext ⟨fun h => by omega, fun h => by omega⟩

/-- The image with the free map that `balloc` will write. -/
def marked (m : DiskImage) : Disk := Function.update m.disk sb.bmapstart (firstBits m.freeblock)

theorem marked_of_ne (m : DiskImage) {a : Nat} (ha : a ≠ sb.bmapstart) : marked m a = m.disk a :=
  update_of_ne ha _ _

/-- The map that `mkfs` will write marks the blocks before `freeblock`. -/
theorem mapBit_marked (m : DiskImage) {b : Nat} (hb : b < FSSIZE) :
    mapBit wide (marked m) b = decide (b < m.freeblock) := by
  have hlt : b < 1000 := hb
  have hblock : BBLOCK b wide = sb.bmapstart := by
    show b / BPB + sb.bmapstart = _
    rw [BPB_eq]
    omega
  have hmod : b % BPB = b := by
    rw [BPB_eq]
    omega
  unfold mapBit marked
  rw [hblock, hmod, update_self, testBit_firstBits]

theorem dinodeOf_marked (m : DiskImage) {i : Nat} (hi : i < 207) :
    dinodeOf wide (marked m) i = dinodeOf wide m.disk i :=
  dinodeOf_update_of_ne (Nat.ne_of_gt (wide_layout.iblock_lt hi))

/-! ### The state between two steps -/

/-- The image has its length, and is zero from `freeblock` on. -/
structure Sound (m : DiskImage) : Prop where
  nsect : m.nsect = FSSIZE
  free : m.freeblock ≤ FSSIZE
  fresh : ∀ b, m.freeblock ≤ b → m.disk b = zeroes
  written : ∀ w ∈ m.written, w < FSSIZE

/-- The inodes `node` have the blocks before `freeblock`. -/
structure Work (m : DiskImage) (node : Nat → Dinode) : Prop extends Sound m where
  alloc : AllocInv wide (marked m) node

variable {m m' : DiskImage} {node : Nat → Dinode} {i : Nat}

theorem Work.nmeta_le (h : Work m node) : 46 ≤ m.freeblock := by
  have hused := (h.alloc.map.used_iff 45 (by decide)).mpr (.inl (by decide))
  rw [mapBit_marked m (by decide), decide_eq_true_iff] at hused
  exact hused

/-- The blocks of an inode are marked in the map. -/
theorem Work.lt_freeblock (h : Work m node) (hi : Live wide node i) {p : Ptr}
    (hp : ptr (marked m) (node i) p ≠ 0) : ptr (marked m) (node i) p < m.freeblock := by
  have hbit := h.alloc.map.used_of_ref (p := (i, p)) (by rwa [refs_of_live hi])
  rw [refs_of_live hi, mapBit_marked m (h.alloc.ptr_range hi hp).2, decide_eq_true_iff] at hbit
  exact hbit

/-- `freeblock++` -/
def bump (m : DiskImage) : DiskImage := { m with freeblock := m.freeblock + 1 }

/-- Taking the next block is what `balloc` of the kernel does. -/
theorem Work.taken (h : Work m node) (hlt : m.freeblock < FSSIZE) :
    BlockTaken wide (marked m) (marked (bump m)) m.freeblock where
  lt := hlt
  free := by
    rw [mapBit_marked m hlt]
    simp
  map c hc := by
    rw [mapBit_marked _ hc]
    by_cases heq : c = m.freeblock
    · rw [heq, update_self]
      simp [bump]
    · rw [update_of_ne heq, mapBit_marked m hc]
      congr 1
      refine propext ⟨fun hlt => ?_, fun hlt => Nat.lt_succ_of_lt hlt⟩
      have hlt : c < m.freeblock + 1 := hlt
      omega
  zero := by
    have hne : m.freeblock ≠ sb.bmapstart := Nat.ne_of_gt h.nmeta_le
    rw [marked_of_ne _ hne]
    exact h.fresh _ (Nat.le_refl _)
  other a ha _ := by
    have hne : a ≠ sb.bmapstart := Nat.ne_of_gt ha
    rw [marked_of_ne _ hne, marked_of_ne _ hne]
    rfl
  dinode i hi := by
    rw [dinodeOf_marked _ hi, dinodeOf_marked _ hi]
    rfl

/-- What a step leaves alone. -/
structure Kept (m m' : DiskImage) : Prop where
  freeinode : m'.freeinode = m.freeinode
  dinode : ∀ i, i < 207 → dinodeOf wide m'.disk i = dinodeOf wide m.disk i

theorem Kept.refl (m : DiskImage) : Kept m m := ⟨rfl, fun _ _ => rfl⟩

theorem Kept.trans {m₁ m₂ : DiskImage} (h : Kept m m₁) (h' : Kept m₁ m₂) : Kept m m₂ :=
  ⟨h'.freeinode.trans h.freeinode, fun i hi => (h'.dinode i hi).trans (h.dinode i hi)⟩

/-! ### Sectors -/

theorem seek_of_lt (h : sec < 2 ^ 22) : seek sec = sec := by
  have hlt : sec * BSIZE < 2 ^ 32 := by
    rw [BSIZE_eq]
    omega
  rw [seek, Nat.mod_eq_of_lt hlt, Nat.mul_div_cancel _ (by decide)]

theorem wp_rsect {Q : Block → DiskImage → Prop} (hlt : sec < 2 ^ 22)
    (hok : sec < m.nsect → Q (m.disk sec) m) (hdie : m.nsect ≤ sec → E .die) :
    wp (rsect sec) Q E m := by
  unfold rsect
  rw [wp_bind, wp_get, seek_of_lt hlt]
  exact wp_ite (fun h => (wp_pure ..).mpr (hok h)) fun h => (wp_throw ..).mpr (hdie (by omega))

/-- The image after a sector inside it has been written. -/
def put (m : DiskImage) (sec : Nat) (buf : Block) : DiskImage :=
  { m with disk := Function.update m.disk sec buf, written := m.written ++ [sec] }

theorem wp_wsect {buf : Block} {Q : Unit → DiskImage → Prop} (hlt : sec < m.nsect)
    (hmax : m.nsect ≤ 2 ^ 22) (h : Q () (put m sec buf)) : wp (wsect sec buf) Q E m := by
  unfold wsect
  rw [wp_modify, seek_of_lt (by omega), Nat.max_eq_left (by omega)]
  exact h

theorem marked_put (m : DiskImage) (hne : sec ≠ sb.bmapstart) (buf : Block) :
    marked (put m sec buf) = Function.update (marked m) sec buf :=
  (update_comm (Ne.symm hne) ..).symm

theorem kept_put (m : DiskImage) (hsec : 46 ≤ sec) (buf : Block) : Kept m (put m sec buf) :=
  ⟨rfl, fun _ hi => dinodeOf_update_data wide_layout (nmeta_wide ▸ hsec) hi buf⟩

/-- A sector in use is written. -/
theorem Sound.put (h : Sound m) (hused : sec < m.freeblock) (buf : Block) :
    Sound (put m sec buf) where
  nsect := h.nsect
  free := h.free
  fresh b hb := by
    have hb : m.freeblock ≤ b := hb
    exact (update_of_ne (by omega) _ _).trans (h.fresh b hb)
  written w hw := by
    have hfree := h.free
    rcases mem_append.mp hw with hw | hw
    · exact h.written w hw
    · rw [mem_singleton.mp hw]
      omega

theorem Sound.bump (h : Sound m) (hlt : m.freeblock < FSSIZE) : Sound (bump m) where
  nsect := h.nsect
  free := hlt
  fresh b hb := h.fresh b (Nat.le_of_succ_le hb)
  written := h.written

theorem kept_bump (m : DiskImage) : Kept m (bump m) := ⟨rfl, fun _ _ => rfl⟩

/-! ### The block for the next bytes -/

theorem wp_nextBlock {Q : Nat → DiskImage → Prop} (h : Q m.freeblock (bump m)) :
    wp nextBlock Q E m := h

theorem wp_fillAddr {din : Dinode} {k : Fin (NDIRECT + 1)} {Q : Dinode → DiskImage → Prop}
    (hold : din.addrs k ≠ 0 → Q din m) (hnew : din.addrs k = 0 →
      Q (din.withAddrs (Function.update din.addrs k m.freeblock)) (bump m)) :
    wp (fillAddr din k) Q E m := by
  unfold fillAddr
  exact wp_ite hnew fun h => (wp_pure ..).mpr (hold h)

/-- What `iappendBlock` has done when there was a block left. -/
structure BlockGot (m m' : DiskImage) (node : Nat → Dinode) (i fbn : Nat) (din : Dinode) (x : Nat) :
    Prop where
  work : Work m' (Function.update node i din)
  grown : Grown wide i (marked m) node (marked m') (Function.update node i din)
  kept : Kept m m'
  block : fileBlock (marked m') din fbn = x
  ne_zero : x ≠ 0
  blocks : ∀ bn, bn ≠ fbn → fileBlock (marked m') din bn = fileBlock (marked m) (node i) bn
  ind : din.ind ≠ 0 ↔ (node i).ind ≠ 0 ∨ NDIRECT ≤ fbn
  freeblock : m'.freeblock = m.freeblock + need (marked m) (node i) fbn

/-- How `iappendBlock` ends: with a block, or with one behind the end of the image. -/
def BlockEnd (m m' : DiskImage) (node : Nat → Dinode) (i fbn : Nat) (r : Dinode × Nat) : Prop :=
  m.freeblock + need (marked m) (node i) fbn ≤ FSSIZE ∧ BlockGot m m' node i fbn r.1 r.2 ∨
  FSSIZE < m.freeblock + need (marked m) (node i) fbn ∧ m'.nsect ≤ r.2 ∧ r.2 < 2 ^ 22

/-- The block at an index below `NDIRECT` is an address of the inode. -/
theorem iappendBlock_direct (h : Work m node) (hi : Live wide node i) (hfbn : fbn < NDIRECT) :
    wp (iappendBlock (node i) fbn) (fun r m' => BlockEnd m m' node i fbn r)
      (fun _ => FSSIZE < m.freeblock + need (marked m) (node i) fbn) m := by
  have hblock : ∀ disk d, fileBlock disk d fbn = d.addrs ⟨fbn, Nat.lt_succ_of_lt hfbn⟩ :=
    fun _ _ => fileBlock_of_ptrOf (ptrOf_direct hfbn)
  have hneed : need (marked m) (node i) fbn
      = if (node i).addrs ⟨fbn, Nat.lt_succ_of_lt hfbn⟩ = 0 then 1 else 0 := by
    have hnot : ¬ (NDIRECT ≤ fbn ∧ (node i).ind = 0) := fun h => absurd hfbn (Nat.not_lt.mpr h.1)
    rw [need, hblock, if_neg hnot, Nat.add_zero]
  rw [iappendBlock, dif_pos hfbn, wp_bind]
  refine wp_fillAddr (fun hne => ?_) fun hzero => ?_
  · -- the block is there
    rw [wp_pure]
    rw [if_neg hne] at hneed
    refine .inl ⟨by rw [hneed]; exact h.free, ?_⟩
    refine ⟨by rwa [update_eq_self], by rw [update_eq_self]; exact .refl ..,
      .refl m, hblock _ _, hne, fun _ _ => rfl, ?_, by rw [hneed]; rfl⟩
    exact ⟨.inl, fun h => h.elim id fun hge => absurd hfbn (Nat.not_lt.mpr hge)⟩
  · rw [wp_pure]
    rw [if_pos hzero] at hneed
    set d' := (node i).withAddrs
      (Function.update (node i).addrs ⟨fbn, Nat.lt_succ_of_lt hfbn⟩ m.freeblock) with hd'
    have hx : d'.addrs ⟨fbn, Nat.lt_succ_of_lt hfbn⟩ = m.freeblock := update_self ..
    unfold BlockEnd
    rw [hneed]
    dsimp only
    rw [hx]
    by_cases hlt : m.freeblock < FSSIZE
    · obtain ⟨halloc, hgrown, hentries⟩ := h.alloc.alloc_addr (h.taken hlt) hi hzero
      have hlast : Fin.last NDIRECT ≠ ⟨fbn, Nat.lt_succ_of_lt hfbn⟩ := by
        intro heq
        have hval : NDIRECT = fbn := congrArg Fin.val heq
        omega
      have hind : d'.ind = (node i).ind := update_of_ne hlast _ _
      refine .inl ⟨hlt, ⟨h.toSound.bump hlt, halloc⟩, hgrown, kept_bump m, (hblock _ _).trans hx,
        ?_, fun bn hbn => ?_, ?_, by rw [hneed]; rfl⟩
      · have := h.nmeta_le
        omega
      · exact fileBlock_of_addr rfl hentries fun hp => hbn (ptrOf_inj hp (ptrOf_direct hfbn))
      · rw [hind]
        exact ⟨.inl, fun h => h.elim id fun hge => absurd hfbn (Nat.not_lt.mpr hge)⟩
    · -- the block is behind the end of the image
      have hmax : FSSIZE < 2 ^ 22 := by decide
      have hfree := h.free
      have hnsect : (bump m).nsect = FSSIZE := h.nsect
      exact .inr ⟨by omega, by omega, by omega⟩

theorem need_of_ind (disk : Disk) (fbn : Nat) (hind : d.ind ≠ 0) :
    need disk d fbn = if fileBlock disk d fbn = 0 then 1 else 0 := by
  have hnot : ¬ (NDIRECT ≤ fbn ∧ d.ind = 0) := fun h => hind h.2
  rw [need, if_neg hnot, Nat.add_zero]

/-- The entry of an indirect block that is there. -/
theorem fillEntry_spec (h : Work m node) (hi : Live wide node i) (hge : ¬ fbn < NDIRECT)
    (hlt : fbn - NDIRECT < NINDIRECT) (hind : (node i).ind ≠ 0) :
    wp (do
        let indirect ← rsect (node i).ind
        if indirectEntry indirect (fbn - NDIRECT) = 0 then do
          let x ← nextBlock
          let indirect := putLE indirect (4 * (fbn - NDIRECT)) 4 x
          wsect (node i).ind indirect
          return (node i, indirectEntry indirect (fbn - NDIRECT))
        else return (node i, indirectEntry indirect (fbn - NDIRECT)))
      (fun r m' => BlockEnd m m' node i fbn r) (fun _ => False) m := by
  have hptr := ptrOf_indirect hge hlt
  have hrange := h.alloc.ind_range hi hind
  rw [nmeta_wide] at hrange
  have hsize : (node i).ind < FSSIZE := hrange.2
  have hmax : FSSIZE < 2 ^ 22 := by decide
  have hsame : marked m (node i).ind = m.disk (node i).ind := marked_of_ne m (Nat.ne_of_gt hrange.1)
  have hblock : fileBlock (marked m) (node i) fbn
      = indirectEntry (m.disk (node i).ind) (fbn - NDIRECT) := by
    rw [fileBlock_of_ptrOf hptr, ptr_entry, if_neg hind, hsame]
  have hneed := need_of_ind (marked m) fbn hind
  rw [hblock] at hneed
  have hindiff : (node i).ind ≠ 0 ↔ (node i).ind ≠ 0 ∨ NDIRECT ≤ fbn := ⟨.inl, fun _ => hind⟩
  rw [wp_bind]
  refine wp_rsect (by omega) (fun _ => ?_) fun hout => absurd h.nsect (by omega)
  refine wp_ite (fun hzero => ?_) fun hne => ?_
  · -- the next block becomes the entry
    rw [wp_bind]
    refine wp_nextBlock ?_
    dsimp only
    rw [wp_bind]
    have hnsect : (bump m).nsect = FSSIZE := h.nsect
    refine wp_wsect (by omega) (by omega) ?_
    rw [wp_pure]
    rw [if_pos hzero] at hneed
    have hfree := h.free
    have hx : indirectEntry (putLE (m.disk (node i).ind) (4 * (fbn - NDIRECT)) 4 m.freeblock)
        (fbn - NDIRECT) = m.freeblock := by
      refine (getLE_putLE_self _ _ _ _).trans (Nat.mod_eq_of_lt ?_)
      show m.freeblock < 2 ^ 32
      omega
    unfold BlockEnd
    rw [hneed]
    dsimp only
    rw [hx]
    by_cases hroom : m.freeblock < FSSIZE
    · have he : indirectEntry (marked m (node i).ind) (⟨_, hlt⟩ : Fin NINDIRECT) = 0 := by
        rw [hsame]
        exact hzero
      obtain ⟨halloc, hgrown, hnew, hold⟩ :=
        h.alloc.alloc_entry wide_layout (h.taken hroom) hi hind he
      have hbump : marked (bump m) (node i).ind = m.disk (node i).ind :=
        marked_of_ne _ (Nat.ne_of_gt hrange.1)
      have hused : (node i).ind < m.freeblock :=
        h.lt_freeblock hi (p := .addr (Fin.last NDIRECT)) hind
      rw [hbump] at halloc hgrown hnew hold
      rw [← marked_put (bump m) (Nat.ne_of_gt hrange.1)] at halloc hgrown hnew hold
      have hsound := (h.toSound.bump hroom).put (Nat.lt_succ_of_lt hused)
        (putLE (m.disk (node i).ind) (4 * (fbn - NDIRECT)) 4 m.freeblock)
      refine .inl ⟨hroom, ?_⟩
      refine ⟨?_, ?_, (kept_bump m).trans (kept_put _ hrange.1 _), ?_, ?_, fun bn hbn => ?_,
        hindiff, by rw [hneed]; rfl⟩
      · rw [update_eq_self]
        exact ⟨hsound, halloc⟩
      · rw [update_eq_self]
        exact hgrown
      · rw [fileBlock_of_ptrOf hptr]
        exact hnew
      · have := h.nmeta_le
        omega
      · exact fileBlock_of_entry hold fun hp => hbn (ptrOf_inj hp hptr)
    · refine .inr ⟨by omega, ?_, by omega⟩
      have : (put (bump m) (node i).ind (putLE (m.disk (node i).ind) (4 * (fbn - NDIRECT)) 4
        m.freeblock)).nsect = FSSIZE := h.nsect
      omega
  · rw [wp_pure]
    rw [if_neg hne] at hneed
    refine .inl ⟨by rw [hneed]; exact h.free, ?_⟩
    exact ⟨by rwa [update_eq_self], by rw [update_eq_self]; exact .refl ..,
      .refl m, hblock, hne, fun _ _ => rfl, hindiff, by rw [hneed]; rfl⟩

/-- The block at a later index is an entry of the indirect block, which may have to be taken first.
-/
theorem iappendBlock_indirect (h : Work m node) (hi : Live wide node i) (hge : ¬ fbn < NDIRECT)
    (hlt : fbn - NDIRECT < NINDIRECT) :
    wp (iappendBlock (node i) fbn) (fun r m' => BlockEnd m m' node i fbn r)
      (fun _ => FSSIZE < m.freeblock + need (marked m) (node i) fbn) m := by
  rw [iappendBlock, dif_neg hge, wp_bind]
  refine wp_fillAddr (fun hne => ?_) fun hzero => ?_
  · exact wp_mono (fillEntry_spec h hi hge hlt hne) (fun _ _ h => h) fun _ h => h.elim
  · -- the file has no indirect block, so it has no block at `fbn` either
    have hle : NDIRECT ≤ fbn := Nat.le_of_not_lt hge
    have hind : (node i).ind = 0 := hzero
    have hnone : fileBlock (marked m) (node i) fbn = 0 := by
      by_contra hne
      exact ind_ne_of_fileBlock hle hne hind
    have hneed : need (marked m) (node i) fbn = 2 := by
      rw [need, if_pos hnone, if_pos ⟨hle, hind⟩]
    have hmax : FSSIZE < 2 ^ 22 := by decide
    have hfree := h.free
    set d' := (node i).withAddrs
      (Function.update (node i).addrs (Fin.last NDIRECT) m.freeblock) with hd'
    have hind' : d'.ind = m.freeblock := by simp [hd', Dinode.ind, Dinode.withAddrs]
    by_cases hroom : m.freeblock < FSSIZE
    · obtain ⟨halloc, hgrown, hentries⟩ := h.alloc.alloc_addr (h.taken hroom) hi hzero
      have hself : Function.update node i d' i = d' := update_self ..
      have hne' : (Function.update node i d' i).ind ≠ 0 := by
        rw [hself, hind']
        have := h.nmeta_le
        omega
      have hi' : Live wide (Function.update node i d') i := (hgrown.live i).mpr hi
      have hblocks : ∀ bn, fileBlock (marked (bump m)) d' bn
          = fileBlock (marked m) (node i) bn :=
        fun bn => fileBlock_of_addr rfl hentries fun hp => ptrOf_ne_ind hp rfl
      have hspec := fillEntry_spec (m := bump m) ⟨h.toSound.bump hroom, halloc⟩ hi' hge hlt hne'
      have hneed' := need_of_ind (marked (bump m)) fbn hne'
      rw [hself] at hspec hneed'
      rw [hblocks, if_pos hnone] at hneed'
      have hbump : (bump m).freeblock = m.freeblock + 1 := rfl
      refine wp_mono hspec ?_ fun _ h => h.elim
      rintro r m' (⟨hle', hgot⟩ | ⟨hover, hout, hlt'⟩)
      · rw [hself, hneed'] at hle'
        obtain ⟨hwork, hgrown', hkept, hblock, hne, hother, hindiff, hfb⟩ := hgot
        rw [hself, hneed'] at hfb
        rw [update_idem] at hwork hgrown'
        refine .inl ⟨by omega, hwork, hgrown.trans hgrown', (kept_bump m).trans hkept, hblock, hne,
          fun bn hbn => ?_, ?_, by omega⟩
        · rw [hother bn hbn, hself, hblocks]
        · exact ⟨fun _ => .inr hle, fun _ => hindiff.mpr (.inr hle)⟩
      · rw [hself, hneed'] at hover
        exact .inr ⟨by omega, hout, hlt'⟩
    · -- the image ends before the indirect block
      have hnsect : (bump m).nsect = FSSIZE := h.nsect
      have haddr : d'.addrs (Fin.last NDIRECT) = m.freeblock := hind'
      rw [wp_bind, haddr]
      refine wp_rsect (by omega) (fun hin => ?_) fun _ => ?_
      · omega
      · omega

/-- How `iappendBlock` ends, for every index that a file can have. -/
theorem iappendBlock_spec (h : Work m node) (hi : Live wide node i) (hfbn : fbn < MAXFILE) :
    wp (iappendBlock (node i) fbn) (fun r m' => BlockEnd m m' node i fbn r)
      (fun _ => FSSIZE < m.freeblock + need (marked m) (node i) fbn) m := by
  by_cases hdirect : fbn < NDIRECT
  · exact iappendBlock_direct h hi hdirect
  · exact iappendBlock_indirect h hi hdirect (by unfold MAXFILE at hfbn; omega)

/-! ### The bytes of an inode -/

/-- The inode has the bytes `data`, and the blocks for them. -/
structure Holds (disk : Disk) (d : Dinode) (data : List UInt8) : Prop where
  block_iff : ∀ bn, bn < MAXFILE → (fileBlock disk d bn ≠ 0 ↔ bn * BSIZE < data.length)
  ind_iff : d.ind ≠ 0 ↔ NDIRECT * BSIZE < data.length
  bytes : ∀ (y : Nat) (b : UInt8), data[y]? = some b → byteAt disk d y = b

/-- The number of blocks for `len` bytes. -/
def blocksFor (len : Nat) : Nat :=
  (len + BSIZE - 1) / BSIZE + if NDIRECT * BSIZE < len then 1 else 0

theorem blocksFor_mono {len len' : Nat} (h : len ≤ len') : blocksFor len ≤ blocksFor len' := by
  unfold blocksFor
  rw [BSIZE_eq]
  split <;> split <;> omega

/-- A new inode has no bytes and no blocks. -/
theorem Holds.nil (disk : Disk) (hd : d.addrs = fun _ => 0) : Holds disk d [] where
  block_iff bn _ := by
    have hind : d.ind = 0 := congrFun hd _
    have hzero : fileBlock disk d bn = 0 := by
      unfold fileBlock
      cases ptrOf bn with
      | none => rfl
      | some p =>
        cases p with
        | addr k => exact congrFun hd k
        | entry e => exact if_pos hind
    simp [hzero]
  ind_iff := by
    have hind : d.ind = 0 := congrFun hd _
    simp [hind]
  bytes y b hb := by simp at hb

/-- What the inode holds depends on its blocks. -/
theorem Holds.congr {disk disk' : Disk} {d' : Dinode} (h : Holds disk d c)
    (hc : c.length ≤ MAXFILE * BSIZE) (hblocks : ∀ bn, fileBlock disk' d' bn = fileBlock disk d bn)
    (hind : d'.ind = d.ind)
    (hbytes : ∀ y, fileBlock disk d (y / BSIZE) ≠ 0 → byteAt disk' d' y = byteAt disk d y) :
    Holds disk' d' c where
  block_iff bn hbn := by
    rw [hblocks]
    exact h.block_iff bn hbn
  ind_iff := by
    rw [hind]
    exact h.ind_iff
  bytes y b hb := by
    have hlt := (List.getElem?_eq_some_iff.mp hb).1
    rw [hbytes y, h.bytes y b hb]
    refine (h.block_iff _ ?_).mpr ?_
    · rw [BSIZE_eq] at *
      omega
    · rw [BSIZE_eq]
      omega

/-- The blocks that the next bytes need. -/
theorem Holds.need_add {disk : Disk} (h : Holds disk d c) {n1 : Nat} (hpos : 0 < n1)
    (hn1 : n1 ≤ (c.length / BSIZE + 1) * BSIZE - c.length) (hmax : c.length / BSIZE < MAXFILE) :
    need disk d (c.length / BSIZE) + blocksFor c.length = blocksFor (c.length + n1) := by
  have hblock := h.block_iff _ hmax
  have hind := h.ind_iff
  have hN : NDIRECT = 12 := rfl
  have hzero : fileBlock disk d (c.length / BSIZE) = 0 ↔ c.length % BSIZE = 0 := by
    rw [← not_iff_not, ← ne_eq, hblock]
    have := Nat.div_add_mod' c.length BSIZE
    omega
  have hzero' : d.ind = 0 ↔ c.length ≤ NDIRECT * BSIZE := by
    rw [← not_iff_not, ← ne_eq, hind, Nat.not_le]
  unfold need blocksFor
  have hfirst : (if fileBlock disk d (c.length / BSIZE) = 0 then 1 else 0)
      = if c.length % BSIZE = 0 then 1 else 0 := if_congr hzero rfl rfl
  have hsecond : (if NDIRECT ≤ c.length / BSIZE ∧ d.ind = 0 then 1 else 0)
      = if c.length = NDIRECT * BSIZE then 1 else 0 := by
    refine if_congr ?_ rfl rfl
    rw [hzero', hN, BSIZE_eq]
    omega
  rw [hfirst, hsecond]
  clear hfirst hsecond hzero hzero' hblock hind
  generalize c.length = len at *
  rw [hN, BSIZE_eq] at *
  split_ifs <;> omega

/-! ### One round of the loop -/

/-- What the loop of `iappend` has done after it has appended `p` to `c`. -/
structure Appended (m m' : DiskImage) (node : Nat → Dinode) (i : Nat) (c p : List UInt8)
    (din : Dinode) : Prop where
  work : Work m' (Function.update node i din)
  kept : Kept m m'
  addrs : ∃ as, din = (node i).withAddrs as
  holds : Holds (marked m') din (c ++ p)
  others : ∀ j, Live wide node j → j ≠ i → ∀ c', c'.length ≤ MAXFILE * BSIZE →
    Holds (marked m) (node j) c' → Holds (marked m') (node j) c'
  freeblock : m'.freeblock + blocksFor c.length = m.freeblock + blocksFor (c.length + p.length)

/-- There is room for `p` after `c`. -/
def AppendRoom (m : DiskImage) (c p : List UInt8) : Prop :=
  c.length + p.length ≤ MAXFILE * BSIZE ∧
  m.freeblock + blocksFor (c.length + p.length) ≤ FSSIZE + blocksFor c.length

/-- The bytes of a round are stored in the block that it has got. -/
theorem BlockGot.stored {q : List UInt8} {din : Dinode} {x : Nat}
    (h : BlockGot m m' node i (c.length / BSIZE) din x) (hi : Live wide node i)
    (hc : Holds (marked m) (node i) c) (hmax : c.length / BSIZE < MAXFILE) (hpos : 0 < q.length)
    (hq : q.length ≤ (c.length / BSIZE + 1) * BSIZE - c.length) :
    Appended m (put m' x (putBytes (m'.disk x) (c.length - c.length / BSIZE * BSIZE) q)) node i c q
      din := by
  have hi' : Live wide (Function.update node i din) i := (h.grown.live i).mpr hi
  have hself : Function.update node i din i = din := update_self ..
  obtain ⟨p, hp⟩ := ptrOf_isSome hmax
  have hptr : ptr (marked m') (Function.update node i din i) p = x := by
    rw [hself, ← fileBlock_of_ptrOf hp, h.block]
  have hne : ptr (marked m') (Function.update node i din i) p ≠ 0 := hptr.symm ▸ h.ne_zero
  have hrange := h.work.alloc.ptr_range hi' hne
  have hused := h.work.lt_freeblock hi' hne
  rw [hptr] at hrange hused
  rw [nmeta_wide] at hrange
  set buf := putBytes (m'.disk x) (c.length - c.length / BSIZE * BSIZE) q with hbuf
  have hmark : marked (put m' x buf) = Function.update (marked m') x buf :=
    marked_put m' (Nat.ne_of_gt hrange.1) buf
  have hsame : marked m' x = m'.disk x := marked_of_ne m' (Nat.ne_of_gt hrange.1)
  have halloc := h.work.alloc.write hi' (ptrOf_ne_ind hp) hne buf
  rw [hptr, ← hmark] at halloc
  -- no place changes, and a byte only in the block `x`
  have hblocks : ∀ j, Live wide (Function.update node i din) j → ∀ bn,
      fileBlock (marked (put m' x buf)) (Function.update node i din j) bn
        = fileBlock (marked m') (Function.update node i din j) bn := by
    intro j hj bn
    have hwrite := h.work.alloc.ptr_write hi' (ptrOf_ne_ind hp) buf hj
    rw [hptr, ← hmark] at hwrite
    unfold fileBlock
    cases ptrOf bn with
    | none => rfl
    | some q => exact hwrite q
  have hfile : fileBlock (marked m') (Function.update node i din i) (c.length / BSIZE) = x := by
    rw [hself, h.block]
  have hbyte : ∀ j, Live wide (Function.update node i din) j → ∀ y,
      fileBlock (marked m') (Function.update node i din j) (y / BSIZE) ≠ 0 →
      byteAt (marked (put m' x buf)) (Function.update node i din j) y
        = if j = i ∧ y / BSIZE = c.length / BSIZE then buf (y % BSIZE)
          else byteAt (marked m') (Function.update node i din j) y := by
    intro j hj y hy
    have hwrite := h.work.alloc.byteAt_write hi' (hfile.symm ▸ h.ne_zero) buf hj hy
    rwa [hfile, ← hmark] at hwrite
  refine ⟨⟨h.work.toSound.put hused buf, halloc⟩, h.kept.trans (kept_put m' hrange.1 buf), ?_, ?_,
    fun j hj hji c' hc' hold => ?_, ?_⟩
  · obtain ⟨as, has⟩ := h.grown.addrs
    refine ⟨as, ?_⟩
    have := congrFun has i
    rwa [update_self, update_self] at this
  · -- the new bytes are behind the old ones
    have hblocks' := hblocks i hi'
    have hbyte' := hbyte i hi'
    rw [hself] at hblocks' hbyte'
    have hblock_iff : ∀ bn, bn < MAXFILE →
        (fileBlock (marked m') din bn ≠ 0 ↔ bn * BSIZE < (c ++ q).length) := by
      intro bn hbn
      rw [length_append]
      by_cases heq : bn = c.length / BSIZE
      · subst heq
        rw [h.block]
        refine ⟨fun _ => ?_, fun _ => h.ne_zero⟩
        have := Nat.div_mul_le_self c.length BSIZE
        omega
      · rw [h.blocks bn heq, hc.block_iff bn hbn]
        rw [BSIZE_eq] at *
        omega
    refine ⟨fun bn hbn => ?_, ?_, fun y b hb => ?_⟩
    · rw [hblocks']
      exact hblock_iff bn hbn
    · rw [h.ind, hc.ind_iff, length_append]
      have hN : NDIRECT = 12 := rfl
      rw [BSIZE_eq, hN] at *
      omega
    · have hlt := (List.getElem?_eq_some_iff.mp hb).1
      have hthere : fileBlock (marked m') din (y / BSIZE) ≠ 0 := by
        refine (hblock_iff _ ?_).mpr ?_
        · rw [length_append] at hlt
          rw [BSIZE_eq] at *
          omega
        · rw [BSIZE_eq]
          omega
      have hmod := Nat.div_add_mod' y BSIZE
      have hmod' := Nat.div_add_mod' c.length BSIZE
      rw [hbyte' y hthere]
      by_cases hold : y < c.length
      · -- an old byte, perhaps in the same block
        rw [List.getElem?_append_left hold] at hb
        have hthere₀ : fileBlock (marked m) (node i) (y / BSIZE) ≠ 0 := by
          refine (hc.block_iff _ ?_).mpr ?_
          · exact Nat.lt_of_le_of_lt (Nat.div_le_div_right (Nat.le_of_lt hold)) hmax
          · omega
        have hgrown := h.grown.byteAt_eq hi hthere₀
        rw [hself, hc.bytes y b hb] at hgrown
        split
        · rename_i hin
          have hout : ¬ (c.length - c.length / BSIZE * BSIZE ≤ y % BSIZE ∧
              y % BSIZE < c.length - c.length / BSIZE * BSIZE + q.length) := by
            rw [← hin.2]
            omega
          rw [hbuf, putBytes, if_neg hout, ← hsame, ← hgrown, byteAt, hin.2, h.block]
        · exact hgrown
      · rw [List.getElem?_append_right (Nat.le_of_not_lt hold)] at hb
        have hlt' := (List.getElem?_eq_some_iff.mp hb).1
        have hdiv : y / BSIZE = c.length / BSIZE := by
          rw [BSIZE_eq] at *
          omega
        rw [hdiv] at hmod
        have hin : c.length - c.length / BSIZE * BSIZE ≤ y % BSIZE ∧
            y % BSIZE < c.length - c.length / BSIZE * BSIZE + q.length := by omega
        have hpos' : y % BSIZE - (c.length - c.length / BSIZE * BSIZE) = y - c.length := by omega
        rw [if_pos ⟨rfl, hdiv⟩, hbuf, putBytes, if_pos hin, hpos', getD_eq_getElem?_getD, hb,
          Option.getD_some]
  · have hj' := (h.grown.live j).mpr hj
    have hblocks' := hblocks j hj'
    have hbyte' := hbyte j hj'
    have hgrown : ∀ y, fileBlock (marked m) (node j) (y / BSIZE) ≠ 0 →
        fileBlock (marked m') (node j) (y / BSIZE) = fileBlock (marked m) (node j) (y / BSIZE) ∧
        byteAt (marked m') (node j) y = byteAt (marked m) (node j) y := by
      intro y hy
      have hblock := h.grown.fileBlock_eq hj hy
      have hbyte := h.grown.byteAt_eq hj hy
      rw [update_of_ne hji] at hblock hbyte
      exact ⟨hblock, hbyte⟩
    have hothers := h.grown.others j hj hji
    rw [update_of_ne hji] at hblocks' hbyte' hothers
    refine hold.congr hc' (fun bn => ?_) rfl fun y hy => ?_
    · rw [hblocks']
      unfold fileBlock
      cases ptrOf bn with
      | none => rfl
      | some p => exact hothers p
    · obtain ⟨hblock, hbyte⟩ := hgrown y hy
      rw [hbyte' y (hblock.symm ▸ hy), if_neg fun hin => hji hin.1, hbyte]
  · have hneed := hc.need_add hpos hq hmax
    have hfb := h.freeblock
    show m'.freeblock + _ = _
    omega

/-! ### `iappend` -/

theorem Appended.nil (h : Work m node) (hc : Holds (marked m) (node i) c) :
    Appended m m node i c [] (node i) where
  work := by rwa [update_eq_self]
  kept := .refl m
  addrs := ⟨_, rfl⟩
  holds := by rwa [append_nil]
  others _ _ _ _ _ h := h
  freeblock := rfl

/-- The rounds after the first one. -/
theorem Appended.trans {m₁ m₂ : DiskImage} {p q : List UInt8} {d' : Dinode}
    (h : Appended m m₁ node i c p d)
    (h' : Appended m₁ m₂ (Function.update node i d) i (c ++ p) q d') :
    Appended m m₂ node i c (p ++ q) d' where
  work := by
    have hwork := h'.work
    rwa [update_idem] at hwork
  kept := h.kept.trans h'.kept
  addrs := by
    obtain ⟨as, rfl⟩ := h.addrs
    obtain ⟨as', rfl⟩ := h'.addrs
    exact ⟨as', by rw [update_self]; rfl⟩
  holds := by
    rw [← append_assoc]
    exact h'.holds
  others j hj hji c' hc' hold := by
    have hnext := h'.others j ((live_update_of_ne hji).mpr hj) hji c' hc'
    rw [update_of_ne hji] at hnext
    exact hnext (h.others j hj hji c' hc' hold)
  freeblock := by
    have hfirst := h.freeblock
    have hnext := h'.freeblock
    rw [length_append] at hnext ⊢
    rw [← Nat.add_assoc]
    omega

theorem Appended.live {p : List UInt8} (h : Appended m m' node i c p d) (hi : Live wide node i) :
    Live wide (Function.update node i d) i := by
  obtain ⟨as, rfl⟩ := h.addrs
  exact (live_update_addrs i).mpr hi

/-- The loop of `iappend` adds its bytes to the file, or the image has no room for them. -/
theorem iappendLoop_spec :
    ∀ (rounds : Nat) (m : DiskImage) (node : Nat → Dinode) (c p : List UInt8),
    p.length ≤ rounds → Work m node → Live wide node i → Holds (marked m) (node i) c →
    c.length ≤ MAXFILE * BSIZE →
    wp (iappendLoop rounds (node i) c.length p)
      (fun r m' => r.2 = c.length + p.length ∧ c.length + p.length ≤ MAXFILE * BSIZE ∧
        Appended m m' node i c p r.1)
      (fun _ => ¬ AppendRoom m c p) m := by
  intro rounds
  induction rounds with
  | zero =>
    intro m node c p hp hw hi hc hmax
    obtain rfl := length_eq_zero_iff.mp (Nat.le_zero.mp hp)
    rw [iappendLoop, wp_pure]
    exact ⟨rfl, hmax, .nil hw hc⟩
  | succ rounds ih =>
    intro m node c p hp hw hi hc hmax
    rw [iappendLoop]
    refine wp_ite (fun hpos => ?_) fun hzero => ?_
    swap
    · obtain rfl := length_eq_zero_iff.mp (Nat.eq_zero_of_not_pos hzero)
      rw [wp_pure]
      exact ⟨rfl, hmax, .nil hw hc⟩
    refine wp_ite (fun hfbn => ?_) fun hfull => ?_
    swap
    · -- the file is full
      rw [wp_throw]
      rintro ⟨hfits, -⟩
      rw [BSIZE_eq] at *
      omega
    set n1 := min p.length ((c.length / BSIZE + 1) * BSIZE - c.length) with hn1
    have hn1pos : 0 < n1 := by
      rw [BSIZE_eq] at hn1
      omega
    have hlen : (p.take n1).length = n1 := length_take_of_le (by omega)
    have hrest : (p.drop n1).length = p.length - n1 := length_drop
    have hneed := hc.need_add hn1pos (by omega) hfbn
    have hmono : blocksFor (c.length + n1) ≤ blocksFor (c.length + p.length) :=
      blocksFor_mono (by omega)
    rw [wp_bind]
    refine wp_mono (iappendBlock_spec hw hi hfbn) ?_ fun e he hroom => ?_
    swap
    · have := hroom.2
      omega
    rintro ⟨din, x⟩ m₁ (⟨hle, hgot⟩ | ⟨hover, hout, hlt⟩)
    swap
    · -- the block is behind the end of the image
      dsimp only
      rw [wp_bind]
      refine wp_rsect hlt (fun hin => absurd hin (Nat.not_lt.mpr hout)) fun _ hroom => ?_
      have := hroom.2
      omega
    dsimp only
    have hi₁ : Live wide (Function.update node i din) i := (hgot.grown.live i).mpr hi
    have hx : x < FSSIZE := by
      obtain ⟨q, hq⟩ := ptrOf_isSome hfbn
      have hblock := hgot.block
      rw [fileBlock_of_ptrOf hq] at hblock
      have hrange := hgot.work.alloc.ptr_range hi₁ (p := q)
      rw [update_self, hblock] at hrange
      exact (hrange hgot.ne_zero).2
    have hsize : FSSIZE < 2 ^ 22 := by decide
    have hnsect := hgot.work.nsect
    rw [wp_bind]
    refine wp_rsect (by omega) (fun _ => ?_) fun hout => absurd hout (by omega)
    rw [wp_bind]
    refine wp_wsect (by omega) (by omega) ?_
    have hstored := hgot.stored (q := p.take n1) hi hc hfbn (by omega) (by omega)
    have hnext := ih _ (Function.update node i din) (c ++ p.take n1) (p.drop n1) (by omega)
      hstored.work (hstored.live hi) (by rw [update_self]; exact hstored.holds) ?_
    · rw [update_self, length_append, hlen] at hnext
      refine wp_mono hnext ?_ fun e he hroom => he ?_
      · rintro ⟨d', off⟩ m' ⟨hoff, hfits, happ⟩
        have hall := hstored.trans happ
        rw [take_append_drop] at hall
        exact ⟨by dsimp only at hoff ⊢; omega, by omega, hall⟩
      · have hfb := hstored.freeblock
        obtain ⟨hfits, hblocks⟩ := hroom
        refine ⟨by rw [length_append]; omega, ?_⟩
        have heq : c.length + n1 + (p.length - n1) = c.length + p.length := by omega
        rw [length_append, hlen, hrest, heq]
        rw [hlen] at hfb
        omega
    · rw [length_append, hlen]
      rw [BSIZE_eq] at *
      omega

end Xv6.Proofs.Mkfs
