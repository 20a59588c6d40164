import Xv6.Proofs.Fs.Flat
import Xv6.Proofs.Mkfs.Main

/-!
# `Xv6.Proofs.Mkfs.Image`: holes and overruns of the image

Two things can go wrong in `mkfs`. The size of the root directory is rounded up to the next multiple
of `BSIZE` even if it is one, and then the root has a block that was not allocated, so that a kernel
that reads it outside of a transaction panics (`mkfs_no_holes_iff`). And inode numbers are not
checked: with 199 files or more, they reach `ninodes` (`mkfs_within_layout_iff`). Blocks are:
`rsect` of a block behind the end of the image fails.
-/

set_option autoImplicit false

namespace Xv6.Proofs.Mkfs

open Lib Fs Xv6.Mkfs

variable {m m' : DiskImage} {files : List Input}

/-! ### Inode numbers -/

/-- The program gives out no inode. -/
def NoInode {α : Type} (x : MkfsM α) : Prop :=
  ∀ m, wp x (fun _ m' => m'.freeinode = m.freeinode) (fun _ => True) m

theorem NoInode.bind {α β : Type} {x : MkfsM α} {f : α → MkfsM β} (hx : NoInode x)
    (hf : ∀ a, NoInode (f a)) : NoInode (x >>= f) := by
  intro m
  rw [wp_bind]
  exact wp_post (hx m) fun a m₁ h₁ => wp_post (hf a m₁) fun _ _ h₂ => h₂.trans h₁

theorem NoInode.pure {α : Type} (a : α) : NoInode (Pure.pure a : MkfsM α) := fun _ => rfl

theorem NoInode.throw {α : Type} (e : Exit) : NoInode (MonadExcept.throw e : MkfsM α) :=
  fun _ => trivial

theorem NoInode.ite {α : Type} {p : Prop} [Decidable p] {x y : MkfsM α} (hx : NoInode x)
    (hy : NoInode y) : NoInode (if p then x else y) :=
  fun m => wp_ite (fun _ => hx m) fun _ => hy m

theorem noInode_wsect (sec : Nat) (buf : Block) : NoInode (wsect sec buf) := fun _ => rfl

theorem noInode_rsect (sec : Nat) : NoInode (rsect sec) := by
  intro m
  unfold rsect
  rw [wp_bind, wp_get]
  exact wp_ite (fun _ => rfl) fun _ => trivial

theorem noInode_nextBlock : NoInode nextBlock := fun _ => rfl

theorem noInode_winode (i : Nat) (d : Dinode) : NoInode (winode i d) :=
  (noInode_rsect _).bind fun _ => noInode_wsect _ _

theorem noInode_rinode (i : Nat) : NoInode (rinode i) :=
  (noInode_rsect _).bind fun _ => .pure _

theorem noInode_fillAddr (d : Dinode) (k : Fin (NDIRECT + 1)) : NoInode (fillAddr d k) :=
  .ite (noInode_nextBlock.bind fun _ => .pure _) (.pure _)

theorem noInode_iappendBlock (d : Dinode) (fbn : Nat) : NoInode (iappendBlock d fbn) := by
  unfold iappendBlock
  split
  · exact (noInode_fillAddr _ _).bind fun _ => .pure _
  · refine (noInode_fillAddr _ _).bind fun d' => (noInode_rsect _).bind fun _ => .ite ?_ (.pure _)
    exact noInode_nextBlock.bind fun _ => (noInode_wsect _ _).bind fun _ => .pure _

/-- The loop of `iappend` allocates no inode. -/
theorem noInode_iappendLoop : ∀ (rounds : Nat) (d : Dinode) (off : Nat) (p : List UInt8),
    NoInode (iappendLoop rounds d off p)
  | 0, _, _, _ => .pure _
  | rounds + 1, d, off, p => by
    rw [iappendLoop]
    refine .ite (.ite ?_ (.throw _)) (.pure _)
    refine (noInode_iappendBlock _ _).bind fun r => (noInode_rsect _).bind fun _ => ?_
    exact (noInode_wsect _ _).bind fun _ => noInode_iappendLoop rounds _ _ _

theorem noInode_iappend (i : Nat) (p : List UInt8) : NoInode (iappend i p) :=
  (noInode_rinode i).bind fun _ => (noInode_iappendLoop _ _ _ _).bind fun _ => noInode_winode _ _

theorem noInode_copyFile (i : Nat) : ∀ (rounds : Nat) (data : List UInt8),
    NoInode (copyFile i rounds data)
  | 0, _ => .pure _
  | rounds + 1, data => by
    rw [copyFile]
    exact .ite ((noInode_iappend _ _).bind fun _ => noInode_copyFile i rounds _) (.pure _)

theorem ialloc_freeinode (type : Nat) (m : DiskImage) :
    wp (ialloc type) (fun _ m' => m'.freeinode = m.freeinode + 1) (fun _ => True) m := by
  unfold ialloc
  rw [wp_bind, wp_get, wp_bind, wp_set, wp_bind]
  exact wp_post (noInode_winode _ _ _) fun _ _ h => h

/-- A file takes one inode. -/
theorem addFile_freeinode (f : Input) (m : DiskImage) :
    wp (addFile 1 f) (fun _ m' => m'.freeinode = m.freeinode + 1) (fun _ => True) m := by
  unfold addFile
  refine wp_ite (fun _ => trivial) fun _ => ?_
  cases f.data with
  | none => exact trivial
  | some data =>
    show wp (ialloc T_FILE >>= fun _ => _) _ _ m
    rw [wp_bind]
    refine wp_post (ialloc_freeinode T_FILE m) fun inum m₁ h₁ => ?_
    have hrest := (noInode_iappend 1 (entry inum (skipUnderscore (dropUser f.arg)))).bind
      fun _ => noInode_copyFile inum data.length data
    exact wp_post (hrest m₁) fun _ _ h => h.trans h₁

/-- `mkfs` allocates one inode for the root and one for each file. -/
theorem main_freeinode (files : List Input) :
    wp (main files) (fun _ m => m.freeinode = files.length + 2) (fun _ => True) start := by
  unfold main
  generalize hk : FSSIZE = k
  rw [wp_bind]
  refine wp_mono (zeroLoop_spec (Nat.le_of_eq hk.symm)) ?_ fun _ _ => trivial
  rintro - m₀ ⟨-, -, h₀, -, -⟩
  rw [wp_bind]
  refine wp_post (noInode_wsect 1 sbBlock m₀) fun _ m₁ h₁ => ?_
  rw [wp_bind]
  refine wp_post (ialloc_freeinode T_DIR m₁) fun r m₂ h₂ => ?_
  refine wp_ite (fun hroot => ?_) fun _ => trivial
  have hroot : r = 1 := hroot
  subst hroot
  rw [wp_bind]
  refine wp_post (noInode_iappend _ _ m₂) fun _ m₃ h₃ => ?_
  rw [wp_bind]
  refine wp_post (noInode_iappend _ _ m₃) fun _ m₄ h₄ => ?_
  have hloop := wp_forM (l := files) (f := addFile 1) (E := fun _ => True) (s := m₄)
    (I := fun rest m => m.freeinode + rest.length = files.length + 2) (by omega) ?_
  · rw [wp_bind]
    refine wp_post hloop fun _ m₅ h₅ => ?_
    rw [wp_bind]
    have hfix : NoInode (fixRoot 1) := (noInode_rinode 1).bind fun _ => noInode_winode _ _
    refine wp_post (hfix m₅) fun _ m₆ h₆ => ?_
    rw [wp_bind, wp_get]
    have hballoc : NoInode (balloc m₆.freeblock) := .ite (noInode_wsect _ _) (.throw _)
    exact wp_post (hballoc m₆) fun _ _ h₇ => (h₇.trans h₆).trans h₅
  · intro f rest m _ hm
    rw [List.length_cons] at hm
    exact wp_post (addFile_freeinode f m) fun _ m' h' => by omega

/-! ### Empty input files -/

/-- Empty files named `aa`, `ab` and so on. -/
def emptyFiles (n : Nat) : List Input :=
  (List.range n).map fun k =>
    { arg := [UInt8.ofNat (97 + k / 26), UInt8.ofNat (97 + k % 26)], data := some [] }

theorem emptyFiles_length (n : Nat) : (emptyFiles n).length = n := by
  rw [emptyFiles, List.length_map, List.length_range]

theorem emptyFiles_contents {n i : Nat} (hi : i ≠ 1) : contentsOf (emptyFiles n) i = [] := by
  rw [contentsOf, if_neg hi]
  split
  · rfl
  · unfold emptyFiles
    rw [List.getElem?_map]
    cases (List.range n)[i - 2]? <;> rfl

/-- Up to 199 empty files fit the image. -/
theorem emptyFiles_fits {n : Nat} (hn : n ≤ 199) : Fits (emptyFiles n) := by
  have hroot : (contentsOf (emptyFiles n) 1).length = 16 * (n + 2) := by
    rw [length_root, emptyFiles_length]
  have hMAX : MAXFILE = 268 := rfl
  refine ⟨fun f hf => ?_, fun j _ => ?_, ?_⟩
  · obtain ⟨k, hk, rfl⟩ := List.mem_map.mp hf
    have hletters : ∀ k < 199, (dropUser [UInt8.ofNat (97 + k / 26),
        UInt8.ofNat (97 + k % 26)]).contains 47 = false := by decide +kernel
    exact ⟨hletters k (Nat.lt_of_lt_of_le (List.mem_range.mp hk) hn), rfl⟩
  · by_cases hj : j = 1
    · rw [hj, hroot, hMAX, BSIZE_eq]
      omega
    · rw [emptyFiles_contents hj]
      exact Nat.zero_le _
  · -- only the root has blocks
    have hsum : total ((emptyFiles n).length + 2) (contentsOf (emptyFiles n))
        = blocksFor (16 * (n + 2)) := by
      rw [total, Finset.sum_eq_single 1, hroot]
      · intro j _ hj
        rw [emptyFiles_contents hj]
        rfl
      · intro hout
        exact absurd (Finset.mem_range.mpr (by omega)) hout
    have hmono : blocksFor (16 * (n + 2)) ≤ blocksFor (16 * 201) := blocksFor_mono (by omega)
    have hblocks : blocksFor (16 * 201) = 4 := by decide
    have hsize : FSSIZE = 1000 := rfl
    omega

/-- `mkfs` exits with an image if the files fit. -/
theorem main_returns (hfits : Fits files) (hlen : files.length + 2 ≤ 207) :
    ∃ m, (main files).run start = .ok ((), m) ∧ Written files m := by
  have hspec := wp_mono (main_spec hlen) (fun _ _ h => h) fun _ he => he hfits
  obtain ⟨⟨⟩, m, hrun, -, hwritten⟩ := wp_returns hspec
  exact ⟨m, hrun, hwritten⟩

/-! ### Holes -/

/-- Every inode has all blocks below its size. -/
def NoHoles (m : DiskImage) : Prop :=
  ∀ i, 1 ≤ i → i < m.freeinode → ∀ bn, bn * BSIZE < (dinodeOf sb m.disk i).size →
    fileBlock m.disk (dinodeOf sb m.disk i) bn ≠ 0

/-- The image has a hole exactly if the entries of the root directory fill its last block. -/
theorem Written.no_holes_iff (h : Written files m) :
    NoHoles m ↔ (files.length + 2) % 64 ≠ 0 := by
  have hMAX : MAXFILE = 268 := rfl
  have hone : 1 < files.length + 2 := by omega
  have hroot := h.holds 1 (Nat.le_refl 1) hone
  have hsize := h.size 1 (Nat.le_refl 1) hone
  have hlen := h.room.1 1 hone
  rw [if_pos rfl] at hsize
  have hlength := length_root files
  constructor
  · -- the block that the rounding adds
    intro hno hmod
    have hbelow : (contentsOf files 1).length / BSIZE * BSIZE < (dinodeOf wide m.disk 1).size := by
      rw [hsize, BSIZE_eq]
      omega
    refine hno 1 (Nat.le_refl 1) (by rw [h.freeinode]; exact hone) _ hbelow ?_
    by_cases hlt : (contentsOf files 1).length / BSIZE < MAXFILE
    · by_contra hne
      have := (hroot.block_iff _ hlt).mp hne
      rw [BSIZE_eq] at this
      omega
    · unfold fileBlock ptrOf
      have hN : NDIRECT = 12 := rfl
      have hI : NINDIRECT = 256 := rfl
      rw [dif_neg (by omega), dif_neg (by omega)]
      rfl
  · intro hmod i hi hn bn hbn
    rw [h.freeinode] at hn
    have hholds := h.holds i hi hn
    have hfits := h.room.1 i hn
    -- the last block is begun, so rounding up adds nothing
    have hlt : bn * BSIZE < (contentsOf files i).length := by
      have hbn : bn * BSIZE < (dinodeOf wide m.disk i).size := hbn
      rw [h.size i hi hn] at hbn
      by_cases hroot : i = 1
      · subst hroot
        rw [if_pos rfl] at hbn
        rw [BSIZE_eq] at *
        omega
      · rwa [if_neg hroot] at hbn
    refine (hholds.block_iff bn ?_).mpr hlt
    rw [BSIZE_eq] at *
    omega

/-- The kernel runs on the image: inodes in memory are as on disk, and no system call is inside of
a transaction. -/
structure Mounted (m : DiskImage) (s : Fs) : Prop where
  disk : s.disk = m.disk
  sb : s.sb = Xv6.Mkfs.sb
  idle : s.log.outstanding < 1
  inode : ∀ ip, Cached s ip → 1 ≤ (s.itable ip).inum ∧ (s.itable ip).inum < m.freeinode ∧
    (s.itable ip).toDinode = dinodeOf Xv6.Mkfs.sb m.disk (s.itable ip).inum

/-- `readi` neither panics nor changes the file system. -/
def ReadsOnly (m : DiskImage) : Prop :=
  ∀ s, Mounted m s → ∀ ip, Cached s ip → ∀ dst off n, off < 2 ^ 32 → n < 2 ^ 32 →
    ∃ r, (readi ip dst off n).run s = .ok (r, s)

/-- Reading an image without holes never makes `bmap` allocate, and a hole makes it panic. -/
theorem noHoles_iff_readsOnly : NoHoles m ↔ ReadsOnly m := by
  constructor
  · intro hno s hs ip hc dst off n hoff hn
    obtain ⟨hi, hlt, hnode⟩ := hs.inode ip hc
    have hfull : ∀ bn, bn * BSIZE < (s.itable ip).size →
        fileBlock s.disk (s.itable ip).toDinode bn ≠ 0 := by
      rw [hnode, hs.disk]
      exact hno _ hi hlt
    obtain ⟨r, s', hrun, rfl, -⟩ := wp_returns (x := readi ip dst off n) (readi_spec hfull hoff hn)
    exact ⟨r, hrun⟩
  · intro hreads i hi hlt bn hbn hnone
    -- only this inode is in the table
    let s : Fs :=
      { disk := m.disk, sb := sb, log := mkfsLog, writes := []
        itable := fun ip => { dinodeOf sb m.disk i with
          inum := i, ref := if ip = firstEntry then 1 else 0, locked := true, valid := true } }
    have hs : Mounted m s := ⟨rfl, rfl, show (0 : Int) < 1 by decide, fun _ _ => ⟨hi, hlt, rfl⟩⟩
    have hsize : (dinodeOf sb m.disk i).size < 2 ^ 32 := (fits_getDinode _ _).size
    obtain ⟨r, hrun⟩ := hreads s hs firstEntry ⟨Nat.zero_lt_one, rfl⟩ .kernel (bn * BSIZE) 1
      (by omega) (by decide)
    exact wp_ok (readi_outside hs.idle hbn hsize hnone) hrun

/-- The image has a hole exactly if the entries of the root fill its last block, and exactly then a
kernel that runs on it can panic in `readi`. -/
theorem mkfs_no_holes_iff (hfits : Fits files) (hlen : files.length + 2 ≤ NINODES) :
    ∃ m, (main files).run start = .ok ((), m) ∧ (NoHoles m ↔ (files.length + 2) % 64 ≠ 0) ∧
      (NoHoles m ↔ ReadsOnly m) := by
  have hN : NINODES = 200 := rfl
  obtain ⟨m, hrun, hwritten⟩ := main_returns hfits (by omega)
  exact ⟨m, hrun, hwritten.no_holes_iff, noHoles_iff_readsOnly⟩

/-- With 61 files, the entries of the root leave 16 bytes of its block. -/
theorem mkfs_no_holes_61 :
    ∃ m, (main (emptyFiles 61)).run start = .ok ((), m) ∧ NoHoles m ∧ ReadsOnly m := by
  have hlen : (emptyFiles 61).length = 61 := emptyFiles_length 61
  obtain ⟨m, hrun, hiff, hreads⟩ := mkfs_no_holes_iff (emptyFiles_fits (by decide : 61 ≤ 199))
    (by rw [hlen]; decide)
  have hno := hiff.mpr (by rw [hlen]; decide)
  exact ⟨m, hrun, hno, hreads.mp hno⟩

/-- With 62 files, the second block of the root directory is missing, and reading it panics. -/
theorem mkfs_root_hole : Fits (emptyFiles 62) ∧
    ∃ m, (main (emptyFiles 62)).run start = .ok ((), m) ∧ (dinodeOf sb m.disk 1).size = 2048 ∧
      fileBlock m.disk (dinodeOf sb m.disk 1) 1 = 0 ∧ ¬ ReadsOnly m := by
  have hfits := emptyFiles_fits (n := 62) (by decide)
  have hlen : (emptyFiles 62).length = 62 := emptyFiles_length 62
  obtain ⟨m, hrun, h⟩ := main_returns hfits (by omega)
  have hlength := length_root (emptyFiles 62)
  rw [hlen] at hlength
  refine ⟨hfits, m, hrun, ?_, ?_, fun hreads => ?_⟩
  · have hsize := h.size 1 (Nat.le_refl 1) (by omega)
    rwa [if_pos rfl, hlength] at hsize
  · by_contra hne
    have hlt := ((h.holds 1 (Nat.le_refl 1) (by omega)).block_iff 1 (by decide)).mp hne
    rw [hlength, BSIZE_eq] at hlt
    omega
  · exact h.no_holes_iff.mp (noHoles_iff_readsOnly.mpr hreads) (by rw [hlen])

/-! ### Overruns -/

/-- All that `mkfs` assigned, wrote and referenced is inside the layout of its superblock. -/
structure WithinLayout (m : DiskImage) : Prop where
  inums : ∀ i, 1 ≤ i → i < m.freeinode → i < sb.ninodes
  written : ∀ w ∈ m.written, w < sb.size
  referenced : ∀ i, 1 ≤ i → i < m.freeinode → ∀ p, ptr m.disk (dinodeOf sb m.disk i) p < sb.size
  stored : ∀ i, 1 ≤ i → i < m.freeinode → IBLOCK i sb < sb.bmapstart

/-- With at most 198 files the inodes stay in the blocks that the superblock gives them. -/
theorem Written.within_layout (h : Written files m) (hlen : files.length ≤ 198) :
    WithinLayout m where
  inums i hi hn := by
    have hN : sb.ninodes = 200 := rfl
    rw [h.freeinode] at hn
    omega
  written := h.written
  referenced i hi hn p := by
    rw [h.freeinode] at hn
    have hlive : Live wide (dinodeOf wide m.disk) i := by
      refine ⟨hi, show i < 207 by omega, ?_⟩
      rw [h.type i hi hn]
      split <;> decide
    show ptr m.disk (dinodeOf wide m.disk i) p < FSSIZE
    by_cases hzero : ptr m.disk (dinodeOf wide m.disk i) p = 0
    · rw [hzero]
      decide
    · have hrange := h.map.range (i, p)
      rw [refs_of_live hlive] at hrange
      exact (hrange hzero).2
  stored i hi hn := by
    rw [h.freeinode] at hn
    exact iblock_lt (by omega)

/-- An image that `mkfs` leaves is inside the layout exactly if there are at most 198 files: the
root is inode 1 and the last of `ninodes = 200` numbers is 199. Blocks need no condition, since
`rsect` fails behind the end of the image. -/
theorem mkfs_within_layout_iff (hrun : (main files).run start = .ok ((), m)) :
    WithinLayout m ↔ files.length ≤ 198 := by
  constructor
  · intro h
    have hfree := wp_ok (main_freeinode files) hrun
    have hlast := h.inums (files.length + 1) (by omega) (by omega)
    have hN : sb.ninodes = 200 := rfl
    omega
  · intro hlen
    have hfiles : files.length + 2 ≤ 207 := by omega
    exact (wp_ok (main_spec hfiles) hrun).2.within_layout hlen

/-- With 198 files, the last inode number is 199. -/
theorem mkfs_within_layout_198 :
    ∃ m, (main (emptyFiles 198)).run start = .ok ((), m) ∧ WithinLayout m := by
  have hlen : (emptyFiles 198).length = 198 := emptyFiles_length 198
  obtain ⟨m, hrun, -⟩ := main_returns (emptyFiles_fits (by decide : 198 ≤ 199)) (by omega)
  exact ⟨m, hrun, (mkfs_within_layout_iff hrun).mpr (Nat.le_of_eq hlen)⟩

/-- With 199 files, `mkfs` exits normally and has given out inode number 200. -/
theorem mkfs_inode_overrun :
    ∃ m, (main (emptyFiles 199)).run start = .ok ((), m) ∧ m.freeinode = 201 ∧
      sb.ninodes = 200 ∧ ¬ WithinLayout m := by
  have hlen : (emptyFiles 199).length = 199 := emptyFiles_length 199
  obtain ⟨m, hrun, h⟩ := main_returns (emptyFiles_fits (Nat.le_refl 199)) (by omega)
  have hfree := h.freeinode
  rw [hlen] at hfree
  refine ⟨m, hrun, hfree, rfl, fun hin => ?_⟩
  have hlast : 200 < 200 := hin.inums 200 (by decide) (by omega)
  omega

end Xv6.Proofs.Mkfs
