import Xv6.Proofs.Fs.Contents

/-!
# `Xv6.Proofs.Fs.Flat`: file systems whose files have one block each

A disk is built from a list of files: file `k` is inode `k + 1` and has the data block number
`k + 46`, and the blocks behind the last file are free. `flat_ok` says that every such disk, with
any of its inodes in the table, is a well-formed file system, and `flat_eff` which inodes it has.

The disk is written the way `mkfs` does it, one inode and one bit of the free map at a time.
-/

set_option autoImplicit false

namespace Xv6.Proofs

open Lib Fs

/-! ### Writing inodes and the free map -/

/-- Store the inodes `l`. -/
def putDinodes (sb : Superblock) (node : Nat → Dinode) (l : List Nat) (disk : Disk) : Disk :=
  l.foldl (fun disk i => Function.update disk (IBLOCK i sb)
    (putDinode (disk (IBLOCK i sb)) (dinodeOff i) (node i))) disk

/-- Mark the blocks `l`. -/
def markUsed (sb : Superblock) (l : List Nat) (disk : Disk) : Disk :=
  l.foldl (fun disk b => Function.update disk (BBLOCK b sb)
    (setBit (disk (BBLOCK b sb)) (b % BPB))) disk

variable {sb : Superblock}

/-- The inodes that are stored one after the other. -/
theorem dinodeOf_putDinodes {node : Nat → Dinode} (hfits : ∀ i, FieldsFit (node i)) (l : List Nat)
    (i : Nat) : ∀ disk, dinodeOf sb (putDinodes sb node l disk) i
      = if i ∈ l then node i else dinodeOf sb disk i := by
  induction l with
  | nil => simp [putDinodes]
  | cons j l ih =>
    intro disk
    have hstep := ih (Function.update disk (IBLOCK j sb)
      (putDinode (disk (IBLOCK j sb)) (dinodeOff j) (node j)))
    rw [dinodeOf_putDinode (hfits j)] at hstep
    rw [putDinodes, List.foldl_cons]
    refine hstep.trans ?_
    -- a later store of the same inode stores the same
    by_cases hij : i = j
    · simp [hij]
    · simp [hij]

/-- Storing inodes changes the blocks of the inodes only. -/
theorem putDinodes_of_ne {node : Nat → Dinode} {a : Nat} (l : List Nat) :
    ∀ disk, (∀ i ∈ l, a ≠ IBLOCK i sb) → putDinodes sb node l disk a = disk a := by
  induction l with
  | nil => simp [putDinodes]
  | cons j l ih =>
    intro disk hne
    rw [List.forall_mem_cons] at hne
    rw [putDinodes, List.foldl_cons]
    refine (ih _ hne.2).trans ?_
    rw [Function.update_of_ne hne.1]

/-- The blocks that are marked one after the other. -/
theorem mapBit_markUsed (l : List Nat) (b : Nat) :
    ∀ disk, mapBit sb (markUsed sb l disk) b = (decide (b ∈ l) || mapBit sb disk b) := by
  induction l with
  | nil => simp [markUsed]
  | cons c l ih =>
    intro disk
    have hstep := ih (Function.update disk (BBLOCK c sb) (setBit (disk (BBLOCK c sb)) (c % BPB)))
    rw [mapBit_setBit] at hstep
    rw [markUsed, List.foldl_cons]
    refine hstep.trans ?_
    by_cases hbc : b = c
    · simp [hbc]
    · simp [hbc]

theorem markUsed_of_ne {a : Nat} (l : List Nat) :
    ∀ disk, (∀ b ∈ l, a ≠ BBLOCK b sb) → markUsed sb l disk a = disk a := by
  induction l with
  | nil => simp [markUsed]
  | cons c l ih =>
    intro disk hne
    rw [List.forall_mem_cons] at hne
    rw [markUsed, List.foldl_cons]
    refine (ih _ hne.2).trans ?_
    rw [Function.update_of_ne hne.1]

/-! ### The disk of a list of files -/

structure FlatFile where
  type : Nat
  nlink : Nat
  data : List UInt8

/-- The layout of `mkfs`, with `spare` free blocks. -/
def flatSb (nfiles spare : Nat) : Superblock :=
  { magic := FSMAGIC, size := 46 + nfiles + spare, nblocks := nfiles + spare, ninodes := 200
    nlog := LOGSIZE, logstart := 2, inodestart := 32, bmapstart := 45 }

def flatNode (files : List FlatFile) (i : Nat) : Dinode :=
  if i = 0 then Dinode.zero
  else (files[i - 1]?).elim Dinode.zero fun f =>
    { type := f.type, major := 0, minor := 0, nlink := f.nlink, size := f.data.length
      addrs := fun k => if k.val = 0 then 45 + i else 0 }

/-- The data blocks. -/
def flatData (files : List FlatFile) : Disk := fun b o =>
  if b < 46 then 0 else ((files[b - 46]?).elim [] FlatFile.data).getD o 0

def flatDisk (files : List FlatFile) (spare : Nat) : Disk :=
  let sb := flatSb files.length spare
  putDinodes sb (flatNode files) (List.range' 1 files.length)
    (markUsed sb (List.range (46 + files.length)) (flatData files))

/-- The inodes of the list are in the table, each with one reference, and locked or not; a
transaction has begun. -/
def flat (files : List FlatFile) (spare : Nat) (entries : List (Nat × Bool)) : Fs where
  disk := flatDisk files spare
  sb := flatSb files.length spare
  log := { mkfsLog with outstanding := 1 }
  itable ip := (entries[ip.val]?).elim
    { Dinode.zero with inum := 0, ref := 0, locked := false, valid := false }
    fun e => { flatNode files e.1 with inum := e.1, ref := 1, locked := e.2, valid := true }
  writes := []

/-- `&itable.inode[0]` -/
def firstEntry : InodeId := ⟨0, by decide⟩

/-- The files can be stored that way. -/
structure FlatOk (files : List FlatFile) (spare : Nat) : Prop where
  spare : spare ≤ 1000
  length : files.length ≤ 199
  type : ∀ f ∈ files, f.type ≠ 0 ∧ f.type < 2 ^ 16
  nlink : ∀ f ∈ files, f.nlink < 2 ^ 16
  data : ∀ f ∈ files, f.data.length ≤ BSIZE

/-- The entries of the table. -/
structure EntriesOk (entries : List (Nat × Bool)) : Prop where
  nodup : (entries.map Prod.fst).Nodup
  range : ∀ e ∈ entries, 1 ≤ e.1 ∧ e.1 < 200

variable {files : List FlatFile} {spare : Nat} {entries : List (Nat × Bool)}

/-- The superblock of such a disk describes it. -/
theorem flat_layout (h : FlatOk files spare) :
    Layout (flatSb files.length spare) ∧ nmeta (flatSb files.length spare) = 46 := by
  have hlen := h.length
  have hspare := h.spare
  have hnmeta : nmeta (flatSb files.length spare) = 46 := by
    simp only [nmeta, flatSb, BPB_eq]
    omega
  refine ⟨⟨rfl, by simp [flatSb, IPB_eq], ?_, ?_, by simp [flatSb]⟩, hnmeta⟩
  · rw [hnmeta]
    simp only [flatSb]
    omega
  · simp only [flatSb]
    omega

/-- An inode of the list, or none. -/
theorem flatNode_cases (files : List FlatFile) (i : Nat) :
    (∃ k f, i = k + 1 ∧ files[k]? = some f ∧ flatNode files i =
      { type := f.type, major := 0, minor := 0, nlink := f.nlink, size := f.data.length
        addrs := fun k => if k.val = 0 then 45 + i else 0 }) ∨ flatNode files i = Dinode.zero := by
  cases i with
  | zero => exact .inr (if_pos rfl)
  | succ k =>
    unfold flatNode
    rw [if_neg (Nat.succ_ne_zero k), Nat.add_sub_cancel]
    cases hf : files[k]? with
    | none => exact .inr rfl
    | some f => exact .inl ⟨k, f, rfl, hf, rfl⟩

/-- The fields of its inodes fit their places on the disk. -/
theorem flatNode_fits (h : FlatOk files spare) (i : Nat) : FieldsFit (flatNode files i) := by
  rcases flatNode_cases files i with ⟨k, f, rfl, hf, hnode⟩ | hnode
  · obtain ⟨hk, -⟩ := List.getElem?_eq_some_iff.mp hf
    have hmem := List.mem_of_getElem? hf
    have hlen := h.length
    have hdata := h.data f hmem
    rw [hnode]
    refine ⟨(h.type f hmem).2, Nat.two_pow_pos 16, Nat.two_pow_pos 16, h.nlink f hmem, ?_,
      fun j => ?_⟩
    · exact Nat.lt_of_le_of_lt hdata (by decide)
    · dsimp only
      split <;> omega
  · rw [hnode]
    exact fits_zero (by decide)

/-- The inodes and the free map are what has been stored. -/
theorem flatDisk_dinode (h : FlatOk files spare) {i : Nat} (hi : i < 200) :
    dinodeOf (flatSb files.length spare) (flatDisk files spare) i = flatNode files i := by
  have hlayout := (flat_layout h).1
  unfold flatDisk
  rw [dinodeOf_putDinodes (flatNode_fits h)]
  split
  · rfl
  · -- the other inodes are never written
    rename_i hnot
    have hblock : IBLOCK i (flatSb files.length spare) < 46 := (flat_layout h).2 ▸
      hlayout.iblock_lt_nmeta (i := i) hi
    have hzero : markUsed (flatSb files.length spare) (List.range (46 + files.length))
        (flatData files) (IBLOCK i (flatSb files.length spare)) = fun _ => 0 := by
      rw [markUsed_of_ne _ _ fun b _ => hlayout.iblock_ne_bblock hi b]
      funext o
      exact if_pos hblock
    have hnode : flatNode files i = Dinode.zero := by
      rcases flatNode_cases files i with ⟨k, f, rfl, hf, -⟩ | hnode
      · obtain ⟨hk, -⟩ := List.getElem?_eq_some_iff.mp hf
        simp at hnot
        omega
      · exact hnode
    rw [dinodeOf, hzero, hnode]
    refine Dinode.ext ?_ ?_ ?_ ?_ ?_ (funext fun k => ?_) <;> exact getLE_zero _ _

/-- Its map marks the blocks up to the last file. -/
theorem flatDisk_map (h : FlatOk files spare) {b : Nat}
    (hb : b < 46 + files.length + spare) :
    mapBit (flatSb files.length spare) (flatDisk files spare) b
      = decide (b < 46 + files.length) := by
  have hlen := h.length
  have hspare := h.spare
  have hlayout := (flat_layout h).1
  have hblock : BBLOCK b (flatSb files.length spare) = 45 := by
    simp only [BBLOCK, flatSb, BPB_eq]
    omega
  unfold flatDisk
  rw [mapBit, putDinodes_of_ne]
  · rw [← mapBit, mapBit_markUsed]
    have hzero : mapBit (flatSb files.length spare) (flatData files) b = false := by
      rw [mapBit, hblock]
      simp [testBit, flatData]
    rw [hzero, Bool.or_false]
    simp
  · intro i hi
    have hi' : i < 200 := by
      simp at hi
      omega
    exact (hlayout.iblock_ne_bblock hi' b).symm

/-! ### It is well formed -/

/-- `addrs[0]` -/
def firstAddr : Fin (NDIRECT + 1) := ⟨0, Nat.succ_pos _⟩

/-- An allocated inode of it is one of the files, with one block. -/
theorem flat_live {i : Nat} : Live (flatSb files.length spare) (flatNode files) i →
    ∃ k f, i = k + 1 ∧ files[k]? = some f ∧ flatNode files i =
      { type := f.type, major := 0, minor := 0, nlink := f.nlink, size := f.data.length
        addrs := fun k => if k.val = 0 then 45 + i else 0 } := by
  rintro ⟨-, -, htype⟩
  rcases flatNode_cases files i with h | hnode
  · exact h
  · rw [hnode] at htype
    exact absurd rfl htype

/-- The one place of an inode that is in use. -/
theorem flat_ptr {disk : Disk} {i : Nat} {p : Ptr}
    (hi : Live (flatSb files.length spare) (flatNode files) i) :
    ptr disk (flatNode files i) p = if p = .addr firstAddr then 45 + i else 0 := by
  obtain ⟨k, f, rfl, hf, hnode⟩ := flat_live hi
  rw [hnode]
  cases p with
  | addr j =>
    rw [ptr_addr]
    by_cases hj : j = firstAddr
    · simp [hj, firstAddr]
    · have hval : j.val ≠ 0 := fun hz => hj (Fin.ext hz)
      simp [hj, hval]
  | entry j => simp [ptr_entry, Dinode.ind, NDIRECT]

/-- The blocks of such a disk are allocated as its map says. -/
theorem flat_alloc (h : FlatOk files spare) :
    AllocInv (flatSb files.length spare) (flatDisk files spare) (flatNode files) := by
  obtain ⟨hlayout, hnmeta⟩ := flat_layout h
  have hlen := h.length
  have href : ∀ q, refs (flatSb files.length spare) (flatDisk files spare) (flatNode files) q ≠ 0 →
      ∃ k f, q = (k + 1, .addr firstAddr) ∧ files[k]? = some f ∧
        refs (flatSb files.length spare) (flatDisk files spare) (flatNode files) q = 46 + k := by
    rintro ⟨i, p⟩ hq
    have hi := live_of_refs hq
    rw [refs_of_live hi, flat_ptr hi] at hq ⊢
    obtain ⟨k, f, rfl, hf, -⟩ := flat_live hi
    by_cases hp : p = .addr firstAddr
    · exact ⟨k, f, by rw [hp], hf, by rw [if_pos hp]; omega⟩
    · exact absurd (if_neg hp) hq
  refine ⟨⟨fun q hq => ?_, fun q q' hq heq => ?_, fun b hb => ?_⟩, fun i hi bn hbn => ?_,
    fun i hi => ?_⟩
  · obtain ⟨k, f, -, hf, hval⟩ := href q hq
    obtain ⟨hk, -⟩ := List.getElem?_eq_some_iff.mp hf
    rw [hval, hnmeta]
    simp only [flatSb]
    omega
  · obtain ⟨k, f, rfl, -, hval⟩ := href q hq
    obtain ⟨k', f', rfl, -, hval'⟩ := href q' (heq ▸ hq)
    obtain rfl : k = k' := by omega
    rfl
  · rw [flatDisk_map h hb, hnmeta, decide_eq_true_iff]
    constructor
    · -- a marked data block belongs to a file
      intro hlt
      by_cases hmeta : b < 46
      · exact .inl hmeta
      · obtain ⟨f, hf⟩ : ∃ f, files[b - 46]? = some f :=
          ⟨_, List.getElem?_eq_getElem (by omega : b - 46 < files.length)⟩
        have hlive : Live (flatSb files.length spare) (flatNode files) (b - 46 + 1) := by
          refine ⟨by omega, by simp only [flatSb]; omega, ?_⟩
          simp only [flatNode, Nat.succ_ne_zero, if_false, Nat.add_sub_cancel, hf, Option.elim_some]
          exact (h.type f (List.mem_of_getElem? hf)).1
        refine .inr ⟨(b - 46 + 1, .addr firstAddr), ?_⟩
        rw [refs_of_live hlive, flat_ptr hlive, if_pos rfl]
        omega
    · rintro (hlt | ⟨q, rfl, hq⟩)
      · omega
      · obtain ⟨k, f, -, hf, hval⟩ := href q hq
        obtain ⟨hk, -⟩ := List.getElem?_eq_some_iff.mp hf
        omega
  · obtain ⟨k, f, rfl, hf, hnode⟩ := flat_live hi
    have hdata := h.data f (List.mem_of_getElem? hf)
    have hsize : (flatNode files (k + 1)).size = f.data.length := by rw [hnode]
    rw [hsize] at hbn
    -- only the first block is below the size
    obtain rfl : bn = 0 := by
      unfold BSIZE at *
      omega
    have hfirst : ptrOf 0 = some (.addr firstAddr) := rfl
    rw [fileBlock_of_ptrOf hfirst, flat_ptr hi, if_pos rfl]
    omega
  · obtain ⟨k, f, rfl, hf, hnode⟩ := flat_live hi
    have hdata := h.data f (List.mem_of_getElem? hf)
    have hsize : (flatNode files (k + 1)).size = f.data.length := by rw [hnode]
    have hmax : BSIZE ≤ MAXFILE * BSIZE := by decide
    omega

/-- An entry of the table that is in use. -/
theorem flat_entry {ip : InodeId} (href : 0 < ((flat files spare entries).itable ip).ref) :
    ∃ e, entries[ip.val]? = some e ∧ (flat files spare entries).itable ip
      = { flatNode files e.1 with inum := e.1, ref := 1, locked := e.2, valid := true } := by
  simp only [flat] at href ⊢
  cases he : entries[ip.val]? with
  | none => simp [he] at href
  | some e => exact ⟨e, rfl, rfl⟩

section

variable (h : FlatOk files spare) (he : EntriesOk entries)
include h he

/-- Its table has one entry for an inode. -/
theorem flat_table : TableOk (flat files spare entries) := by
  refine ⟨fun ip jp hip hjp hinum => ?_, fun ip hip => ?_, fun ip hc => ?_⟩
  · obtain ⟨e, hi, heq⟩ := flat_entry hip
    obtain ⟨e', hj, heq'⟩ := flat_entry hjp
    rw [heq, heq'] at hinum
    have hi' : (entries.map Prod.fst)[ip.val]? = some e.1 := by simp [hi]
    have hj' : (entries.map Prod.fst)[jp.val]? = some e.1 := by
      rw [List.getElem?_map, hj]
      exact congrArg some hinum.symm
    obtain ⟨hlt, -⟩ := List.getElem?_eq_some_iff.mp hi'
    exact Fin.ext ((List.getElem?_inj hlt he.nodup).mp (hi'.trans hj'.symm))
  · obtain ⟨e, hi, heq⟩ := flat_entry hip
    rw [heq]
    exact he.range e (List.mem_of_getElem? hi)
  · obtain ⟨e, hi, heq⟩ := flat_entry hc.1
    rw [heq]
    exact flatNode_fits h e.1

/-- The files are what the file system sees. -/
theorem flat_eff : eff (flat files spare entries) = flatNode files := by
  refine eff_ext (flat_table h he) (fun i hi => ?_) (fun ip hc => ?_) fun i hi _ => ?_
  · have hlen := h.length
    have hi : 200 ≤ i := hi
    rcases flatNode_cases files i with ⟨k, f, rfl, hf, -⟩ | hnode
    · obtain ⟨hk, -⟩ := List.getElem?_eq_some_iff.mp hf
      omega
    · exact hnode
  · obtain ⟨e, -, heq⟩ := flat_entry hc.1
    rw [heq]
  · exact (flatDisk_dinode h hi).symm

theorem flat_ok : FsOk (flat files spare entries) := by
  refine ⟨(flat_layout h).1, flat_table h he, ?_⟩
  rw [flat_eff h he]
  exact flat_alloc h

end

/-! ### One file -/

/-- The panic that ends a run. -/
def panicOf {α : Type} : Except FsPanic α → Option FsPanic
  | .error e => some e
  | .ok _ => none

theorem panicOf_eq {α : Type} {r : Except FsPanic α} {e : FsPanic} (h : panicOf r = some e) :
    r = .error e := by
  cases r with
  | error e' => rw [Option.some.inj h]
  | ok a => cases h

/-- One file, open and locked, and `spare` free blocks. -/
def oneFile (data : List UInt8) (spare : Nat) : Fs :=
  flat [{ type := T_FILE, nlink := 1, data := data }] spare [(1, true)]

theorem oneFile_ok {data : List UInt8} (hdata : data.length ≤ BSIZE) (hspare : spare ≤ 1000) :
    FsOk (oneFile data spare) := by
  refine flat_ok ⟨hspare, ?_, ?_, ?_, ?_⟩ ⟨by decide, by decide⟩
  · simp
  · simp [T_FILE]
  · simp
  · simpa using hdata

theorem oneFile_cached (data : List UInt8) (spare : Nat) : Cached (oneFile data spare) firstEntry :=
  ⟨Nat.zero_lt_one, rfl⟩

theorem oneFile_live {data : List UInt8} (hdata : data.length ≤ BSIZE) (hspare : spare ≤ 1000) :
    Live (oneFile data spare).sb (eff (oneFile data spare))
      ((oneFile data spare).itable firstEntry).inum := by
  refine ⟨Nat.le_refl 1, show 1 < 200 by decide, ?_⟩
  rw [eff_cached (oneFile_ok hdata hspare).table (oneFile_cached data spare)]
  exact show T_FILE ≠ 0 by decide

/-- The state with `n` blocks in the log. -/
def busyLog (s : Fs) (n : Nat) : Fs :=
  { s with log := { s.log with lh := { n := n, block := fun t => 100 + t } } }

theorem busyLog_ok (s : Fs) (n : Nat) : HeaderOk (busyLog s n).log :=
  ⟨Int.natCast_nonneg n, fun _ _ _ _ h => Nat.add_left_cancel h⟩

end Xv6.Proofs
