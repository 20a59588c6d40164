import Xv6.Kernel.LogOps
import Xv6.Kernel.Vm
import Xv6.Lib.Bitmap

/-!
# `Xv6.Kernel.Fs`: the file system of `fs.c`

Blocks, inodes, directories and path names, as one process runs them. The disk is what the buffer
cache and the log make of it: a `bread` sees the last change of a block. So a block is changed in
place, and `log_write` is what it does to `struct log`, its panics included. `writes` lists the
blocks that `log_write` was called for.

There is one device, and `dev` is left out. The fields of an inode are the numbers that are stored:
16 bits for a `short`, 32 for an `uint`. A buffer is not locked here: a process never asks for one
that it holds, unless the file system is damaged. The lock of an inode is a flag, and a process that
would have to wait for it ends with `FsPanic.asleep`.

`readi` and `writei` copy to and from user memory or kernel buffers. What these copies do is the
argument: `Dest` says which of them succeed, `Source` also which bytes come.
-/

set_option autoImplicit false

namespace Xv6

open Lib

/-! ### Constants of `param.h`, `fs.h` and `stat.h` -/

def NINODE : Nat := 50
def BSIZE : Nat := 1024
def ROOTINO : Nat := 1
def FSMAGIC : Nat := 0x10203040
def NDIRECT : Nat := 12
/-- `BSIZE / sizeof(uint)` -/
def NINDIRECT : Nat := BSIZE / 4
def MAXFILE : Nat := NDIRECT + NINDIRECT
/-- `sizeof(struct dinode)` -/
def DINODE_SIZE : Nat := 64
/-- Inodes per block. -/
def IPB : Nat := BSIZE / DINODE_SIZE
/-- Bitmap bits per block. -/
def BPB : Nat := BSIZE * 8
def DIRSIZ : Nat := 14
/-- `sizeof(struct dirent)` -/
def DIRENT_SIZE : Nat := 16
def T_DIR : Nat := 1
def T_FILE : Nat := 2

/-! ### Structures -/

structure Superblock where
  magic : Nat
  size : Nat
  nblocks : Nat
  ninodes : Nat
  nlog : Nat
  logstart : Nat
  inodestart : Nat
  bmapstart : Nat
  deriving DecidableEq

/-- Block containing inode `i`. -/
def IBLOCK (i : Nat) (sb : Superblock) : Nat := i / IPB + sb.inodestart

/-- Block of the free map containing the bit for block `b`. -/
def BBLOCK (b : Nat) (sb : Superblock) : Nat := b / BPB + sb.bmapstart

/-- `struct dinode` -/
@[ext]
structure Dinode where
  type : Nat
  major : Nat
  minor : Nat
  nlink : Nat
  size : Nat
  addrs : Fin (NDIRECT + 1) → Nat

/-- All zero. -/
def Dinode.zero : Dinode :=
  { type := 0, major := 0, minor := 0, nlink := 0, size := 0, addrs := fun _ => 0 }

/-- `(struct dinode*)bp->data + inum%IPB` -/
def dinodeOff (inum : Nat) : Nat := inum % IPB * DINODE_SIZE

def getDinode (buf : Block) (off : Nat) : Dinode :=
  { type := getLE buf off 2, major := getLE buf (off + 2) 2, minor := getLE buf (off + 4) 2
    nlink := getLE buf (off + 6) 2, size := getLE buf (off + 8) 4
    addrs := fun k => getLE buf (off + 12 + 4 * k) 4 }

def Dinode.fields (d : Dinode) : List (Nat × Nat) :=
  [(2, d.type), (2, d.major), (2, d.minor), (2, d.nlink), (4, d.size)] ++
    (List.ofFn d.addrs).map fun a => (4, a)

def putDinode (buf : Block) (off : Nat) (d : Dinode) : Block := putFields buf off d.fields

/-- In-memory copy of an inode. -/
structure Inode extends Dinode where
  inum : Nat
  ref : Nat
  /-- `holdingsleep(&ip->lock)` -/
  locked : Bool
  /-- inode has been read from disk? -/
  valid : Bool

/-- A pointer into `itable`. -/
abbrev InodeId := Fin NINODE

inductive FsPanic where
  /-- "balloc: out of blocks" -/
  | outOfBlocks
  /-- "freeing free block" -/
  | freeingFree
  /-- "iget: no inodes" -/
  | iget
  | ilock
  /-- "ilock: no type" -/
  | noType
  | iunlock
  /-- "bmap: out of range" -/
  | bmap
  /-- "dirlookup not DIR" -/
  | notDir
  /-- "dirlookup read" -/
  | dirlookup
  /-- "dirlink read" -/
  | dirlinkRead
  | dirlink
  | log (e : LogPanic)
  /-- no panic of the source: the process sleeps, and nobody wakes it up -/
  | asleep
  deriving DecidableEq

/-- The file system, on disk and in memory. -/
structure Fs where
  disk : Disk
  sb : Superblock
  log : Log
  itable : InodeId → Inode
  writes : List Nat

abbrev FsM := StateT Fs (Except FsPanic)

namespace Fs

/-! ### The log -/

def log_write (b : Nat) : FsM Unit := fun s =>
  match s.log.logWrite b with
  | .error e => .error (.log e)
  | .ok (log, _) => .ok ((), { s with log := log, writes := s.writes ++ [b] })

/-- Change the data of a block. -/
def setBlock (b : Nat) (f : Block → Block) : FsM Unit :=
  modify fun s => { s with disk := Function.update s.disk b (f (s.disk b)) }

/-- Change the data of a block and `log_write` it. -/
def update (b : Nat) (f : Block → Block) : FsM Unit := do
  setBlock b f
  log_write b

/-! ### Blocks -/

/-- Zero a block. -/
def bzero (bno : Nat) : FsM Unit := update bno fun _ _ => 0

/-- The inner loop of `balloc`: the first free block of the map block for `b`. -/
def freeBit (buf : Block) (b size : Nat) : Option Nat :=
  (List.range (min BPB (size - b))).find? fun bi => testBit buf bi = false

/-- The outer loop, from `b` on. -/
def ballocLoop : (rounds b : Nat) → FsM Nat
  | 0, _ => throw .outOfBlocks
  | rounds + 1, b => do
    let s ← get
    if b < s.sb.size then
      match freeBit (s.disk (BBLOCK b s.sb)) b s.sb.size with
      | none => ballocLoop rounds (b + BPB)
      | some bi =>
        update (BBLOCK b s.sb) fun buf => setBit buf bi
        bzero (b + bi)
        return b + bi
    else throw .outOfBlocks

/-- Allocate a zeroed disk block. -/
def balloc : FsM Nat := do
  ballocLoop ((← get).sb.size / BPB + 1) 0

def bfree (b : Nat) : FsM Unit := do
  let s ← get
  let bi := b % BPB
  if testBit (s.disk (BBLOCK b s.sb)) bi = false then throw .freeingFree
  else update (BBLOCK b s.sb) fun buf => clearBit buf bi

/-! ### Inodes -/

def modifyInode (ip : InodeId) (f : Inode → Inode) : FsM Unit :=
  modify fun s => { s with itable := Function.update s.itable ip (f (s.itable ip)) }

/-- The dinode of `inum` on disk. -/
def dinode (s : Fs) (inum : Nat) : Dinode := getDinode (s.disk (IBLOCK inum s.sb)) (dinodeOff inum)

/-- Find the inode in the table or make an entry for it. -/
def iget (inum : Nat) : FsM InodeId := do
  let s ← get
  match (List.finRange NINODE).find? fun ip =>
      0 < (s.itable ip).ref ∧ (s.itable ip).inum = inum with
  | some ip =>
    modifyInode ip fun i => { i with ref := i.ref + 1 }
    return ip
  | none =>
    match (List.finRange NINODE).find? fun ip => (s.itable ip).ref = 0 with
    | none => throw .iget
    | some ip =>
      modifyInode ip fun i => { i with inum := inum, ref := 1, valid := false }
      return ip

def idup (ip : InodeId) : FsM Unit := modifyInode ip fun i => { i with ref := i.ref + 1 }

/-- Copy a modified in-memory inode to disk. -/
def iupdate (ip : InodeId) : FsM Unit := do
  let s ← get
  let i := s.itable ip
  update (IBLOCK i.inum s.sb) fun buf => putDinode buf (dinodeOff i.inum) i.toDinode

def ilock (ip : InodeId) : FsM Unit := do
  let s ← get
  let i := s.itable ip
  if i.ref < 1 then throw .ilock
  else if i.locked then throw .asleep
  else if i.valid then modifyInode ip fun i => { i with locked := true }
  else do
    let d := dinode s i.inum
    modifyInode ip fun i => { i with toDinode := d, locked := true, valid := true }
    if d.type = 0 then throw .noType else pure ()

def iunlock (ip : InodeId) : FsM Unit := do
  let i := (← get).itable ip
  if i.locked = false ∨ i.ref < 1 then throw .iunlock
  else modifyInode ip fun i => { i with locked := false }

def setAddr (ip : InodeId) (k : Fin (NDIRECT + 1)) (a : Nat) : FsM Unit :=
  modifyInode ip fun i => { i with addrs := Function.update i.addrs k a }

/-! ### Contents -/

/-- `if((addr = ip->addrs[k]) == 0) ip->addrs[k] = addr = balloc(ip->dev)` -/
def getAddr (ip : InodeId) (k : Fin (NDIRECT + 1)) : FsM Nat := do
  let addr := ((← get).itable ip).addrs k
  if addr = 0 then do
    let addr ← balloc
    setAddr ip k addr
    return addr
  else return addr

/-- Entry `j` of an indirect block. -/
def indirectEntry (buf : Block) (j : Nat) : Nat := getLE buf (4 * j) 4

/-- The address of block `bn` of the inode, allocated if there is none. -/
def bmap (ip : InodeId) (bn : Nat) : FsM Nat :=
  if h : bn < NDIRECT then getAddr ip ⟨bn, Nat.lt_succ_of_lt h⟩
  else if bn - NDIRECT < NINDIRECT then do
    let ind ← getAddr ip (Fin.last NDIRECT)
    let addr := indirectEntry ((← get).disk ind) (bn - NDIRECT)
    if addr = 0 then do
      let addr ← balloc
      update ind fun buf => putLE buf (4 * (bn - NDIRECT)) 4 addr
      return addr
    else return addr
  else throw .bmap

/-- Truncate inode (discard contents). -/
def itrunc (ip : InodeId) : FsM Unit := do
  (List.finRange NDIRECT).forM fun k => do
    let a := ((← get).itable ip).addrs k.castSucc
    if a ≠ 0 then do
      bfree a
      setAddr ip k.castSucc 0
    else pure ()
  let s ← get
  let ind := (s.itable ip).addrs (Fin.last NDIRECT)
  if ind ≠ 0 then do
    let buf := s.disk ind
    (List.range NINDIRECT).forM fun j =>
      if indirectEntry buf j ≠ 0 then bfree (indirectEntry buf j) else pure ()
    bfree ind
    setAddr ip (Fin.last NDIRECT) 0
  else pure ()
  modifyInode ip fun i => { i with size := 0 }
  iupdate ip

/-- Drop a reference. -/
def iput (ip : InodeId) : FsM Unit := do
  let i := (← get).itable ip
  if i.ref = 1 ∧ i.valid = true ∧ i.nlink = 0 then
    -- acquiresleep
    if i.locked then throw .asleep
    else do
      modifyInode ip fun i => { i with locked := true }
      itrunc ip
      modifyInode ip fun i => { i with type := 0 }
      iupdate ip
      modifyInode ip fun i => { i with valid := false, locked := false }
      modifyInode ip fun i => { i with ref := i.ref - 1 }
  else modifyInode ip fun i => { i with ref := i.ref - 1 }

def iunlockput (ip : InodeId) : FsM Unit := do
  iunlock ip
  iput ip

/-- Which of the copies of `m` bytes to position `tot` of the destination succeed. -/
abbrev Dest := (tot m : Nat) → Bool

/-- A kernel buffer. -/
def Dest.kernel : Dest := fun _ _ => true

/-- `either_copyin` of `m` bytes from position `tot` of the source: the bytes that are stored, and
whether it succeeds. -/
structure Source where
  copy : (tot m : Nat) → List UInt8 × Bool
  length_le : ∀ tot m, (copy tot m).1.length ≤ m
  length_eq : ∀ tot m, (copy tot m).2 = true → (copy tot m).1.length = m

/-- A source whose copies all succeed. -/
def Source.ofFn (f : Nat → UInt8) : Source where
  copy tot m := ((List.range m).map fun i => f (tot + i), true)
  length_le := by simp
  length_eq := by simp

/-- A kernel buffer. -/
def Source.kernel (bs : List UInt8) : Source := .ofFn fun i => bs.getD i 0

/-- The bytes that are copied, and `tot` in the end. Every round copies at least one byte. -/
def readiLoop (ip : InodeId) (dst : Dest) : (rounds off tot n : Nat) → FsM (List UInt8 × Int)
  | 0, _, tot, _ => return ([], tot)
  | rounds + 1, off, tot, n =>
    if tot < n then do
      let b ← bmap ip (off / BSIZE)
      let m := min (n - tot) (BSIZE - off % BSIZE)
      let bs := getBytes ((← get).disk b) (off % BSIZE) m
      if dst tot m then do
        let (more, r) ← readiLoop ip dst rounds (off + m) (tot + m) n
        return (bs ++ more, r)
      else return ([], -1)
    else return ([], tot)

/-- Read data from inode; `off` and `n` are `uint`. -/
def readi (ip : InodeId) (dst : Dest) (off n : Nat) : FsM (List UInt8 × Int) := do
  let size := ((← get).itable ip).size
  if size < off ∨ (off + n) % 2 ^ 32 < off then return ([], 0)
  else
    let n := if size < (off + n) % 2 ^ 32 then size - off else n
    readiLoop ip dst n off 0 n

/-- `off` and `tot` in the end. Every round copies at least one byte. -/
def writeiLoop (ip : InodeId) (src : Source) : (rounds off tot n : Nat) → FsM (Nat × Nat)
  | 0, off, tot, _ => return (off, tot)
  | rounds + 1, off, tot, n =>
    if tot < n then do
      let b ← bmap ip (off / BSIZE)
      let m := min (n - tot) (BSIZE - off % BSIZE)
      let c := src.copy tot m
      -- a copy that fails may have stored some bytes
      setBlock b fun buf => putBytes buf (off % BSIZE) c.1
      if c.2 then do
        log_write b
        writeiLoop ip src rounds (off + m) (tot + m) n
      else return (off, tot)
    else return (off, tot)

/-- Write data to inode; `off` and `n` are `uint`. -/
def writei (ip : InodeId) (src : Source) (off n : Nat) : FsM Int := do
  let size := ((← get).itable ip).size
  if size < off ∨ (off + n) % 2 ^ 32 < off then return -1
  else if MAXFILE * BSIZE < (off + n) % 2 ^ 32 then return -1
  else do
    let (off, tot) ← writeiLoop ip src n off 0 n
    modifyInode ip fun i => { i with size := if i.size < off then off else i.size }
    iupdate ip
    return tot

/-! ### Directories -/

/-- `strncmp(p, q, n) == 0`; a string ends with 0 or with its list. -/
def strncmp : (n : Nat) → (p q : List UInt8) → Bool
  | 0, _, _ => true
  | n + 1, p, q =>
    if p.headD 0 ≠ 0 ∧ p.headD 0 = q.headD 0 then strncmp n p.tail q.tail
    else p.headD 0 = q.headD 0

/-- `namecmp(s, t) == 0` -/
def namecmp (s t : List UInt8) : Bool := strncmp DIRSIZ s t

/-- `strncpy` into a buffer of `n` bytes. -/
def strncpy (n : Nat) (t : List UInt8) : List UInt8 :=
  let s := (t.takeWhile (· ≠ 0)).take n
  s ++ List.replicate (n - s.length) 0

/-- `struct dirent` -/
structure Dirent where
  inum : Nat
  name : List UInt8

def getDirent (bs : List UInt8) : Dirent :=
  { inum := getLE (fun i => bs.getD i 0) 0 2, name := (bs.drop 2).take DIRSIZ }

/-- The bytes of an entry; `inum` is an `ushort`. -/
def Dirent.bytes (de : Dirent) : List UInt8 :=
  [UInt8.ofNat de.inum, UInt8.ofNat (de.inum / 256)] ++ de.name

/-- The loop of `dirlookup`, from `off` on. -/
def dirlookupLoop (dp : InodeId) (name : List UInt8) :
    (rounds off : Nat) → FsM (Option (InodeId × Nat))
  | 0, _ => return none
  | rounds + 1, off => do
    if off < ((← get).itable dp).size then do
      let (bs, r) ← readi dp .kernel off DIRENT_SIZE
      if r ≠ DIRENT_SIZE then throw .dirlookup
      else
        let de := getDirent bs
        if de.inum = 0 then dirlookupLoop dp name rounds (off + DIRENT_SIZE)
        else if namecmp name de.name then do
          let ip ← iget de.inum
          return some (ip, off)
        else dirlookupLoop dp name rounds (off + DIRENT_SIZE)
    else return none

/-- Rounds for all entries of a directory. -/
def direntRounds (size : Nat) : Nat := size / DIRENT_SIZE + 1

/-- Look for a directory entry; the inode and the byte offset of the entry. -/
def dirlookup (dp : InodeId) (name : List UInt8) : FsM (Option (InodeId × Nat)) := do
  let i := (← get).itable dp
  if i.type ≠ T_DIR then throw .notDir
  else dirlookupLoop dp name (direntRounds i.size) 0

/-- Look for an empty entry, from `off` on. -/
def emptyLoop (dp : InodeId) : (rounds off : Nat) → FsM Nat
  | 0, off => return off
  | rounds + 1, off => do
    if off < ((← get).itable dp).size then do
      let (bs, r) ← readi dp .kernel off DIRENT_SIZE
      if r ≠ DIRENT_SIZE then throw .dirlinkRead
      else if (getDirent bs).inum = 0 then return off
      else emptyLoop dp rounds (off + DIRENT_SIZE)
    else return off

/-- Write a new directory entry. -/
def dirlink (dp : InodeId) (name : List UInt8) (inum : Nat) : FsM Int := do
  match ← dirlookup dp name with
  | some (ip, _) =>
    iput ip
    return -1
  | none =>
    let off ← emptyLoop dp (direntRounds ((← get).itable dp).size) 0
    let de : Dirent := { inum := inum, name := strncpy DIRSIZ name }
    if (← writei dp (.kernel de.bytes) off DIRENT_SIZE) ≠ DIRENT_SIZE then throw .dirlink
    else return 0

/-! ### Paths -/

/-- `'/'` -/
def slash : UInt8 := 47

/-- The next path element, and the path after it. -/
def skipelem (path : List UInt8) : Option (List UInt8 × List UInt8) :=
  let path := path.dropWhile (· = slash)
  if path = [] then none
  else some ((path.takeWhile (· ≠ slash)).take DIRSIZ,
    (path.dropWhile (· ≠ slash)).dropWhile (· = slash))

def pathElemsLoop : (rounds : Nat) → (path : List UInt8) → List (List UInt8)
  | 0, _ => []
  | rounds + 1, path =>
    match skipelem path with
    | none => []
    | some (name, path) => name :: pathElemsLoop rounds path

/-- The names that `skipelem` gives one after the other. -/
def pathElems (path : List UInt8) : List (List UInt8) := pathElemsLoop path.length path

/-- The loop of `namex` over the path elements. -/
def namexLoop (parent : Bool) : (names : List (List UInt8)) → (ip : InodeId) → FsM (Option InodeId)
  | [], ip => do
    if parent then do
      iput ip
      return none
    else return some ip
  | name :: names, ip => do
    ilock ip
    if ((← get).itable ip).type ≠ T_DIR then do
      iunlockput ip
      return none
    else if parent && names.isEmpty then do
      -- Stop one level early.
      iunlock ip
      return some ip
    else
      match ← dirlookup ip name with
      | none =>
        iunlockput ip
        return none
      | some (next, _) =>
        iunlockput ip
        namexLoop parent names next

/-- Look up the inode for a path, or for its parent. -/
def namex (cwd : InodeId) (path : List UInt8) (parent : Bool) : FsM (Option InodeId) := do
  if path.head? = some slash then do
    let ip ← iget ROOTINO
    namexLoop parent (pathElems path) ip
  else do
    idup cwd
    namexLoop parent (pathElems path) cwd

def namei (cwd : InodeId) (path : List UInt8) : FsM (Option InodeId) := namex cwd path false

/-- The parent, and the last path element. -/
def nameiparent (cwd : InodeId) (path : List UInt8) : FsM (Option (InodeId × List UInt8)) := do
  match ← namex cwd path true with
  | none => return none
  | some dp => return some (dp, (pathElems path).getLastD [])

/-- `((MAXOPBLOCKS-1-1-2) / 2) * BSIZE`, the bytes that `filewrite` passes to `writei` at once. -/
def FILEWRITE_MAX : Nat := (MAXOPBLOCKS - 1 - 1 - 2) / 2 * BSIZE

end Fs

end Xv6
