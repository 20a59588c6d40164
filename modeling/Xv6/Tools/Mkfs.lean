import Xv6.Kernel.Fs

/-!
# `Xv6.Tools.Mkfs`: the program `mkfs` that builds the file system image

`mkfs` runs on the host. It writes `FSSIZE` zeroed sectors, and then appends to inodes: a directory
entry of each input file to the root, and the bytes of the file to an inode of its own. Inode
numbers and blocks come from the counters `freeinode` and `freeblock`.

The image is a file. `rsect` of a sector behind its end gets no bytes, and `mkfs` dies. All other
calls of the host succeed, except `open` of an input file. `written` lists the sectors that were
written.
-/

set_option autoImplicit false

namespace Xv6.Mkfs

open Lib Fs

def FSSIZE : Nat := 1000
def NINODES : Nat := 200

def nbitmap : Nat := FSSIZE / (BSIZE * 8) + 1
def ninodeblocks : Nat := NINODES / IPB + 1
def nlog : Nat := LOGSIZE
/-- Number of meta blocks (boot, sb, nlog, inode, bitmap). -/
def nmeta : Nat := 2 + nlog + ninodeblocks + nbitmap
/-- Number of data blocks. -/
def nblocks : Nat := FSSIZE - nmeta

def sb : Superblock :=
  { magic := FSMAGIC, size := FSSIZE, nblocks := nblocks, ninodes := NINODES, nlog := nlog
    logstart := 2, inodestart := 2 + nlog, bmapstart := 2 + nlog + ninodeblocks }

inductive Exit where
  /-- `die` -/
  | die
  | assert
  deriving DecidableEq

/-- The image file and the counters. -/
structure DiskImage where
  disk : Disk
  /-- The length of the file in sectors. -/
  nsect : Nat
  freeinode : Nat
  freeblock : Nat
  written : List Nat

abbrev MkfsM := StateT DiskImage (Except Exit)

/-- An input file: the argument, and what it holds if it can be opened. -/
structure Input where
  arg : List UInt8
  data : Option (List UInt8)

/-! ### Sectors -/

/-- The sector at `sec * BSIZE`; the product is an `uint`. -/
def seek (sec : Nat) : Nat := sec * BSIZE % 2 ^ 32 / BSIZE

def wsect (sec : Nat) (buf : Block) : MkfsM Unit :=
  modify fun m => { m with
    disk := Function.update m.disk (seek sec) buf
    nsect := max m.nsect (seek sec + 1)
    written := m.written ++ [seek sec] }

def rsect (sec : Nat) : MkfsM Block := do
  let m ← get
  if seek sec < m.nsect then return m.disk (seek sec) else throw .die

def zeroes : Block := fun _ => 0

/-- `freeblock++` -/
def nextBlock : MkfsM Nat := do
  let m ← get
  set { m with freeblock := m.freeblock + 1 }
  return m.freeblock

/-! ### Inodes -/

def winode (inum : Nat) (ip : Dinode) : MkfsM Unit := do
  let buf ← rsect (IBLOCK inum sb)
  wsect (IBLOCK inum sb) (putDinode buf (dinodeOff inum) ip)

def rinode (inum : Nat) : MkfsM Dinode := do
  return getDinode (← rsect (IBLOCK inum sb)) (dinodeOff inum)

def ialloc (type : Nat) : MkfsM Nat := do
  let m ← get
  set { m with freeinode := m.freeinode + 1 }
  winode m.freeinode { Dinode.zero with type := type, nlink := 1 }
  return m.freeinode

/-- `if(din.addrs[k] == 0) din.addrs[k] = freeblock++;` -/
def fillAddr (din : Dinode) (k : Fin (NDIRECT + 1)) : MkfsM Dinode :=
  if din.addrs k = 0 then do
    let x ← nextBlock
    return { din with addrs := Function.update din.addrs k x }
  else return din

/-- The block of index `fbn`, allocated if there is none. -/
def iappendBlock (din : Dinode) (fbn : Nat) : MkfsM (Dinode × Nat) :=
  if h : fbn < NDIRECT then do
    let din ← fillAddr din ⟨fbn, Nat.lt_succ_of_lt h⟩
    return (din, din.addrs ⟨fbn, Nat.lt_succ_of_lt h⟩)
  else do
    let din ← fillAddr din (Fin.last NDIRECT)
    let indirect ← rsect (din.addrs (Fin.last NDIRECT))
    if indirectEntry indirect (fbn - NDIRECT) = 0 then do
      let x ← nextBlock
      let indirect := putLE indirect (4 * (fbn - NDIRECT)) 4 x
      wsect (din.addrs (Fin.last NDIRECT)) indirect
      return (din, indirectEntry indirect (fbn - NDIRECT))
    else return (din, indirectEntry indirect (fbn - NDIRECT))

/-- The loop of `iappend`; `p` are the bytes that are still to come. -/
def iappendLoop : (rounds : Nat) → (din : Dinode) → (off : Nat) → (p : List UInt8) →
    MkfsM (Dinode × Nat)
  | 0, din, off, _ => return (din, off)
  | rounds + 1, din, off, p =>
    if 0 < p.length then
      if off / BSIZE < MAXFILE then do
        let (din, x) ← iappendBlock din (off / BSIZE)
        let n1 := min p.length ((off / BSIZE + 1) * BSIZE - off)
        let buf ← rsect x
        wsect x (putBytes buf (off - off / BSIZE * BSIZE) (p.take n1))
        iappendLoop rounds din (off + n1) (p.drop n1)
      else throw .assert
    else return (din, off)

def iappend (inum : Nat) (p : List UInt8) : MkfsM Unit := do
  let din ← rinode inum
  let (din, off) ← iappendLoop p.length din din.size p
  winode inum { din with size := off }

/-! ### The free map -/

/-- The bits of the first `used` blocks. -/
def firstBits (used : Nat) : Block := (List.range used).foldl setBit zeroes

def balloc (used : Nat) : MkfsM Unit :=
  if used < BSIZE * 8 then wsect sb.bmapstart (firstBits used) else throw .assert

/-! ### `main` -/

/-- The superblock as it is stored. -/
def sbBlock : Block :=
  putFields zeroes 0 [(4, sb.magic), (4, sb.size), (4, sb.nblocks), (4, sb.ninodes), (4, sb.nlog),
    (4, sb.logstart), (4, sb.inodestart), (4, sb.bmapstart)]

/-- `"user/"` -/
def userDir : List UInt8 := [117, 115, 101, 114, 47]

/-- get rid of "user/" -/
def dropUser (arg : List UInt8) : List UInt8 := if strncmp 5 arg userDir then arg.drop 5 else arg

/-- Skip leading _ in name when writing to file system. -/
def skipUnderscore (shortname : List UInt8) : List UInt8 :=
  if shortname.head? = some 95 then shortname.drop 1 else shortname

/-- A directory entry; `xshort` cuts the number to 16 bits. -/
def entry (inum : Nat) (name : List UInt8) : List UInt8 :=
  Dirent.bytes { inum := inum, name := strncpy DIRSIZ name }

/-- `while((cc = read(fd, buf, sizeof(buf))) > 0) iappend(inum, buf, cc);` -/
def copyFile (inum : Nat) : (rounds : Nat) → (data : List UInt8) → MkfsM Unit
  | 0, _ => return ()
  | rounds + 1, data =>
    if 0 < data.length then do
      iappend inum (data.take BSIZE)
      copyFile inum rounds (data.drop BSIZE)
    else return ()

/-- The round of `main` for one input file. -/
def addFile (rootino : Nat) (f : Input) : MkfsM Unit :=
  let shortname := dropUser f.arg
  if shortname.contains 47 then throw .assert
  else
    match f.data with
    | none => throw .die
    | some data => do
      let inum ← ialloc T_FILE
      iappend rootino (entry inum (skipUnderscore shortname))
      copyFile inum data.length data

/-- fix size of root inode dir -/
def fixRoot (rootino : Nat) : MkfsM Unit := do
  let din ← rinode rootino
  winode rootino { din with size := (din.size / BSIZE + 1) * BSIZE }

-- irreducible: no proof should run the loop over all sectors
@[irreducible]
def main (files : List Input) : MkfsM Unit := do
  (List.range FSSIZE).forM fun i => wsect i zeroes
  wsect 1 sbBlock
  let rootino ← ialloc T_DIR
  if rootino = ROOTINO then do
    iappend rootino (entry rootino [46])
    iappend rootino (entry rootino [46, 46])
    files.forM (addFile rootino)
    fixRoot rootino
    balloc (← get).freeblock
  else throw .assert

/-- Before `main`: the image is empty. -/
def start : DiskImage :=
  { disk := fun _ => zeroes, nsect := 0, freeinode := 1, freeblock := nmeta, written := [] }

end Xv6.Mkfs
