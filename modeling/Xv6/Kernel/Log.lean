import Xv6.Lib.Bytes
import Xv6.Lib.Crash
import Xv6.Kernel.Param

/-!
# `Xv6.Kernel.Log`: the redo log of `log.c`

The disk is a map from block numbers to blocks, and each `bwrite` is one atomic write of
it (`Lib.WProg`). The functions here are the ones that touch the disk: `writeLog`,
`writeHead`, `installTrans`, `readHead`, `recoverFromLog` and `commit`, each with the reads
and `bwrite`s of the source in the source's order. A `bread` of a block of the log area
reads the disk, because every change of such a block is followed by its `bwrite`. The
`bread` of a logged block in `writeLog` finds the pinned buffer, so the contents come from
the cache.

The critical sections of `log.lock` are in `Xv6.Kernel.LogOps`.
-/

set_option autoImplicit false

namespace Xv6

open Lib

/-- A disk block: `BSIZE` bytes. -/
abbrev Block := Bytes

/-- The disk, a map from block numbers to blocks. -/
abbrev Disk := Nat → Block

/-- `struct logheader`, in memory. -/
structure LogHeader where
  n : Int
  block : Nat → Nat

/-- `struct log`. -/
structure Log where
  start : Nat
  size : Nat
  /-- how many FS sys calls are executing. -/
  outstanding : Int
  /-- in commit(), please wait. -/
  committing : Bool
  dev : Nat
  lh : LogHeader

/-- The fields of the superblock that `initlog` reads. -/
structure LogLayout where
  nlog : Nat
  logstart : Nat

namespace Log

/-- The log area on disk: the header block and the `size - 1` data blocks. -/
def InArea (log : Log) (b : Nat) : Prop := log.start ≤ b ∧ b < log.start + log.size

instance (log : Log) (b : Nat) : Decidable (log.InArea b) :=
  inferInstanceAs (Decidable (_ ∧ _))

/-- `log.lh.n = n`. -/
def setN (log : Log) (n : Int) : Log := { log with lh := { log.lh with n := n } }

end Log

/-! ### The on-disk header -/

/-- `lh->n` of a header block. -/
def headN (buf : Block) : Int := getI32 buf 0

/-- `lh->block[i]` of a header block. -/
def headBlock (buf : Block) (i : Nat) : Nat := getLE buf (4 + 4 * i) 4

/-- `hb->block[i] = b[i]` for the first `m` entries. -/
def putHeadBlocks (b : Nat → Nat) (buf : Block) : Nat → Block
  | 0 => buf
  | m + 1 => putLE (putHeadBlocks b buf m) (4 + 4 * m) 4 (b m)

/-- The header block `write_head` stores: `n` and the first `n` entries change, and the
rest of the block stays as it was. -/
def putHead (lh : LogHeader) (buf : Block) : Block :=
  putHeadBlocks lh.block (putI32 buf 0 lh.n) lh.n.toNat

/-! ### The functions that read and write the disk -/

/-- `bread` of a block whose buffer agrees with the disk. -/
def bread (b : Nat) : WProg Nat Block Block := WProg.read b

/-- `bwrite`. -/
def bwrite (b : Nat) (data : Block) : WProg Nat Block Unit := WProg.write b data

/-- Copy committed blocks from log to their home location. The old contents of the
destination buffer are overwritten whole, so only the log block is read. -/
def installTrans (log : Log) : WProg Nat Block Unit :=
  WProg.forN (fun tail => do
    let lbuf ← bread (log.start + tail + 1)
    bwrite (log.lh.block tail) lbuf) log.lh.n.toNat

/-- Read the log header from disk into the in-memory log header. -/
def readHead (log : Log) : WProg Nat Block Log := do
  let buf ← bread log.start
  pure { log with
    lh :=
      { n := headN buf
        block := fun i => if (i : Int) < headN buf then headBlock buf i else log.lh.block i } }

/-- Write in-memory log header to disk. -/
def writeHead (log : Log) : WProg Nat Block Unit := do
  let buf ← bread log.start
  bwrite log.start (putHead log.lh buf)

def recoverFromLog (log : Log) : WProg Nat Block Log := do
  let log ← readHead log
  installTrans log
  writeHead (log.setN 0)
  pure (log.setN 0)

/-- Copy modified blocks from cache to log. -/
def writeLog (log : Log) (cache : Nat → Block) : WProg Nat Block Unit :=
  WProg.forN (fun tail => bwrite (log.start + tail + 1) (cache (log.lh.block tail)))
    log.lh.n.toNat

def commit (log : Log) (cache : Nat → Block) : WProg Nat Block Log :=
  if log.lh.n > 0 then do
    writeLog log cache
    writeHead log
    installTrans log
    writeHead (log.setN 0)
    pure (log.setN 0)
  else
    pure log

end Xv6
