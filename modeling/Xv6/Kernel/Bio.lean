import Xv6.Kernel.Log
import Mathlib.Data.List.FinRange

/-!
# `Xv6.Kernel.Bio`: the buffer cache of `bio.c`

The cache is an array of `NBUF` buffers and the list that links them, most recently
released first. Each function here is one critical section of `bcache.lock`; the sleep
lock of a buffer is taken and given back outside of it.
-/

set_option autoImplicit false

namespace Xv6

/-- `struct buf`. The links of the cache list are in `BCache.lru`. -/
structure Buf where
  /-- has data been read from disk? -/
  valid : Bool
  dev : Nat
  blockno : Nat
  /-- The process that holds the sleep lock `b->lock`. -/
  lock : Option Nat
  refcnt : Nat
  data : Block

/-- `bcache`: the buffers, and the list from `head.next` on. -/
structure BCache where
  buf : Fin NBUF → Buf
  lru : List (Fin NBUF)

namespace BCache

/-- The cache with buffer `i` replaced. -/
def set (c : BCache) (i : Fin NBUF) (b : Buf) : BCache :=
  { c with buf := Function.update c.buf i b }

/-- `binit`: each buffer of the zeroed array goes to the front of the list. -/
def binit : BCache :=
  { buf := fun _ =>
      { valid := false, dev := 0, blockno := 0, lock := none, refcnt := 0, data := fun _ => 0 }
    lru := (List.finRange NBUF).reverse }

/-- Buffer `i` caches this block. -/
def caches (c : BCache) (dev blockno : Nat) (i : Fin NBUF) : Bool :=
  (c.buf i).dev == dev && (c.buf i).blockno == blockno

/-- The critical section of `bget`: find the block from the front of the list, else recycle
an unused buffer from its end. `none` is panic("bget: no buffers"). -/
def bget (c : BCache) (dev blockno : Nat) : Option (Fin NBUF × BCache) :=
  match c.lru.find? (c.caches dev blockno) with
  | some i => some (i, c.set i { c.buf i with refcnt := (c.buf i).refcnt + 1 })
  | none =>
    match c.lru.reverse.find? fun i => (c.buf i).refcnt == 0 with
    | some i =>
      some (i, c.set i
        { c.buf i with dev := dev, blockno := blockno, valid := false, refcnt := 1 })
    | none => none

/-- The critical section of `brelse`: drop the reference, and move a buffer that no one
waits for to the front of the list. -/
def unref (c : BCache) (i : Fin NBUF) : BCache :=
  let c' := c.set i { c.buf i with refcnt := (c.buf i).refcnt - 1 }
  if (c'.buf i).refcnt = 0 then { c' with lru := i :: c'.lru.erase i } else c'

def bpin (c : BCache) (i : Fin NBUF) : BCache :=
  c.set i { c.buf i with refcnt := (c.buf i).refcnt + 1 }

def bunpin (c : BCache) (i : Fin NBUF) : BCache :=
  c.set i { c.buf i with refcnt := (c.buf i).refcnt - 1 }

end BCache

end Xv6
