import Xv6.Lib.Bytes
import Xv6.Lib.PageHeap
import Xv6.Kernel.Param

/-!
# `Xv6.Kernel.Vm`: physical pages and page tables (`kalloc.c`, `vm.c`)

Physical memory is a byte store, addressed by the kernel's direct-mapped pointers. Page tables
are stored in it: an entry is the 64-bit little-endian word at its address. The free list is a
list of pages; the source threads it through the first word of the free pages, which nobody
reads otherwise.

Addresses and sizes are `uint64` in the source and natural numbers here, with `% 2 ^ 64` where a
sum may wrap. Page-table entries are bit vectors.

Each loop over virtual pages calls `walk` for the page it is at, and `walk` panics from `MAXVA`
on. So `NVPAGES` bounds the rounds of such a loop, and it is the fuel of the functions here.

A function returns in the monad `VmM`: it panics, or it has a value and changes the memory. A
pointer that may be 0 is an `Option`.
-/

set_option autoImplicit false

namespace Xv6

open Lib

/-! ### Constants of `loongarch.h` and `memlayout.h` -/

def PGSIZE : Nat := 4096

def PGROUNDUP (sz : Nat) : Nat := (sz + PGSIZE - 1) % 2 ^ 64 / PGSIZE * PGSIZE

def PGROUNDDOWN (a : Nat) : Nat := a / PGSIZE * PGSIZE

def DMWIN_MASK : BitVec 64 := 0x9000000000000000#64

/-- `0x90000000UL | DMWIN_MASK` -/
def RAMBASE : Nat := 0x9000000090000000

def RAMSTOP : Nat := RAMBASE + 128 * 1024 * 1024

def MAXVA : Nat := 2 ^ (9 + 12 - 1)

/-- More rounds than a loop over virtual pages can make. -/
def NVPAGES : Nat := MAXVA / PGSIZE + 1

def TRAPFRAME : Nat := MAXVA - PGSIZE

def KSTACK (p : Nat) : Nat := TRAPFRAME - (p + 1) * 2 * PGSIZE

/-- A page-table entry. -/
abbrev Pte := BitVec 64

def PTE_V : Pte := 1#64 <<< 0
def PTE_D : Pte := 1#64 <<< 1
def PTE_PLV : Pte := 3#64 <<< 2
def PTE_MAT : Pte := 1#64 <<< 4
def PTE_P : Pte := 1#64 <<< 7
def PTE_W : Pte := 1#64 <<< 8
def PTE_NX : Pte := 1#64 <<< 62

def PAMASK : Pte := 0xFFFFFFFFF#64 <<< 12

def PTE2PA (pte : Pte) : Nat := (pte &&& PAMASK).toNat

def PA2PTE (pa : Nat) : Pte := BitVec.ofNat 64 pa &&& PAMASK

def PTE_FLAGS (pte : Pte) : Pte := pte &&& 0xE0000000000001FF#64

/-- The 9-bit index of `va` at a level. -/
def PX (level va : Nat) : Nat := va / 2 ^ (12 + 9 * level) % 512

/-- `pa | DMWIN_MASK`: the pointer for a physical address. -/
def dmwin (pa : Nat) : Nat := (BitVec.ofNat 64 pa ||| DMWIN_MASK).toNat

/-! ### Memory -/

/-- The panics of the functions in this module and of those that call them. -/
inductive Panic where
  | kfree
  | walk
  /-- "mappages: size" -/
  | mapSize
  /-- "mappages: remap" -/
  | remap
  /-- "uvmunmap: not aligned" -/
  | unmapAlign
  /-- "uvmunmap: walk" -/
  | unmapWalk
  /-- "uvmunmap: not mapped" -/
  | unmapNone
  /-- "uvmunmap: not a leaf" -/
  | unmapDir
  /-- "inituvm: more than a page" -/
  | inituvm
  /-- "freewalk: leaf" -/
  | freewalkLeaf
  /-- no panic of the source: `freewalk` goes deeper than a page table has levels -/
  | freewalkDepth
  /-- "uvmcopy: pte should exist" -/
  | copyPte
  /-- "uvmcopy: page not present" -/
  | copyPage
  | uvmclear
  /-- "loadseg: address should exist" -/
  | loadseg
  /-- "kalloc" and "kvmmap" in `proc_mapstacks` -/
  | mapstacks
  | filedup
  | fileclose
  /-- "init exiting" -/
  | initExiting
  /-- no panic of the source: a pointer is used that is 0 -/
  | null
  deriving DecidableEq

/-- Physical memory and its free list. -/
abbrev Phys := PageHeap UInt8

abbrev VmM := StateT Phys (Except Panic)

/-- The memory with the bytes `bs` at `dst`. -/
def putBytes (mem : Bytes) (dst : Nat) (bs : List UInt8) : Bytes := fun a =>
  if dst ≤ a ∧ a < dst + bs.length then bs.getD (a - dst) 0 else mem a

/-- The `n` bytes at `src`. -/
def getBytes (mem : Bytes) (src n : Nat) : List UInt8 := (List.range n).map fun i => mem (src + i)

/-- `memset(dst, c, n)` -/
def memset (dst : Nat) (c : UInt8) (n : Nat) : VmM Unit :=
  modify fun ph => { ph with mem := fun a => if dst ≤ a ∧ a < dst + n then c else ph.mem a }

/-- `memmove` from a buffer outside the page memory. -/
def store (dst : Nat) (bs : List UInt8) : VmM Unit :=
  modify fun ph => { ph with mem := putBytes ph.mem dst bs }

/-- `memmove(dst, src, n)` -/
def memmove (dst src n : Nat) : VmM Unit :=
  modify fun ph => { ph with mem := putBytes ph.mem dst (getBytes ph.mem src n) }

/-- The entry at an address. -/
def pteAt (mem : Bytes) (a : Nat) : Pte := BitVec.ofNat 64 (getLE mem a 8)

def readPte (a : Nat) : VmM Pte := return pteAt (← get).mem a

def writePte (a : Nat) (pte : Pte) : VmM Unit :=
  modify fun ph => { ph with mem := putLE ph.mem a 8 pte.toNat }

/-! ### `kalloc.c` -/

def kfree (pa : Nat) : VmM Unit :=
  if pa % PGSIZE ≠ 0 ∨ pa < RAMBASE ∨ RAMSTOP ≤ pa then throw .kfree
  else do
    memset pa 1 PGSIZE
    modify fun ph => { ph with freelist := pa :: ph.freelist }

def kalloc : VmM (Option Nat) := do
  match (← get).freelist with
  | [] => return none
  | r :: rest =>
    modify fun ph => { ph with freelist := rest }
    memset r 5 PGSIZE
    return some r

def freerange (p pa_end : Nat) : VmM Unit :=
  if p + PGSIZE ≤ pa_end then do
    kfree p
    freerange (p + PGSIZE) pa_end
  else return ()
termination_by pa_end - p
decreasing_by
  simp only [PGSIZE] at *
  omega

def kinit : VmM Unit := freerange RAMBASE RAMSTOP

/-! ### `vm.c` -/

/-- The loop of `walk`, from a level down to level 0. -/
def walkLevels (va : Nat) (alloc : Bool) : (level pagetable : Nat) → VmM (Option Nat)
  | 0, pagetable => return some (pagetable + 8 * PX 0 va)
  | level + 1, pagetable => do
    let pte := pagetable + 8 * PX (level + 1) va
    let v ← readPte pte
    if v &&& PTE_V ≠ 0 then walkLevels va alloc level (dmwin (PTE2PA v))
    else if alloc then
      match ← kalloc with
      | none => return none
      | some page =>
        memset page 0 PGSIZE
        writePte pte (PA2PTE page ||| PTE_V)
        walkLevels va alloc level page
    else return none

/-- The address of the entry for `va`. -/
def walk (pagetable va : Nat) (alloc : Bool) : VmM (Option Nat) :=
  if MAXVA ≤ va then throw .walk else walkLevels va alloc 3 pagetable

/-- The physical address of a user page, or 0. -/
def walkaddr (pagetable va : Nat) : VmM Nat :=
  if MAXVA ≤ va then return 0
  else do
    match ← walk pagetable va false with
    | none => return 0
    | some pte =>
      let v ← readPte pte
      if v &&& PTE_V = 0 then return 0
      else if v &&& PTE_PLV = 0 then return 0
      else return PTE2PA v

def mappagesLoop (pagetable last : Nat) (perm : Pte) : (rounds a pa : Nat) → VmM Int
  | 0, _, _ => throw .walk
  | rounds + 1, a, pa => do
    match ← walk pagetable a true with
    | none => return -1
    | some pte =>
      let v ← readPte pte
      if v &&& PTE_V ≠ 0 then throw .remap
      else do
        writePte pte (PA2PTE pa ||| perm ||| PTE_V)
        if a = last then return 0
        else mappagesLoop pagetable last perm rounds (a + PGSIZE) (pa + PGSIZE)

def mappages (pagetable va size pa : Nat) (perm : Pte) : VmM Int :=
  if size = 0 then throw .mapSize
  else
    mappagesLoop pagetable (PGROUNDDOWN ((va + size - 1) % 2 ^ 64)) perm NVPAGES
      (PGROUNDDOWN va) pa

def uvmunmapLoop (pagetable stop : Nat) (do_free : Bool) : (rounds a : Nat) → VmM Unit
  | 0, _ => throw .walk
  | rounds + 1, a =>
    if a < stop then do
      match ← walk pagetable a false with
      | none => throw .unmapWalk
      | some pte =>
        let v ← readPte pte
        if v &&& PTE_V = 0 then throw .unmapNone
        else if PTE_FLAGS v = PTE_V then throw .unmapDir
        else do
          if do_free then kfree (dmwin (PTE2PA v)) else pure ()
          writePte pte 0
          uvmunmapLoop pagetable stop do_free rounds (a + PGSIZE)
    else return ()

def uvmunmap (pagetable va npages : Nat) (do_free : Bool) : VmM Unit :=
  if va % PGSIZE ≠ 0 then throw .unmapAlign
  else uvmunmapLoop pagetable ((va + npages * PGSIZE) % 2 ^ 64) do_free NVPAGES va

def uvmcreate : VmM (Option Nat) := do
  match ← kalloc with
  | none => return none
  | some pagetable =>
    memset pagetable 0 PGSIZE
    return some pagetable

/-- `npages` is an `int` in the source. It is not truncated here: `oldsz` is a size whose pages are
mapped, so it is at most `MAXVA`, and a size below `2 ^ 43` has fewer than `2 ^ 31` pages. -/
def uvmdealloc (pagetable oldsz newsz : Nat) : VmM Nat :=
  if oldsz ≤ newsz then return oldsz
  else if PGROUNDUP newsz < PGROUNDUP oldsz then do
    let npages := (PGROUNDUP oldsz - PGROUNDUP newsz) / PGSIZE
    uvmunmap pagetable (PGROUNDUP newsz) npages true
    return newsz
  else return newsz

/-- The flags of the pages that `uvmalloc` maps. -/
def PTE_USER : Pte := PTE_P ||| PTE_W ||| PTE_PLV ||| PTE_MAT ||| PTE_D

def uvmallocLoop (pagetable oldsz newsz : Nat) : (rounds a : Nat) → VmM Nat
  | 0, _ => throw .walk
  | rounds + 1, a =>
    if a < newsz then do
      match ← kalloc with
      | none =>
        let _ ← uvmdealloc pagetable a oldsz
        return 0
      | some mem =>
        memset mem 0 PGSIZE
        if (← mappages pagetable a PGSIZE mem PTE_USER) ≠ 0 then do
          kfree mem
          let _ ← uvmdealloc pagetable a oldsz
          return 0
        else uvmallocLoop pagetable oldsz newsz rounds (a + PGSIZE)
    else return newsz

/-- Returns the new size, or 0 on error. -/
def uvmalloc (pagetable oldsz newsz : Nat) : VmM Nat :=
  if newsz < oldsz then return oldsz
  else uvmallocLoop pagetable (PGROUNDUP oldsz) newsz NVPAGES (PGROUNDUP oldsz)

/-- For the first process; `src` is less than a page. -/
def uvminit (pagetable : Nat) (src : List UInt8) : VmM Unit :=
  if PGSIZE ≤ src.length then throw .inituvm
  else do
    match ← kalloc with
    | none => throw .null
    | some mem =>
      memset mem 0 PGSIZE
      let _ ← mappages pagetable 0 PGSIZE mem (PTE_P ||| PTE_W ||| PTE_PLV ||| PTE_MAT)
      store mem src

/-- Entry `i` in the loop of `freewalk`, where `free` is the recursive call. -/
def freewalkEntry (free : Nat → VmM Unit) (pagetable i : Nat) : VmM Unit := do
  let pte ← readPte (pagetable + 8 * i)
  if pte &&& PTE_V ≠ 0 ∧ PTE_FLAGS pte = PTE_V then do
    free (dmwin (PTE2PA pte))
    writePte (pagetable + 8 * i) 0
  else if pte &&& PTE_V ≠ 0 then throw .freewalkLeaf
  else pure ()

/-- `depth` is the number of levels that may still come. -/
def freewalk : (depth pagetable : Nat) → VmM Unit
  | 0, _ => throw .freewalkDepth
  | depth + 1, pagetable => do
    (List.range 512).forM (freewalkEntry (freewalk depth) pagetable)
    kfree pagetable

def uvmfree (pagetable sz : Nat) : VmM Unit := do
  if 0 < sz then uvmunmap pagetable 0 (PGROUNDUP sz / PGSIZE) true else pure ()
  freewalk 4 pagetable

/-- The `err` exit of `uvmcopy`. -/
def uvmcopyErr (new i : Nat) : VmM Int := do
  uvmunmap new 0 (i / PGSIZE) true
  return -1

def uvmcopyLoop (old new sz : Nat) : (rounds i : Nat) → VmM Int
  | 0, _ => throw .walk
  | rounds + 1, i =>
    if i < sz then do
      match ← walk old i false with
      | none => throw .copyPte
      | some pte =>
        let v ← readPte pte
        if v &&& PTE_V = 0 then throw .copyPage
        else do
          let pa := PTE2PA v
          -- uint flags
          let flags := ((PTE_FLAGS v).setWidth 32).setWidth 64
          match ← kalloc with
          | none => uvmcopyErr new i
          | some mem =>
            memmove mem (dmwin pa) PGSIZE
            if (← mappages new i PGSIZE mem flags) ≠ 0 then do
              kfree mem
              uvmcopyErr new i
            else uvmcopyLoop old new sz rounds (i + PGSIZE)
    else return 0

def uvmcopy (old new sz : Nat) : VmM Int := uvmcopyLoop old new sz NVPAGES 0

def uvmclear (pagetable va : Nat) : VmM Unit := do
  match ← walk pagetable va false with
  | none => throw .uvmclear
  | some pte =>
    let v ← readPte pte
    writePte pte (v &&& ~~~PTE_PLV)

/-- Every round copies at least one byte, so `rounds` is the number of bytes. -/
def copyoutLoop (pagetable : Nat) : (rounds dstva : Nat) → List UInt8 → VmM Int
  | 0, _, _ => return 0
  | rounds + 1, dstva, src =>
    if src.length = 0 then return 0
    else do
      let va0 := PGROUNDDOWN dstva
      let pa0 ← walkaddr pagetable va0
      if pa0 = 0 then return -1
      else do
        let n := min (PGSIZE - (dstva - va0)) src.length
        store (dmwin (pa0 + (dstva - va0))) (src.take n)
        copyoutLoop pagetable rounds (va0 + PGSIZE) (src.drop n)

/-- Copy `src` to user address `dstva`. -/
def copyout (pagetable dstva : Nat) (src : List UInt8) : VmM Int :=
  copyoutLoop pagetable src.length dstva src

def copyinLoop (pagetable : Nat) : (rounds srcva len : Nat) → VmM (List UInt8 × Int)
  | 0, _, _ => return ([], 0)
  | rounds + 1, srcva, len =>
    if len = 0 then return ([], 0)
    else do
      let va0 := PGROUNDDOWN srcva
      let pa0 ← walkaddr pagetable va0
      if pa0 = 0 then return ([], -1)
      else do
        let n := min (PGSIZE - (srcva - va0)) len
        let bs := getBytes (← get).mem (dmwin (pa0 + (srcva - va0))) n
        let (more, r) ← copyinLoop pagetable rounds (va0 + PGSIZE) (len - n)
        return (bs ++ more, r)

/-- The bytes that are stored at `dst`, of the `len` bytes at user address `srcva`, and the
result. -/
def copyin (pagetable srcva len : Nat) : VmM (List UInt8 × Int) :=
  copyinLoop pagetable len srcva len

def copyinstrLoop (pagetable : Nat) : (rounds srcva max : Nat) → VmM (List UInt8 × Int)
  | 0, _, _ => return ([], -1)
  | rounds + 1, srcva, max =>
    if max = 0 then return ([], -1)
    else do
      let va0 := PGROUNDDOWN srcva
      let pa0 ← walkaddr pagetable va0
      if pa0 = 0 then return ([], -1)
      else do
        let n := min (PGSIZE - (srcva - va0)) max
        let bs := getBytes (← get).mem (dmwin (pa0 + (srcva - va0))) n
        let str := bs.takeWhile (· ≠ 0)
        -- '\0' is found
        if str.length < n then return (str ++ [0], 0)
        else do
          let (more, r) ← copyinstrLoop pagetable rounds (va0 + PGSIZE) (max - n)
          return (bs ++ more, r)

/-- The bytes that are stored at `dst`, up to and including '\0', and the result. -/
def copyinstr (pagetable srcva max : Nat) : VmM (List UInt8 × Int) :=
  copyinstrLoop pagetable max srcva max

end Xv6
