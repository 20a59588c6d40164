import Xv6.Kernel.Vm

/-!
# `Xv6.Kernel.Exec`: building the image of a program (`exec.c`)

`execImage` is `exec` up to the point where the new image is complete. It builds a page table,
loads the segments of the file and pushes the arguments, and it frees the page table again on
every error. `Sys.lean` has the rest, where the process takes the image over.

The executable is the list of its bytes, and `readContents` is `readi` on an inode with these
contents. `proc_pagetable` and `proc_freepagetable` are from `proc.c`; they take the trapframe
of the process.
-/

set_option autoImplicit false

namespace Xv6

open Lib

/-! ### `proc_pagetable` -/

/-- The flags of the trapframe's page. -/
def PTE_TRAPFRAME : Pte := PTE_NX ||| PTE_P ||| PTE_W ||| PTE_MAT ||| PTE_D

def proc_pagetable (trapframe : Nat) : VmM (Option Nat) := do
  match ← uvmcreate with
  | none => return none
  | some pagetable =>
    if (← mappages pagetable TRAPFRAME PGSIZE trapframe PTE_TRAPFRAME) < 0 then do
      uvmfree pagetable 0
      return none
    else return some pagetable

def proc_freepagetable (pagetable sz : Nat) : VmM Unit := do
  uvmunmap pagetable TRAPFRAME 1 false
  uvmfree pagetable sz

/-! ### ELF files -/

def ELF_MAGIC : Nat := 0x464C457F
def ELF_PROG_LOAD : Nat := 1

/-- `readi(ip, 0, dst, off, n)`: the bytes that are copied to `dst`. `off` and `n` are `uint`. -/
def readContents (file : List UInt8) (off n : Nat) : List UInt8 :=
  if file.length < off ∨ (off + n) % 2 ^ 32 < off then []
  else (file.drop off).take n

/-- The `k`-byte number at `off`. -/
def field (bs : List UInt8) (off k : Nat) : Nat := getLE (fun i => bs.getD i 0) off k

/-- The fields of `struct elfhdr` that `exec` reads. -/
structure Elfhdr where
  magic : Nat
  entry : Nat
  phoff : Nat
  phnum : Nat

/-- `sizeof(struct elfhdr)` -/
def ELFHDR_SIZE : Nat := 64

def elfhdr (bs : List UInt8) : Elfhdr :=
  { magic := field bs 0 4, entry := field bs 24 8, phoff := field bs 32 8, phnum := field bs 56 2 }

/-- The fields of `struct proghdr` that `exec` reads. -/
structure Proghdr where
  type : Nat
  off : Nat
  vaddr : Nat
  filesz : Nat
  memsz : Nat

/-- `sizeof(struct proghdr)` -/
def PROGHDR_SIZE : Nat := 56

def proghdr (bs : List UInt8) : Proghdr :=
  { type := field bs 0 4, off := field bs 8 8, vaddr := field bs 16 8
    filesz := field bs 32 8, memsz := field bs 40 8 }

/-! ### Segments -/

/-- `walkaddr` finds nothing from `MAXVA` on, which bounds the rounds. -/
def loadsegLoop (pagetable va : Nat) (file : List UInt8) (offset sz : Nat) :
    (rounds i : Nat) → VmM Int
  | 0, _ => throw .loadseg
  | rounds + 1, i =>
    if i < sz then do
      let pa ← walkaddr pagetable ((va + i) % 2 ^ 64)
      if pa = 0 then throw .loadseg
      else do
        let n := if sz - i < PGSIZE then sz - i else PGSIZE
        let bs := readContents file ((offset + i) % 2 ^ 32) n
        store (dmwin pa) bs
        if bs.length ≠ n then return -1
        else loadsegLoop pagetable va file offset sz rounds (i + PGSIZE)
    else return 0

def loadseg (pagetable va : Nat) (file : List UInt8) (offset sz : Nat) : VmM Int :=
  loadsegLoop pagetable va file offset sz NVPAGES 0

/-- The loop over the `phnum` program headers. It returns the size of the image so far, and
whether everything is loaded. -/
def loadSegs (pagetable : Nat) (file : List UInt8) : (phnum off sz : Nat) → VmM (Nat × Bool)
  | 0, _, sz => return (sz, true)
  | phnum + 1, off, sz =>
    let bs := readContents file off PROGHDR_SIZE
    let ph := proghdr bs
    -- int off
    let next := (off + PROGHDR_SIZE) % 2 ^ 32
    let segEnd := (ph.vaddr + ph.memsz) % 2 ^ 64
    if bs.length ≠ PROGHDR_SIZE then return (sz, false)
    else if ph.type ≠ ELF_PROG_LOAD then loadSegs pagetable file phnum next sz
    else if ph.memsz < ph.filesz then return (sz, false)
    else if segEnd < ph.vaddr then return (sz, false)
    else do
      let sz1 ← uvmalloc pagetable sz segEnd
      if sz1 = 0 then return (sz, false)
      else if ph.vaddr % PGSIZE ≠ 0 then return (sz1, false)
      else do
        -- loadseg takes uint offset and uint sz
        let r ← loadseg pagetable ph.vaddr file (ph.off % 2 ^ 32) (ph.filesz % 2 ^ 32)
        if r < 0 then return (sz1, false) else loadSegs pagetable file phnum next sz1

/-! ### Arguments -/

/-- `a - b` on `uint64` -/
def sub64 (a b : Nat) : Nat := (a + 2 ^ 64 - b) % 2 ^ 64

/-- The `k` bytes of a little-endian number. -/
def leBytes (k v : Nat) : List UInt8 := (List.range k).map fun i => UInt8.ofNat (v / 256 ^ i)

/-- Push the argument strings. `ustack` has the addresses of those already there. -/
def pushArgs (pagetable stackbase : Nat) :
    (argv : List (List UInt8)) → (sp : Nat) → (ustack : List Nat) → VmM (Option (Nat × List Nat))
  | [], sp, ustack => return some (sp, ustack)
  | s :: argv, sp, ustack =>
    if MAXARG ≤ ustack.length then return none
    else do
      let sp := sub64 sp (s.length + 1)
      let sp := sp - sp % 16
      if sp < stackbase then return none
      else if (← copyout pagetable sp (s ++ [0])) < 0 then return none
      else pushArgs pagetable stackbase argv sp (ustack ++ [sp])

/-- Push the strings and then the array of pointers to them. -/
def pushStack (pagetable stackbase sp : Nat) (argv : List (List UInt8)) :
    VmM (Option (Nat × Nat)) := do
  match ← pushArgs pagetable stackbase argv sp [] with
  | none => return none
  | some (sp, ustack) =>
    let argc := ustack.length
    let sp := sub64 sp ((argc + 1) * 8)
    let sp := sp - sp % 16
    if sp < stackbase then return none
    else if (← copyout pagetable sp ((ustack ++ [0]).flatMap (leBytes 8))) < 0 then return none
    else return some (sp, argc)

/-! ### The image -/

/-- What `exec` installs. -/
structure Image where
  pagetable : Nat
  sz : Nat
  sp : Nat
  argc : Nat
  entry : Nat

/-- `exec` up to "Commit to the user image". -/
def execImage (trapframe : Nat) (file : List UInt8) (argv : List (List UInt8)) :
    VmM (Option Image) := do
  let hdr := readContents file 0 ELFHDR_SIZE
  let elf := elfhdr hdr
  if hdr.length ≠ ELFHDR_SIZE then return none
  else if elf.magic ≠ ELF_MAGIC then return none
  else
    match ← proc_pagetable trapframe with
    | none => return none
    | some pagetable =>
      let (sz, loaded) ← loadSegs pagetable file elf.phnum (elf.phoff % 2 ^ 32) 0
      if loaded = false then do
        proc_freepagetable pagetable sz
        return none
      else do
        -- two pages at the next page boundary; the second is the user stack
        let sz := PGROUNDUP sz
        let sz1 ← uvmalloc pagetable sz (sz + 2 * PGSIZE)
        if sz1 = 0 then do
          proc_freepagetable pagetable sz
          return none
        else do
          uvmclear pagetable (sz1 - 2 * PGSIZE)
          match ← pushStack pagetable (sz1 - PGSIZE) sz1 argv with
          | none =>
            proc_freepagetable pagetable sz1
            return none
          | some (sp, argc) =>
            return some { pagetable := pagetable, sz := sz1, sp := sp, argc := argc
                          entry := elf.entry }

end Xv6
