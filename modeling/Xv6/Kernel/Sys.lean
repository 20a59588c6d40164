import Xv6.Kernel.Exec
import Xv6.Kernel.Proc

/-!
# `Xv6.Kernel.Sys`: the system calls that allocate and free pages

Processes with their memory (`proc.c`, the second half of `exec.c`, `sys_exec`), and the file
table with pipes (`file.c`, `pipe.c`, `sysfile.c`). A call is a function on the state `Os` of
the whole system, and it is carried out in one piece: `run` makes one call after the other.
Between two calls every process that is not a zombie is `RUNNABLE`. A `wait` that finds
children but no zombie sleeps, which leaves the state as it is.

`struct pipe` is stored in its page. Of `struct file`, `ip`, `off` and `major` are left out, and
of `struct proc` the name, the working directory and the saved kernel context: they are no
pages. What the file system has at a path is given to `exec` and `sys_open` by the caller.
-/

set_option autoImplicit false

namespace Xv6

open Lib

inductive FileType where
  | none | pipe | inode | device
  deriving DecidableEq

/-- An entry of `ftable`. -/
structure File where
  type : FileType
  ref : Nat
  readable : Bool
  writable : Bool
  /-- the page of a `struct pipe` -/
  pipe : Nat

abbrev FileId := Fin NFILE

/-- `struct proc` with the memory of the process. Null pointers are 0. -/
structure UProc extends Proc where
  sz : Nat
  pagetable : Nat
  trapframe : Nat
  ofile : Fin NOFILE → Option FileId

structure Os where
  phys : Phys
  proc : Slot → UProc
  nextpid : CInt
  file : FileId → File
  /-- the kernel's page table -/
  kpgtbl : Nat

abbrev OsM := StateT Os (Except Panic)

/-- A function on the memory. -/
def onPhys {α : Type} (x : VmM α) : OsM α := fun s => do
  let (a, ph) ← x.run s.phys
  return (a, { s with phys := ph })

def Os.setProc (s : Os) (p : Slot) (q : UProc) : Os :=
  { s with proc := Function.update s.proc p q }

def Os.setFile (s : Os) (f : FileId) (x : File) : Os :=
  { s with file := Function.update s.file f x }

/-- Change the entry of process `p`. -/
def modifyProc (p : Slot) (f : UProc → UProc) : OsM Unit :=
  modify fun s => s.setProc p (f (s.proc p))

def modifyFile (f : FileId) (g : File → File) : OsM Unit :=
  modify fun s => s.setFile f (g (s.file f))

/-! ### `pipe.c` and `file.c` -/

/-- `offsetof(struct pipe, readopen)` and `writeopen` -/
def PIPE_READOPEN : Nat := 544
def PIPE_WRITEOPEN : Nat := 548
def PIPE_NREAD : Nat := 536
def PIPE_NWRITE : Nat := 540

/-- Store the `int` or `uint` `v` at `a`. -/
def store32 (a v : Nat) : VmM Unit := modify fun ph => { ph with mem := putLE ph.mem a 4 v }

def load32 (a : Nat) : VmM Nat := return getLE (← get).mem a 4

def pipeclose (pi : Nat) (writable : Bool) : VmM Unit := do
  store32 (pi + if writable then PIPE_WRITEOPEN else PIPE_READOPEN) 0
  if (← load32 (pi + PIPE_READOPEN)) = 0 ∧ (← load32 (pi + PIPE_WRITEOPEN)) = 0 then kfree pi
  else pure ()

def filealloc : OsM (Option FileId) := do
  let s ← get
  match (List.finRange NFILE).find? fun f => (s.file f).ref = 0 with
  | none => return none
  | some f =>
    modifyFile f fun x => { x with ref := 1 }
    return some f

def filedup (f : FileId) : OsM Unit := do
  if ((← get).file f).ref < 1 then throw .filedup
  else modifyFile f fun x => { x with ref := x.ref + 1 }

def fileclose (f : FileId) : OsM Unit := do
  let ff := (← get).file f
  if ff.ref < 1 then throw .fileclose
  else if 0 < ff.ref - 1 then modifyFile f fun x => { x with ref := x.ref - 1 }
  else do
    modifyFile f fun x => { x with ref := 0, type := .none }
    -- for an inode or a device: iput
    if ff.type = .pipe then onPhys (pipeclose ff.pipe ff.writable) else pure ()

/-- The fields of a new `struct pipe`; `initlock` clears `locked`. -/
def pipeInit (pi : Nat) : VmM Unit := do
  store32 (pi + PIPE_READOPEN) 1
  store32 (pi + PIPE_WRITEOPEN) 1
  store32 (pi + PIPE_NWRITE) 0
  store32 (pi + PIPE_NREAD) 0
  store32 pi 0

def pipealloc : OsM (Option (FileId × FileId)) := do
  match ← filealloc with
  | none => return none
  | some f0 =>
    match ← filealloc with
    | none =>
      fileclose f0
      return none
    | some f1 =>
      match ← onPhys kalloc with
      | none =>
        fileclose f0
        fileclose f1
        return none
      | some pi =>
        onPhys (pipeInit pi)
        modifyFile f0 fun x =>
          { x with type := .pipe, readable := true, writable := false, pipe := pi }
        modifyFile f1 fun x =>
          { x with type := .pipe, readable := false, writable := true, pipe := pi }
        return some (f0, f1)

/-! ### `sysfile.c` -/

def fdalloc (p : Slot) (f : FileId) : OsM (Option (Fin NOFILE)) := do
  let q := (← get).proc p
  match (List.finRange NOFILE).find? fun fd => q.ofile fd = none with
  | none => return none
  | some fd =>
    modifyProc p fun q => { q with ofile := Function.update q.ofile fd (some f) }
    return some fd

/-- `p->ofile[fd] = 0` -/
def clearFd (p : Slot) (fd : Fin NOFILE) : OsM Unit :=
  modifyProc p fun q => { q with ofile := Function.update q.ofile fd none }

/-- `argfd` fails unless `fd` is open. -/
def sys_dup (p : Slot) (fd : Fin NOFILE) : OsM Int := do
  match ((← get).proc p).ofile fd with
  | none => return -1
  | some f =>
    match ← fdalloc p f with
    | none => return -1
    | some fd' =>
      filedup f
      return fd'

def sys_close (p : Slot) (fd : Fin NOFILE) : OsM Int := do
  match ((← get).proc p).ofile fd with
  | none => return -1
  | some f =>
    clearFd p fd
    fileclose f
    return 0

/-- The inode that `sys_open` finds: a device, or a file or directory. -/
inductive Target where
  | file | device
  deriving DecidableEq

def O_WRONLY : BitVec 32 := 0x001#32
def O_RDWR : BitVec 32 := 0x002#32

/-- `found` is none if `create` or `namei` fails, or one of the checks of the inode's type. -/
def sys_open (p : Slot) (found : Option Target) (omode : BitVec 32) : OsM Int := do
  match found with
  | none => return -1
  | some ip =>
    match ← filealloc with
    | none => return -1
    | some f =>
      match ← fdalloc p f with
      | none =>
        fileclose f
        return -1
      | some fd =>
        modifyFile f fun x =>
          { x with type := if ip = .device then .device else .inode
                   readable := decide (omode &&& O_WRONLY = 0)
                   writable := decide (omode &&& O_WRONLY ≠ 0 ∨ omode &&& O_RDWR ≠ 0) }
        return fd

def sys_pipe (p : Slot) (fdarray : Nat) : OsM Int := do
  match ← pipealloc with
  | none => return -1
  | some (rf, wf) =>
    match ← fdalloc p rf with
    | none =>
      fileclose rf
      fileclose wf
      return -1
    | some fd0 =>
      match ← fdalloc p wf with
      | none =>
        clearFd p fd0
        fileclose rf
        fileclose wf
        return -1
      | some fd1 =>
        let pagetable := ((← get).proc p).pagetable
        let bad : OsM Int := do
          clearFd p fd0
          clearFd p fd1
          fileclose rf
          fileclose wf
          return -1
        if (← onPhys (copyout pagetable fdarray (leBytes 4 fd0))) < 0 then bad
        else if (← onPhys (copyout pagetable ((fdarray + 4) % 2 ^ 64) (leBytes 4 fd1))) < 0 then bad
        else return 0

/-! ### `proc.c` -/

def freeproc (p : Slot) : OsM Unit := do
  let q := (← get).proc p
  if q.trapframe ≠ 0 then onPhys (kfree q.trapframe) else pure ()
  if q.pagetable ≠ 0 then onPhys (proc_freepagetable q.pagetable q.sz) else pure ()
  modifyProc p fun q =>
    { q with
      trapframe := 0, pagetable := 0, sz := 0, pid := 0, parent := none, chan := none
      killed := false, xstate := 0, state := .unused }

def allocproc : OsM (Option Slot) := do
  let s ← get
  match (List.finRange NPROC).find? fun i => (s.proc i).state = .unused with
  | none => return none
  | some p =>
    modify fun s => { s.setProc p { s.proc p with pid := s.nextpid, state := .used } with
      nextpid := s.nextpid + 1 }
    match ← onPhys kalloc with
    | none =>
      modifyProc p fun q => { q with trapframe := 0 }
      freeproc p
      return none
    | some trapframe =>
      modifyProc p fun q => { q with trapframe := trapframe }
      match ← onPhys (proc_pagetable trapframe) with
      | none =>
        modifyProc p fun q => { q with pagetable := 0 }
        freeproc p
        return none
      | some pagetable =>
        modifyProc p fun q => { q with pagetable := pagetable }
        return some p

/-- `offsetof` of the fields of `struct trapframe` that the kernel sets, and its size. -/
def TF_SP : Nat := 16
def TF_A0 : Nat := 24
def TF_A1 : Nat := 32
def TF_ERA : Nat := 264
def TF_SIZE : Nat := 288

/-- Store the `uint64` `v` at `a`. -/
def store64 (a v : Nat) : VmM Unit := modify fun ph => { ph with mem := putLE ph.mem a 8 v }

/-- `n` is any `int`; sizes are `uint` here. -/
def growproc (p : Slot) (n : CInt) : OsM Int := do
  let q := (← get).proc p
  let sz := q.sz % 2 ^ 32
  let newsz := (sz + n.toNat) % 2 ^ 32
  if 0 < n.toInt then
    if MAXVA - PGSIZE ≤ newsz then return -1
    else do
      let r ← onPhys (uvmalloc q.pagetable sz newsz)
      if r % 2 ^ 32 = 0 then return -1
      else do
        modifyProc p fun q => { q with sz := r % 2 ^ 32 }
        return 0
  else if n.toInt < 0 then do
    let r ← onPhys (uvmdealloc q.pagetable sz newsz)
    modifyProc p fun q => { q with sz := r % 2 ^ 32 }
    return 0
  else do
    modifyProc p fun q => { q with sz := sz }
    return 0

def sys_sbrk (p : Slot) (n : CInt) : OsM Int := do
  let addr := ((← get).proc p).sz
  if (← growproc p n) < 0 then return -1
  else return (BitVec.ofNat 32 addr).toInt

/-- The files of the parent are opened in the child. -/
def dupFiles (p np : Slot) : OsM Unit :=
  (List.finRange NOFILE).forM fun i => do
    match ((← get).proc p).ofile i with
    | none => pure ()
    | some f =>
      filedup f
      modifyProc np fun q => { q with ofile := Function.update q.ofile i (some f) }

def fork (p : Slot) : OsM Int := do
  match ← allocproc with
  | none => return -1
  | some np =>
    let s ← get
    let old := s.proc p
    let new := s.proc np
    if (← onPhys (uvmcopy old.pagetable new.pagetable old.sz)) < 0 then do
      freeproc np
      return -1
    else do
      modifyProc np fun q => { q with sz := old.sz }
      onPhys (memmove new.trapframe old.trapframe TF_SIZE)
      onPhys (store64 (new.trapframe + TF_A0) 0)
      dupFiles p np
      let pid := ((← get).proc np).pid
      modifyProc np fun q => { q with parent := some p }
      modifyProc np fun q => { q with state := .runnable }
      return pid.toInt

def reparent (p : Slot) : OsM Unit :=
  modify fun s => { s with proc := fun i =>
    if (s.proc i).parent = some p then { s.proc i with parent := some initproc } else s.proc i }

/-- Close all open files. -/
def closeFiles (p : Slot) : OsM Unit :=
  (List.finRange NOFILE).forM fun fd => do
    match ((← get).proc p).ofile fd with
    | none => pure ()
    | some f =>
      fileclose f
      clearFd p fd

def exit (p : Slot) (status : CInt) : OsM Unit := do
  if p = initproc then throw .initExiting
  else do
    closeFiles p
    reparent p
    modifyProc p fun q => { q with xstate := status, state := .zombie }

/-- The scan of `wait`; none if it has to sleep. -/
def waitScan (p : Slot) (addr : Nat) : List Slot → Bool → OsM (Option Int)
  | [], havekids => do
    if !havekids || ((← get).proc p).killed then return some (-1) else return none
  | np :: rest, havekids => do
    let s ← get
    let q := s.proc np
    if q.parent = some p then
      if q.state = .zombie then do
        let r ←
          if addr ≠ 0 then
            onPhys (copyout (s.proc p).pagetable addr (leBytes 4 q.xstate.toNat))
          else pure 0
        if r < 0 then return some (-1)
        else do
          freeproc np
          return some q.pid.toInt
      else waitScan p addr rest true
    else waitScan p addr rest havekids

def wait (p : Slot) (addr : Nat) : OsM (Option Int) :=
  waitScan p addr (List.finRange NPROC) false

/-! ### `exec` -/

/-- `file` is what `namei` finds. -/
def exec (p : Slot) (file : Option (List UInt8)) (argv : List (List UInt8)) : OsM Int := do
  match file with
  | none => return -1
  | some file =>
    let q := (← get).proc p
    match ← onPhys (execImage q.trapframe file argv) with
    | none => return -1
    | some im =>
      onPhys (store64 (q.trapframe + TF_A1) im.sp)
      modifyProc p fun q => { q with pagetable := im.pagetable, sz := im.sz }
      onPhys (store64 (q.trapframe + TF_ERA) im.entry)
      onPhys (store64 (q.trapframe + TF_SP) im.sp)
      onPhys (proc_freepagetable q.pagetable q.sz)
      return im.argc

/-- The `uint64` at user address `addr`. -/
def fetchaddr (p : Slot) (addr : Nat) : OsM (Option Nat) := do
  let q := (← get).proc p
  if q.sz ≤ addr ∨ q.sz < addr + 8 then return none
  else do
    let (bs, r) ← onPhys (copyin q.pagetable addr 8)
    if r ≠ 0 then return none
    else return some (field bs 0 8)

def strlen (s : List UInt8) : Nat := (s.takeWhile (· ≠ 0)).length

/-- The bytes stored in the buffer, and the length of the string or -1. -/
def fetchstr (p : Slot) (addr max : Nat) : OsM (List UInt8 × Int) := do
  let q := (← get).proc p
  let (buf, err) ← onPhys (copyinstr q.pagetable addr max)
  if err < 0 then return (buf, err)
  else return (buf, strlen buf)

/-- The loop of `sys_exec` that fetches the arguments, from argument `i` on. `pages` are the
pages that hold the arguments so far. It returns all the pages, and the strings if there was no
error. -/
def fetchArgs (p : Slot) (uargv : Nat) :
    (rounds : Nat) → (pages : List Nat) → (argv : List (List UInt8)) →
    OsM (List Nat × Option (List (List UInt8)))
  | 0, pages, _ => return (pages, none)
  | rounds + 1, pages, argv => do
    match ← fetchaddr p ((uargv + 8 * argv.length) % 2 ^ 64) with
    | none => return (pages, none)
    | some uarg =>
      if uarg = 0 then return (pages, some argv)
      else
        match ← onPhys kalloc with
        | none => return (pages, none)
        | some page =>
          let (bs, len) ← fetchstr p uarg PGSIZE
          onPhys (store page bs)
          if len < 0 then return (pages ++ [page], none)
          else fetchArgs p uargv rounds (pages ++ [page]) (argv ++ [bs.dropLast])

/-- `fs` gives the contents of the executable at a path. -/
def sys_exec (p : Slot) (upath uargv : Nat) (fs : List UInt8 → Option (List UInt8)) :
    OsM Int := do
  let (path, len) ← fetchstr p upath MAXPATH
  if len < 0 then return -1
  else do
    let (pages, argv) ← fetchArgs p uargv MAXARG [] []
    let ret ←
      match argv with
      | none => pure (-1)
      | some argv => exec p (fs path.dropLast) argv
    pages.forM fun page => onPhys (kfree page)
    return ret

/-! ### Boot -/

/-- `initcode` of `proc.c`. -/
def initcode : List UInt8 :=
  [0x04, 0x00, 0x00, 0x1c, 0x84, 0x00, 0xc1, 0x28,
   0x05, 0x00, 0x00, 0x1c, 0xa5, 0x00, 0xc1, 0x28,
   0x0b, 0x1c, 0x80, 0x03, 0x00, 0x00, 0x2b, 0x00,
   0x0b, 0x08, 0x80, 0x03, 0x00, 0x00, 0x2b, 0x00,
   0xff, 0xfb, 0xff, 0x57, 0x2f, 0x69, 0x6e, 0x69,
   0x74, 0x00, 0x00, 0x00, 0x24, 0x00, 0x00, 0x00,
   0x00, 0x00, 0x00, 0x00, 0x00, 0x00, 0x00, 0x00,
   0x00, 0x00, 0x00, 0x00, 0x00, 0x00, 0x00, 0x00,
   0x24, 0x00, 0x00, 0x00, 0x00, 0x00, 0x00, 0x00,
   0x2c, 0x00, 0x00, 0x00, 0x00, 0x00, 0x00, 0x00]

/-- Map a page for the kernel stack of each process. -/
def proc_mapstacks (kpgtbl : Nat) : VmM Unit :=
  (List.range NPROC).forM fun p => do
    match ← kalloc with
    | none => throw .mapstacks
    | some pa =>
      if (← mappages kpgtbl (KSTACK p) PGSIZE pa
          (PTE_NX ||| PTE_P ||| PTE_W ||| PTE_MAT ||| PTE_D)) ≠ 0 then throw .mapstacks
      else pure ()

def vminit : VmM Nat := do
  match ← kalloc with
  | none => throw .null
  | some kpgtbl =>
    memset kpgtbl 0 PGSIZE
    proc_mapstacks kpgtbl
    return kpgtbl

def userinit : OsM Unit := do
  match ← allocproc with
  | none => throw .null
  | some p =>
    let q := (← get).proc p
    onPhys (uvminit q.pagetable initcode)
    modifyProc p fun q => { q with sz := PGSIZE }
    onPhys (store64 (q.trapframe + TF_ERA) 0)
    onPhys (store64 (q.trapframe + TF_SP) PGSIZE)
    modifyProc p fun q => { q with state := .runnable }

/-- An unused entry of the process table. -/
def UProc.empty : UProc :=
  { state := .unused, chan := none, killed := false, xstate := 0, pid := 0, parent := none
    sz := 0, pagetable := 0, trapframe := 0, ofile := fun _ => none }

/-- The kernel's data after loading, with any memory contents. -/
def Os.start (mem : Bytes) : Os :=
  { phys := { mem := mem, freelist := [] }
    proc := fun _ => UProc.empty
    nextpid := 1
    file := fun _ => { type := .none, ref := 0, readable := false, writable := false, pipe := 0 }
    kpgtbl := 0 }

/-- `main`, as far as pages are concerned. -/
def boot : OsM Unit := do
  onPhys kinit
  let kpgtbl ← onPhys vminit
  modify fun s => { s with kpgtbl := kpgtbl }
  userinit

/-! ### Runs -/

/-- A system call of process `p`, or a store of its user code. -/
inductive Call where
  | fork
  | exec (upath uargv : Nat) (fs : List UInt8 → Option (List UInt8))
  | sbrk (n : CInt)
  | exit (status : CInt)
  | wait (addr : Nat)
  | pipe (fdarray : Nat)
  | dup (fd : Fin NOFILE)
  | close (fd : Fin NOFILE)
  | «open» (found : Option Target) (omode : BitVec 32)
  | store (va : Nat) (b : UInt8)

/-- A store of user code; on a page fault nothing is stored. -/
def userStore (p : Slot) (va : Nat) (b : UInt8) : OsM Unit := do
  let q := (← get).proc p
  let pa ← onPhys (walkaddr q.pagetable (PGROUNDDOWN va))
  if pa = 0 then pure () else onPhys (Xv6.store (dmwin (pa + (va - PGROUNDDOWN va))) [b])

/-- Carry out a call; only a process that runs makes one. -/
def call (p : Slot) (c : Call) : OsM Unit := do
  if ((← get).proc p).state = .runnable then
    match c with
    | .fork => let _ ← fork p
    | .exec upath uargv fs => let _ ← sys_exec p upath uargv fs
    | .sbrk n => let _ ← sys_sbrk p n
    | .exit status => exit p status
    | .wait addr => let _ ← wait p addr
    | .pipe fdarray => let _ ← sys_pipe p fdarray
    | .dup fd => let _ ← sys_dup p fd
    | .close fd => let _ ← sys_close p fd
    | .open found omode => let _ ← sys_open p found omode
    | .store va b => userStore p va b
  else pure ()

/-- The state after booting with memory contents `mem` and making some calls. -/
def run (mem : Bytes) (calls : List (Slot × Call)) : Except Panic Os := do
  let ((), s) ← (do boot; calls.forM fun c => call c.1 c.2 : OsM Unit).run (Os.start mem)
  return s

end Xv6
