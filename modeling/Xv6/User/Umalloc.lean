import Xv6.Kernel.Vm
import Xv6.Lib.Blocks
import Mathlib.Logic.Function.Basic

/-!
# `Xv6.User.Umalloc`: the allocator of user programs

`free`, `morecore` and `malloc` of `umalloc.c`. Addresses count bytes. Memory is given by the two
fields of a header: `ptr a` and `size a` are `((Header*)a)->s.ptr` and `((Header*)a)->s.size`.
`size` is a `uint`, so sums of sizes wrap.

`sbrk` belongs to the caller of `malloc`. It fails, or it returns a region some way above all it has
returned before: the argument `sbrk` of `malloc` gives the distance for each of its calls. The
domain of `malloc` keeps the argument of `sbrk` below `2 ^ 31`.

The loops of `free` and `malloc` follow pointers, so here they take a fuel argument. `brk`,
`regions` and `live` are the history: the end of the memory obtained so far, the regions that
`sbrk` has returned, and the blocks that the program holds.

`mallocInt` is `malloc` for all requests, with the `sbrk` of the kernel, whose argument is an `int`.
-/

set_option autoImplicit false

namespace Xv6

open Lib

/-- `sizeof(Header)` -/
def sizeofHeader : Nat := 16

/-- Conversion to `uint`. -/
def uint (x : Nat) : Nat := x % 2 ^ 32

/-- A pointer that `malloc(nbytes)` has returned and that is not freed. -/
structure Chunk where
  ap : Nat
  nbytes : Nat
  deriving DecidableEq

structure Heap where
  ptr : Nat → Nat
  size : Nat → Nat
  /-- 0 is the null pointer -/
  freep : Nat
  brk : Nat
  regions : List MemBlock
  live : List Chunk

namespace Heap

def setPtr (h : Heap) (a v : Nat) : Heap := { h with ptr := Function.update h.ptr a v }

def setSize (h : Heap) (a v : Nat) : Heap := { h with size := Function.update h.size a v }

/-- The loop of `free`: the place in the list after which `bp` goes. -/
def findPlace (h : Heap) (bp : Nat) : (fuel p : Nat) → Option Nat
  | 0, _ => none
  | fuel + 1, p =>
    if p < bp ∧ bp < h.ptr p then some p
    else if h.ptr p ≤ p ∧ (p < bp ∨ bp < h.ptr p) then some p
    else findPlace h bp fuel (h.ptr p)

/-- `free`, after the loop has stopped at `p`: join with the upper neighbour -/
def joinUpper (h : Heap) (bp p : Nat) : Heap :=
  if bp + sizeofHeader * h.size bp = h.ptr p then
    (h.setSize bp (uint (h.size bp + h.size (h.ptr p)))).setPtr bp (h.ptr (h.ptr p))
  else h.setPtr bp (h.ptr p)

/-- and then with the lower one. -/
def joinLower (h : Heap) (bp p : Nat) : Heap :=
  if p + sizeofHeader * h.size p = bp then
    (h.setSize p (uint (h.size p + h.size bp))).setPtr p (h.ptr bp)
  else h.setPtr p bp

def free (fuel : Nat) (ap : Nat) (h : Heap) : Option Heap :=
  let bp := ap - sizeofHeader
  (h.findPlace bp fuel h.freep).map fun p =>
    { (h.joinUpper bp p).joinLower bp p with freep := p }

/-- What `sbrk` does when it succeeds. -/
def grow (h : Heap) (p nu : Nat) : Heap :=
  { h with regions := h.regions ++ [⟨p, nu⟩], brk := p + sizeofHeader * nu }

/-- `morecore`; `gap` is the answer of `sbrk`. The result is the pointer it returns. -/
def morecore (fuel nu : Nat) (gap : Option Nat) (h : Heap) : Option (Nat × Heap) :=
  let nu := if nu < 4096 then 4096 else nu
  match gap with
  | none => some (0, h)
  | some gap =>
    let hp := h.brk + gap
    (((h.grow hp nu).setSize hp nu).free fuel (hp + sizeofHeader)).map fun h => (h.freep, h)

/-- `malloc`, when `p` has enough units. -/
def take (h : Heap) (nunits prevp p : Nat) : Nat × Heap :=
  if h.size p = nunits then (p + sizeofHeader, { h.setPtr prevp (h.ptr p) with freep := prevp })
  else
    let h := h.setSize p (h.size p - nunits)
    let p := p + sizeofHeader * h.size p
    (p + sizeofHeader, { h.setSize p nunits with freep := prevp })

/-- The loop of `malloc`; `calls` counts the calls of `sbrk`. -/
def mallocLoop (nunits : Nat) (sbrk : Nat → Option Nat) :
    (fuel calls prevp p : Nat) → Heap → Option (Nat × Heap)
  | 0, _, _, _, _ => none
  | fuel + 1, calls, prevp, p, h =>
    if nunits ≤ h.size p then some (h.take nunits prevp p)
    else if p = h.freep then
      match h.morecore fuel nunits (sbrk calls) with
      | none => none
      | some (p, h) =>
        if p = 0 then some (0, h) else mallocLoop nunits sbrk fuel (calls + 1) p (h.ptr p) h
    else mallocLoop nunits sbrk fuel calls p (h.ptr p) h

/-- The header units for `nbytes` bytes. -/
def nunits (nbytes : Nat) : Nat :=
  uint ((nbytes + sizeofHeader - 1) / sizeofHeader + 1)

/-- The first call sets up the list. -/
def init (base : Nat) (h : Heap) : Heap :=
  if h.freep = 0 then { (h.setPtr base base).setSize base 0 with freep := base } else h

/-- `malloc`. The result is the pointer it returns, 0 if there is no memory. -/
def malloc (base fuel nbytes : Nat) (sbrk : Nat → Option Nat) (h : Heap) : Option (Nat × Heap) :=
  let h := h.init base
  mallocLoop (nunits nbytes) sbrk fuel 0 h.freep (h.ptr h.freep) h

end Heap

/-! ### The `sbrk` of the kernel -/

namespace Heap

/-- `sbrk(n)` in a process of size `sz`. The address that it returns is `sz`; the result here is the
new size, or `none` for an error. `room` says whether the kernel has the pages. -/
def sbrkInt (room : Bool) (sz : Nat) (n : BitVec 32) : Option Nat :=
  let newsz := (sz + n.toNat) % 2 ^ 32
  if 0 < n.toInt then if MAXVA - PGSIZE ≤ newsz ∨ room = false then none else some newsz
  else if n.toInt < 0 then some (min sz newsz)
  else some sz

/-- What `sbrk` does in a process of size `sz` when it succeeds with the new size `sz'`. -/
def growTo (h : Heap) (sz sz' : Nat) : Heap :=
  { h with regions := h.regions ++ [⟨sz, (sz' - sz) / sizeofHeader⟩], brk := sz' }

/-- `morecore` in a process of size `sz`. The result is the pointer it returns, or `none` if the
process is killed: the fields of the header of the new region, 12 bytes, are stored at the old
size. -/
def morecoreInt (fuel nu : Nat) (room : Bool) (sz : Nat) (h : Heap) :
    Option (Option Nat × Heap × Nat) :=
  let nu := if nu < 4096 then 4096 else nu
  match sbrkInt room sz (BitVec.ofNat 32 (nu * sizeofHeader)) with
  | none => some (some 0, h, sz)
  | some sz' =>
    if PGROUNDUP sz' < sz + 12 then some (none, h, sz')
    else
      (((h.growTo sz sz').setSize sz nu).free fuel (sz + sizeofHeader)).map fun h =>
        (some h.freep, h, sz')

/-- The loop of `malloc` in a process of size `sz`. -/
def mallocLoopInt (nunits : Nat) (room : Nat → Bool) :
    (fuel calls prevp p sz : Nat) → Heap → Option (Option Nat × Heap × Nat)
  | 0, _, _, _, _, _ => none
  | fuel + 1, calls, prevp, p, sz, h =>
    if nunits ≤ h.size p then some (some (h.take nunits prevp p).1, (h.take nunits prevp p).2, sz)
    else if p = h.freep then
      match h.morecoreInt fuel nunits (room calls) sz with
      | none => none
      | some (none, h, sz) => some (none, h, sz)
      | some (some p, h, sz) =>
        if p = 0 then some (some 0, h, sz)
        else mallocLoopInt nunits room fuel (calls + 1) p (h.ptr p) sz h
    else mallocLoopInt nunits room fuel calls p (h.ptr p) sz h

/-- `malloc` in a process of size `sz`: the pointer, or `none` if the process is killed, and the new
size. -/
def mallocInt (base fuel nbytes : Nat) (room : Nat → Bool) (sz : Nat) (h : Heap) :
    Option (Option Nat × Heap × Nat) :=
  let h := h.init base
  mallocLoopInt (nunits nbytes) room fuel 0 h.freep (h.ptr h.freep) sz h

end Heap

/-! ### A program that allocates -/

inductive HeapEvent where
  | malloc (nbytes : Nat) (sbrk : Nat → Option Nat)
  | free (ap : Nat)
  /-- the program writes to a block of its own, which changes what would be the fields of a header
  at `a` -/
  | write (a ptr size : Nat)

namespace Heap

/-- The requests that `sbrk` can be asked for. -/
def InDomain (nbytes : Nat) : Prop :=
  ((nbytes + 15) / 16 + 1) * 16 < 2 ^ 31

instance (nbytes : Nat) : Decidable (InDomain nbytes) :=
  inferInstanceAs (Decidable (_ < _))

/-- A write at `a` is inside a block that the program holds, behind its header. -/
def Writable (h : Heap) (a : Nat) : Prop :=
  ∃ c ∈ h.live, c.ap - sizeofHeader < a ∧
    a < c.ap - sizeofHeader + sizeofHeader * h.size (c.ap - sizeofHeader)

instance (h : Heap) (a : Nat) : Decidable (h.Writable a) :=
  inferInstanceAs (Decidable (∃ c ∈ h.live, _))

/-- One action of the program; `none` if it is not allowed, or if the fuel runs out. -/
def step (base fuel : Nat) (h : Heap) : HeapEvent → Option Heap
  | .malloc nbytes sbrk =>
    if InDomain nbytes then
      (h.malloc base fuel nbytes sbrk).map fun r =>
        if r.1 = 0 then r.2 else { r.2 with live := r.2.live ++ [⟨r.1, nbytes⟩] }
    else none
  | .free ap =>
    if ∃ c ∈ h.live, c.ap = ap then
      (h.free fuel ap).map fun h => { h with live := h.live.eraseP fun c => c.ap = ap }
    else none
  | .write a ptr size =>
    if h.Writable a then some ((h.setPtr a ptr).setSize a size) else none

def run (base fuel : Nat) (h : Heap) (evs : List HeapEvent) : Option Heap :=
  evs.foldlM (step base fuel) h

/-- A program that has not allocated yet, in memory with any contents. -/
def start (base : Nat) (ptr size : Nat → Nat) : Heap :=
  { ptr := ptr, size := size, freep := 0, brk := base + sizeofHeader, regions := [], live := [] }

end Heap

/-! ### A program in a process -/

inductive HeapCall where
  | malloc (nbytes : Nat) (room : Nat → Bool)
  | free (ap : Nat)
  | write (a ptr size : Nat)

namespace Heap

/-- One action of a program in a process of size `sz`; `none` if it is not allowed, if the process
is killed, or if the fuel runs out. The requests are those in the domain and larger ones that are
refused. -/
def stepInt (base fuel : Nat) : Heap × Nat → HeapCall → Option (Heap × Nat)
  | (h, sz), .malloc nbytes room =>
    if nbytes < 2 ^ 32 then
      match h.mallocInt base fuel nbytes room sz with
      | some (some r, h', sz') =>
        if r = 0 then some (h', sz')
        else if InDomain nbytes then
          some ({ h' with live := h'.live ++ [⟨r, nbytes⟩] }, sz')
        else none
      | _ => none
    else none
  | (h, sz), .free ap => (h.step base fuel (.free ap)).map fun h' => (h', sz)
  | (h, sz), .write a ptr size => (h.step base fuel (.write a ptr size)).map fun h' => (h', sz)

def runInt (base fuel : Nat) (s : Heap × Nat) (evs : List HeapCall) : Option (Heap × Nat) :=
  evs.foldlM (stepInt base fuel) s

end Heap

end Xv6
