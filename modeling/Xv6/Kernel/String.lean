import Xv6.Lib.Copy

/-!
# `Xv6.Kernel.String`: `memmove` of the kernel and of user programs (`string.c`, `ulib.c`)

Pointers are 64 bits wide and sums of them wrap. The length is a `uint` in the kernel and an `int`
in the user library. Both functions return the destination.
-/

set_option autoImplicit false

namespace Xv6

open Lib

abbrev Memory := BitVec 64 → UInt8

/-- `memmove` of `string.c` -/
def String.memmove (dst src : BitVec 64) (n : BitVec 32) (mem : Memory) : Memory × BitVec 64 :=
  let len := n.setWidth 64
  if n = 0 then (mem, dst)
  else if src < dst ∧ dst < src + len then
    (copyDown mem (dst + len) (src + len) n.toNat, dst)
  else (copyUp mem dst src n.toNat, dst)

/-- `memmove` of `ulib.c`. The loops run while `n` is positive as an `int`. -/
def Ulib.memmove (vdst vsrc : BitVec 64) (n : BitVec 32) (mem : Memory) : Memory × BitVec 64 :=
  let len := n.signExtend 64
  if vdst < vsrc then (copyUp mem vdst vsrc n.toInt.toNat, vdst)
  else (copyDown mem (vdst + len) (vsrc + len) n.toInt.toNat, vdst)

end Xv6
