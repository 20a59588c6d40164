import Xv6.Kernel.String

/-!
# `Xv6.Proofs.Memmove`: copies of ranges that overlap

The two `memmove`s choose the direction by different tests: the kernel copies downwards only if the
destination starts inside the source, the user library whenever the destination is not below the
source. Neither loop starts inside the range that it would spoil, because neither range wraps
(`startsIn_lt`).
-/

set_option autoImplicit false

namespace Xv6.Proofs

open Lib

variable {dst src x y : BitVec 64} {n : BitVec 32} {mem : Memory}

/-- The destination range holds what the source range held, and every other byte is unchanged. -/
def RangeMoved (mem mem' : Memory) (dst src n : Nat) : Prop :=
  (∀ i < n, mem' (BitVec.ofNat 64 (dst + i)) = mem (BitVec.ofNat 64 (src + i))) ∧
  ∀ a : BitVec 64, a.toNat < dst ∨ dst + n ≤ a.toNat → mem' a = mem a

/-- Inside a range that does not wrap, later means above. -/
theorem startsIn_lt {k : Nat} (hy : y.toNat + k ≤ 2 ^ 64) (h : StartsIn x y k) :
    y.toNat < x.toNat ∧ x.toNat < y.toNat + k := by
  obtain ⟨hne, hlt⟩ := h
  have hne' : x.toNat ≠ y.toNat := fun heq => hne (BitVec.eq_of_toNat_eq heq)
  have := x.isLt
  rw [BitVec.toNat_sub] at hlt
  omega

/-- The move of the library is the move of a range, as long as the destination does not wrap. -/
theorem moved_range {k : Nat} (hdst : dst.toNat + k ≤ 2 ^ 64) :
    RangeMoved mem (moved mem dst src k) dst.toNat src.toNat k := by
  have hadd : ∀ (z : BitVec 64) i, BitVec.ofNat 64 (z.toNat + i) = z + BitVec.ofNat 64 i :=
    fun z i => by rw [BitVec.ofNat_add, BitVec.ofNat_toNat, BitVec.setWidth_eq]
  refine ⟨fun i hi => ?_, fun a ha => if_neg ?_⟩
  · have hsub : dst + BitVec.ofNat 64 i - dst = BitVec.ofNat 64 i := add_sub_cancel_left dst _
    have hlt : (BitVec.ofNat 64 i).toNat < k := by
      rw [BitVec.toNat_ofNat]
      omega
    rw [hadd, hadd, moved, hsub, if_pos hlt]
  · have := a.isLt
    rw [BitVec.toNat_sub]
    omega

/-- The kernel goes down exactly when the destination starts inside the source. -/
theorem string_memmove (hsrc : src.toNat + n.toNat ≤ 2 ^ 64)
    (hdst : dst.toNat + n.toNat ≤ 2 ^ 64) :
    String.memmove dst src n mem = (moved mem dst src n.toNat, dst) := by
  have hn := n.isLt
  have hlen : n.setWidth 64 = BitVec.ofNat 64 n.toNat := by
    rw [← BitVec.toNat_inj, BitVec.toNat_setWidth, BitVec.toNat_ofNat]
  unfold String.memmove
  dsimp only
  by_cases hzero : n = 0
  · subst hzero
    rfl
  rw [if_neg hzero]
  by_cases hover : src < dst ∧ dst < src + n.setWidth 64
  · rw [if_pos hover, hlen, copyDown_eq_moved (by omega) fun hin => ?_]
    have := (startsIn_lt hdst hin).1
    have := BitVec.lt_def.mp hover.1
    omega
  · rw [if_neg hover, copyUp_eq_moved (by omega) fun hin => hover ?_]
    obtain ⟨hlt, hend⟩ := startsIn_lt hsrc hin
    have := dst.isLt
    refine ⟨BitVec.lt_def.mpr hlt, BitVec.lt_def.mpr ?_⟩
    -- the end of the source is not beyond the last address, since the destination does not wrap
    rw [BitVec.toNat_add, BitVec.toNat_setWidth]
    omega

/-- `memmove` of the user library moves the bytes, also where the two ranges overlap. -/
theorem ulib_memmove (hn : n.toNat < 2 ^ 31) (hsrc : src.toNat + n.toNat ≤ 2 ^ 64)
    (hdst : dst.toNat + n.toNat ≤ 2 ^ 64) :
    Ulib.memmove dst src n mem = (moved mem dst src n.toNat, dst) := by
  have hpos : n.msb = false := by
    rw [BitVec.msb_eq_false_iff_two_mul_lt]
    omega
  have hlen : n.signExtend 64 = BitVec.ofNat 64 n.toNat := by
    rw [BitVec.signExtend_eq_setWidth_of_msb_false hpos, ← BitVec.toNat_inj, BitVec.toNat_setWidth,
      BitVec.toNat_ofNat]
  have hcount : n.toInt.toNat = n.toNat := by
    rw [BitVec.toInt_eq_toNat_of_msb hpos, Int.toNat_natCast]
  unfold Ulib.memmove
  dsimp only
  rw [hcount, hlen]
  by_cases hup : dst < src
  · rw [if_pos hup, copyUp_eq_moved (by omega) fun hin => ?_]
    have := (startsIn_lt hsrc hin).1
    have := BitVec.lt_def.mp hup
    omega
  · rw [if_neg hup, copyDown_eq_moved (by omega) fun hin => ?_]
    exact hup (BitVec.lt_def.mpr (startsIn_lt hdst hin).1)

/-- Both functions copy a range right, however the ranges overlap, and so they agree. -/
theorem memmove_overlapping (hn : n.toNat < 2 ^ 31) (hsrc : src.toNat + n.toNat ≤ 2 ^ 64)
    (hdst : dst.toNat + n.toNat ≤ 2 ^ 64) :
    RangeMoved mem (String.memmove dst src n mem).1 dst.toNat src.toNat n.toNat ∧
    RangeMoved mem (Ulib.memmove dst src n mem).1 dst.toNat src.toNat n.toNat ∧
    String.memmove dst src n mem = Ulib.memmove dst src n mem := by
  rw [string_memmove hsrc hdst, ulib_memmove hn hsrc hdst]
  exact ⟨moved_range hdst, moved_range hdst, rfl⟩

/-- The memory that holds its own addresses. -/
def ownAddress : Memory := fun a => UInt8.ofNat a.toNat

/-- Three bytes are moved up by one, over themselves. -/
theorem memmove_overlapping_up : RangeMoved ownAddress (String.memmove 1 0 3 ownAddress).1 1 0 3 ∧
    (String.memmove 1 0 3 ownAddress).1 3 = 2 ∧
    String.memmove 1 0 3 ownAddress = Ulib.memmove 1 0 3 ownAddress := by
  obtain ⟨hmoved, -, hagree⟩ : _ ∧ _ ∧ String.memmove 1 0 3 ownAddress = _ :=
    memmove_overlapping (by decide) (by decide) (by decide)
  exact ⟨hmoved, hmoved.1 2 (by decide), hagree⟩

end Xv6.Proofs
