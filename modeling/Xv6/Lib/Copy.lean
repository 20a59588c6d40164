import Xv6.Lib.Ring
import Mathlib.Tactic.Abel

/-!
# `Xv6.Lib.Copy`: copying item by item

A loop that copies one item after the other reads what it has already written if the ranges overlap
the wrong way. Addresses wrap, so an address `a` is in the range of length `n` from `d` on if
`(a - d).toNat < n`. Copying upwards is right unless the destination starts inside the source, and
copying downwards unless the source starts inside the destination.
-/

set_option autoImplicit false

namespace Xv6.Lib

open Function (update update_self update_of_ne)

variable {w : Nat} {α : Type} {mem : BitVec w → α} {d s : BitVec w} {n : Nat}

/-- `while(n-- > 0) *d++ = *s++` -/
def copyUp (mem : BitVec w → α) (d s : BitVec w) : Nat → BitVec w → α
  | 0 => mem
  | n + 1 => copyUp (update mem d (mem s)) (d + 1) (s + 1) n

/-- `while(n-- > 0) *--d = *--s` -/
def copyDown (mem : BitVec w → α) (d s : BitVec w) : Nat → BitVec w → α
  | 0 => mem
  | n + 1 => copyDown (update mem (d - 1) (mem (s - 1))) (d - 1) (s - 1) n

/-- Memory with the range from `d` on replaced by what is in the range from `s` on. -/
def moved (mem : BitVec w → α) (d s : BitVec w) (n : Nat) : BitVec w → α := fun a =>
  if (a - d).toNat < n then mem (s + (a - d)) else mem a

/-- The address `x` comes after `y`, less than `n` items further on. -/
def StartsIn (x y : BitVec w) (n : Nat) : Prop := x ≠ y ∧ (x - y).toNat < n

/-- The first item is written, and then the others, whose sources are still there. -/
theorem copyUp_eq_moved (hn : n ≤ 2 ^ w) (h : ¬ StartsIn d s n) :
    copyUp mem d s n = moved mem d s n := by
  induction n generalizing mem d s with
  | zero => rfl
  | succ n ih =>
    have hshift : d + 1 - (s + 1) = d - s := add_sub_add_right_eq_sub d s 1
    have hrest : ¬ StartsIn (d + 1) (s + 1) n := fun hin =>
      h ⟨fun heq => hin.1 (by rw [heq]), by have := hin.2; rw [hshift] at this; omega⟩
    rw [copyUp, ih (by omega) hrest]
    funext a
    unfold moved
    have hsub : a - (d + 1) = a - d - 1 := sub_add_eq_sub_sub a d 1
    by_cases ha : a = d
    · -- the range of the others does not come back to the first item
      have hlast : (a - (d + 1)).toNat + 1 = 2 ^ w := by
        rw [ha, sub_add_cancel_left]
        have hall : (-1#w).toNat = 2 ^ w - 1 := by
          rw [BitVec.neg_one_eq_allOnes, BitVec.toNat_allOnes]
        have := Nat.two_pow_pos w
        exact (congrArg (· + 1) hall).trans (by omega)
      rw [if_neg (by omega), ha, update_self, sub_self, if_pos (by simp), add_zero]
    · have hne : a - d ≠ 0 := fun h0 => ha (sub_eq_zero.mp h0)
      have hpred := Ring.toNat_sub_one hne
      rw [hsub, show s + 1 + (a - d - 1) = s + (a - d) by abel, update_of_ne ha]
      by_cases hin : (a - d - 1).toNat < n
      · rw [if_pos hin, if_pos (by omega), update_of_ne fun heq => ?_]
        -- the source would be the first item of the destination
        have hds : d - s = a - d := sub_eq_of_eq_add' heq.symm
        exact h ⟨fun hd => hne (by rw [← hds, hd, sub_self]), by rw [hds]; omega⟩
      · rw [if_neg hin, if_neg (by omega)]

/-- Copying from the end moves the block if the destination does not start inside the source. -/
theorem copyDown_eq_moved (hn : n ≤ 2 ^ w) (h : ¬ StartsIn s d n) :
    copyDown mem (d + BitVec.ofNat w n) (s + BitVec.ofNat w n) n = moved mem d s n := by
  induction n generalizing mem with
  | zero => rw [copyDown]; rfl
  | succ n ih =>
    have hlt : (BitVec.ofNat w n).toNat = n := by
      rw [BitVec.toNat_ofNat, Nat.mod_eq_of_lt (by omega)]
    have hstep (x : BitVec w) : x + BitVec.ofNat w (n + 1) - 1 = x + BitVec.ofNat w n := by
      rw [BitVec.ofNat_add, ← add_assoc]
      exact add_sub_cancel_right _ _
    rw [copyDown, hstep, hstep, ih (by omega) fun hin => h ⟨hin.1, by have := hin.2; omega⟩]
    funext a
    unfold moved
    by_cases ha : a = d + BitVec.ofNat w n
    · rw [ha, add_sub_cancel_left, hlt, if_neg (Nat.lt_irrefl n), if_pos (Nat.lt_succ_self n),
        update_self]
    · have hne : (a - d).toNat ≠ n := fun heq => ha <| by
        rw [← heq, BitVec.ofNat_toNat, BitVec.setWidth_eq, add_sub_cancel]
      rw [update_of_ne ha]
      by_cases hin : (a - d).toNat < n
      · rw [if_pos hin, if_pos (by omega), update_of_ne fun heq => ?_]
        -- the source would be the last item of the destination
        have hsd : s - d = BitVec.ofNat w n - (a - d) := by
          rw [eq_sub_iff_add_eq, ← sub_eq_iff_eq_add'.mpr heq]
          abel
        have hle : a - d ≤ BitVec.ofNat w n := BitVec.le_def.mpr (by omega)
        have hdist : (s - d).toNat = n - (a - d).toNat := by
          rw [hsd, BitVec.toNat_sub_of_le hle, hlt]
        refine h ⟨fun heq => ?_, by omega⟩
        have hzero : 0 = n - (a - d).toNat := by
          rw [← hdist, heq, sub_self]
          exact BitVec.toNat_zero.symm
        omega
      · rw [if_neg hin, if_neg (by omega)]

end Xv6.Lib
