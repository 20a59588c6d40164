import Mathlib.Logic.Function.Basic
import Mathlib.Tactic.Common

/-!
# `Xv6.Lib.BlockMap`: an allocation map against the references

Blocks have numbers below `hi`, and those below `lo` are never handed out. `used` marks the blocks
in use. The references are a function from places to block numbers, 0 where there is none.

`Allocated` says that the two agree: a block is marked exactly if it is below `lo` or some place
refers to it, and no two places refer to the same block. It is kept when a free block is marked and
put into an empty place (`Allocated.alloc`).
-/

set_option autoImplicit false

namespace Xv6.Lib

variable {P : Type} {lo hi : Nat} {used : Nat → Bool} {ref : P → Nat}

structure Allocated (lo hi : Nat) (used : Nat → Bool) (ref : P → Nat) : Prop where
  range : ∀ p, ref p ≠ 0 → lo ≤ ref p ∧ ref p < hi
  inj : ∀ p q, ref p ≠ 0 → ref p = ref q → p = q
  used_iff : ∀ b, b < hi → (used b = true ↔ b < lo ∨ ∃ p, ref p = b ∧ ref p ≠ 0)

/-- A block that is not marked can be handed out, and no place refers to it. -/
theorem Allocated.of_unused (h : Allocated lo hi used ref) {b : Nat} (hb : b < hi)
    (hfree : used b = false) : lo ≤ b ∧ ∀ p, ref p ≠ 0 → ref p ≠ b := by
  have hnot : ¬ (b < lo ∨ ∃ p, ref p = b ∧ ref p ≠ 0) := by
    rw [← h.used_iff b hb, hfree]
    exact Bool.false_ne_true
  refine ⟨Nat.le_of_not_lt fun hlt => hnot (.inl hlt), fun p hp heq => hnot (.inr ⟨p, heq, hp⟩)⟩

/-- A block that a place refers to is marked. -/
theorem Allocated.used_of_ref (h : Allocated lo hi used ref) {p : P} (hp : ref p ≠ 0) :
    used (ref p) = true :=
  (h.used_iff _ (h.range p hp).2).mpr (.inr ⟨p, rfl, hp⟩)

/-- The map is looked at below `hi` only. -/
theorem Allocated.congr (h : Allocated lo hi used ref) {used' : Nat → Bool} {ref' : P → Nat}
    (hused : ∀ b, b < hi → used' b = used b) (href : ∀ p, ref' p = ref p) :
    Allocated lo hi used' ref' := by
  obtain rfl : ref' = ref := funext href
  exact ⟨h.range, h.inj, fun b hb => by rw [hused b hb, h.used_iff b hb]⟩

variable [DecidableEq P]

/-- A free block is marked and put into an empty place, and the map and the places still agree. -/
theorem Allocated.alloc (h : Allocated lo hi used ref) {b : Nat} {p : P} (hlo : 0 < lo)
    (hb : b < hi) (hfree : used b = false) (hp : ref p = 0) :
    Allocated lo hi (Function.update used b true) (Function.update ref p b) := by
  obtain ⟨hb', hnone⟩ := h.of_unused hb hfree
  constructor
  · intro q hq
    by_cases hqp : q = p
    · subst hqp
      rw [Function.update_self]
      exact ⟨hb', hb⟩
    · rw [Function.update_of_ne hqp] at hq ⊢
      exact h.range q hq
  · intro q r hq heq
    -- only the new place refers to `b`
    by_cases hqp : q = p
    · by_cases hrp : r = p
      · rw [hqp, hrp]
      · rw [hqp, Function.update_self, Function.update_of_ne hrp] at heq
        have hr : ref r ≠ 0 := by omega
        exact absurd heq.symm (hnone r hr)
    · rw [Function.update_of_ne hqp] at hq heq
      by_cases hrp : r = p
      · rw [hrp, Function.update_self] at heq
        exact absurd heq (hnone q hq)
      · rw [Function.update_of_ne hrp] at heq
        exact h.inj q r hq heq
  · intro c hc
    by_cases hcb : c = b
    · subst hcb
      rw [Function.update_self]
      exact iff_of_true rfl (.inr ⟨p, by simp; omega⟩)
    · rw [Function.update_of_ne hcb, h.used_iff c hc]
      refine or_congr Iff.rfl ⟨?_, ?_⟩
      · rintro ⟨q, hq, hne⟩
        have hqp : q ≠ p := by rintro rfl; exact hne hp
        exact ⟨q, by rw [Function.update_of_ne hqp]; exact ⟨hq, hne⟩⟩
      · rintro ⟨q, hq, hne⟩
        by_cases hqp : q = p
        · subst hqp
          rw [Function.update_self] at hq
          exact absurd hq.symm hcb
        · rw [Function.update_of_ne hqp] at hq hne
          exact ⟨q, hq, hne⟩

end Xv6.Lib
