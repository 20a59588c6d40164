import Mathlib.Data.List.Chain
import Mathlib.Data.Nat.Find
import Mathlib.Logic.Function.Iterate

/-!
# `Xv6.Lib.Linked`: lists linked by pointers

`next` gives the successor of every node. `Linked next l` says that each node of `l` links to the
one after it; a ring of the nodes `a :: l` is `Linked next (a :: l ++ [a])`. Links are changed one
at a time, and a list stays linked if its own links stay (`Linked.congr`).

A loop that follows the links of a ring comes to every node (`ring_reach`). If it goes around once,
it comes to every node before it is back where it started (`ring_reachBefore`).
-/

set_option autoImplicit false

namespace Xv6.Lib

variable {α : Type}

/-- Each node links to the one after it. -/
def Linked (next : α → α) (l : List α) : Prop := l.IsChain fun a b => next a = b

section Linked

variable {next : α → α} {a b c : α} {l l₁ l₂ : List α}

/-- A chain of links is the links up to a node, and those from it on. -/
theorem linked_split :
    Linked next (l₁ ++ c :: l₂) ↔ Linked next (l₁ ++ [c]) ∧ Linked next (c :: l₂) :=
  List.isChain_split

theorem linked_cons_cons : Linked next (a :: b :: l) ↔ next a = b ∧ Linked next (b :: l) :=
  List.isChain_cons_cons

/-- A list stays linked if its own links stay. The link of the last node is not one of them. -/
theorem Linked.congr {next' : α → α} (h : Linked next l)
    (heq : ∀ x ∈ l.dropLast, next' x = next x) : Linked next' l := by
  induction l with
  | nil => exact .nil
  | cons a l ih =>
    cases l with
    | nil => exact .singleton _
    | cons b l =>
      obtain ⟨hab, hrest⟩ := linked_cons_cons.mp h
      rw [List.dropLast_cons_cons] at heq
      refine linked_cons_cons.mpr ⟨?_, ih hrest fun x hx => heq x (List.mem_cons_of_mem a hx)⟩
      rw [heq a List.mem_cons_self, hab]

/-- Following the links from the first node, one comes to every node. -/
theorem Linked.reach (h : Linked next (a :: l)) {x : α} (hx : x ∈ a :: l) :
    ∃ k, next^[k] a = x := by
  induction l generalizing a with
  | nil => exact ⟨0, (List.mem_singleton.mp hx).symm⟩
  | cons b l ih =>
    obtain ⟨hab, hrest⟩ := linked_cons_cons.mp h
    rcases List.mem_cons.mp hx with rfl | hx
    · exact ⟨0, rfl⟩
    · obtain ⟨k, hk⟩ := ih hrest hx
      exact ⟨k + 1, by rw [Function.iterate_succ_apply, hab, hk]⟩

/-- The successor of a node in a ring is in the ring. -/
theorem ring_next_mem (h : Linked next (a :: l ++ [a])) {x : α} (hx : x ∈ a :: l) :
    next x ∈ a :: l := by
  obtain ⟨l₁, l₂, hl⟩ := List.append_of_mem hx
  rw [hl, List.append_assoc, List.cons_append] at h
  have htail := (linked_split.mp h).2
  cases l₂ with
  | nil =>
    rw [(linked_cons_cons.mp htail).1]
    exact List.mem_cons_self
  | cons y l₂ =>
    rw [(linked_cons_cons.mp htail).1, hl]
    simp

/-- In a ring one comes from every node to every node. -/
theorem ring_reach (h : Linked next (a :: l ++ [a])) {x y : α} (hx : x ∈ a :: l)
    (hy : y ∈ a :: l) : ∃ k, next^[k] x = y := by
  have hfrom : ∃ k, next^[k] x = a := by
    obtain ⟨l₁, l₂, hl⟩ := List.append_of_mem hx
    rw [hl, List.append_assoc, List.cons_append] at h
    exact (linked_split.mp h).2.reach (by simp)
  obtain ⟨m, hm⟩ := hfrom
  obtain ⟨k, hk⟩ := Linked.reach h (List.mem_append_left [a] hy)
  exact ⟨k + m, by rw [Function.iterate_add_apply, hm, hk]⟩

/-- Following the links from `x` one comes to `y`, and not to `stop` on the way. -/
def ReachBefore (next : α → α) (stop x y : α) : Prop :=
  ∃ k, next^[k] x = y ∧ ∀ i < k, next^[i] x ≠ stop

/-- A loop around the ring comes to every node before it comes back. -/
theorem ring_reachBefore (h : Linked next (a :: l ++ [a])) {x y : α} (hx : x ∈ a :: l)
    (hy : y ∈ a :: l) : ReachBefore next x (next x) y := by
  classical
  have hex : ∃ k, next^[k] (next x) = y := ring_reach h (ring_next_mem h hx) hy
  refine ⟨Nat.find hex, Nat.find_spec hex, fun i hi hstop => ?_⟩
  -- coming back to `x` makes the way shorter by a round
  have hspec := Nat.find_spec hex
  obtain ⟨d, hd⟩ := Nat.exists_eq_add_of_lt hi
  have hshort : next^[d] (next x) = y := by
    rw [hd, show i + d + 1 = d + 1 + i by omega, Function.iterate_add_apply, hstop,
      Function.iterate_succ_apply] at hspec
    exact hspec
  exact Nat.find_min hex (by omega) hshort

end Linked

end Xv6.Lib
