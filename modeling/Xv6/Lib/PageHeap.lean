import Mathlib.Data.List.Perm.Subperm
import Mathlib.Data.List.Nodup
import Mathlib.Tactic.Common

/-!
# `Xv6.Lib.PageHeap`: ownership of pages

A page heap is a memory with a list of free pages. A function that works on pages is described
by `Moves h own h' own'`: starting with the pages `own` in use it ends with the pages `own'` in
use, no page is lost or made up (`perm`), and memory changed at most in the pages that were free
or in `own` (`agree`).

Such facts compose (`Moves.trans`) and survive next to pages that someone else uses
(`Moves.frame`), which are then not written (`Moves.kept`). So a function is proved to do its
work on its own pages, and every caller gets the rest of the memory for free.
-/

set_option autoImplicit false

namespace Xv6.Lib

/-- The pages of a machine: their size, and which addresses are pages. -/
structure PageKind where
  size : Nat
  Valid : Nat → Prop
  aligned : ∀ pg, Valid pg → size ∣ pg

/-- A memory and its free pages. -/
structure PageHeap (β : Type) where
  mem : Nat → β
  freelist : List Nat

variable {K : PageKind} {β : Type} {h h' h'' : PageHeap β} {own own' own'' rest : List Nat}

/-- Address `a` lies in page `pg`. -/
def InPage (K : PageKind) (pg a : Nat) : Prop := pg ≤ a ∧ a < pg + K.size

/-- An address is in one page only. -/
theorem inPage_unique {pg q a : Nat} (hpg : K.Valid pg) (hq : K.Valid q) (h : InPage K pg a)
    (h' : InPage K q a) : pg = q := by
  obtain ⟨i, rfl⟩ := K.aligned pg hpg
  obtain ⟨j, rfl⟩ := K.aligned q hq
  unfold InPage at h h'
  have hij : i = j := by
    by_contra hne
    rcases Nat.lt_or_gt_of_ne hne with hlt | hlt
    · have := Nat.mul_le_mul_left K.size (Nat.succ_le_of_lt hlt)
      rw [Nat.mul_succ] at this
      omega
    · have := Nat.mul_le_mul_left K.size (Nat.succ_le_of_lt hlt)
      rw [Nat.mul_succ] at this
      omega
  rw [hij]

/-- The free pages and the pages `own` are valid and different from each other. -/
structure Owns (K : PageKind) (h : PageHeap β) (own : List Nat) : Prop where
  nodup : (h.freelist ++ own).Nodup
  valid : ∀ pg ∈ h.freelist ++ own, K.Valid pg

/-- From `h` with `own` in use to `h'` with `own'` in use. -/
structure Moves (K : PageKind) (h : PageHeap β) (own : List Nat) (h' : PageHeap β)
    (own' : List Nat) : Prop where
  perm : (h'.freelist ++ own').Perm (h.freelist ++ own)
  agree : ∀ a, (∀ pg ∈ h.freelist ++ own, ¬ InPage K pg a) → h'.mem a = h.mem a

/-! ### Rules -/

theorem Moves.refl (h : PageHeap β) (own : List Nat) : Moves K h own h own :=
  ⟨List.Perm.refl _, fun _ _ => rfl⟩

/-- What two calls do one after the other to the pages. -/
theorem Moves.trans (h₁ : Moves K h own h' own') (h₂ : Moves K h' own' h'' own'') :
    Moves K h own h'' own'' := by
  refine ⟨h₂.perm.trans h₁.perm, fun a ha => ?_⟩
  rw [h₂.agree a fun pg hpg => ha pg (h₁.perm.subset hpg), h₁.agree a ha]

/-- The order of the pages in use does not matter. -/
theorem Moves.of_perm (hp : own'.Perm own) : Moves K h own h own' :=
  ⟨hp.append_left _, fun _ _ => rfl⟩

/-- Other pages in use stay in use. -/
theorem Moves.frame (hm : Moves K h own h' own') (rest : List Nat) :
    Moves K h (own ++ rest) h' (own' ++ rest) := by
  refine ⟨?_, fun a ha => hm.agree a fun pg hpg => ha pg ?_⟩
  · rw [← List.append_assoc, ← List.append_assoc]
    exact hm.perm.append_right rest
  · rw [← List.append_assoc]
    exact List.mem_append_left _ hpg

/-- One more page in use stays in use. -/
theorem Moves.cons (hm : Moves K h own h' own') (pg : Nat) :
    Moves K h (pg :: own) h' (pg :: own') :=
  ((Moves.of_perm (List.perm_append_singleton pg own)).trans (hm.frame [pg])).trans
    (Moves.of_perm (List.perm_append_singleton pg own').symm)

/-- No page is lost or made. -/
theorem Moves.length (hm : Moves K h own h' own') :
    h'.freelist.length + own'.length = h.freelist.length + own.length := by
  simpa using hm.perm.length_eq

/-- The pages that are owned after a call are still different pages, and none of them is free. -/
theorem Owns.moves (ho : Owns K h own) (hm : Moves K h own h' own') : Owns K h' own' :=
  ⟨hm.perm.nodup_iff.mpr ho.nodup, fun pg hpg => ho.valid pg (hm.perm.subset hpg)⟩

theorem Owns.perm (ho : Owns K h own) (hp : own'.Perm own) : Owns K h own' :=
  ho.moves (Moves.of_perm hp)

/-- The owner of pages owns a part of them. -/
theorem Owns.of_append (ho : Owns K h (own ++ rest)) : Owns K h own := by
  have hsub : (h.freelist ++ own).Sublist (h.freelist ++ (own ++ rest)) := by
    rw [← List.append_assoc]
    exact List.sublist_append_left _ _
  exact ⟨ho.nodup.sublist hsub, fun pg hpg => ho.valid pg (hsub.subset hpg)⟩

/-- Some of the pages in use. -/
theorem Owns.subperm (ho : Owns K h own) (hsub : own'.Subperm own) : Owns K h own' := by
  obtain ⟨l, hp, hl⟩ := hsub
  have hsl : (h.freelist ++ l).Sublist (h.freelist ++ own) := hl.append_left _
  exact Owns.perm ⟨ho.nodup.sublist hsl, fun pg hpg => ho.valid pg (hsl.subset hpg)⟩ hp.symm

theorem Owns.own_valid (ho : Owns K h own) {pg : Nat} (hpg : pg ∈ own) : K.Valid pg :=
  ho.valid pg (List.mem_append_right _ hpg)

/-- Pages that stay aside are not written. -/
theorem Moves.kept (hm : Moves K h own h' own') (ho : Owns K h (own ++ rest)) {pg a : Nat}
    (hpg : pg ∈ rest) (ha : InPage K pg a) : h'.mem a = h.mem a := by
  refine hm.agree a fun q hq hqa => ?_
  have hsplit := ho.nodup
  rw [← List.append_assoc] at hsplit
  have hq' : q ∈ h.freelist ++ (own ++ rest) := by
    rw [← List.append_assoc]
    exact List.mem_append_left _ hq
  have hpg' : pg ∈ h.freelist ++ (own ++ rest) :=
    List.mem_append_right _ (List.mem_append_right _ hpg)
  have heq := inPage_unique (ho.valid q hq') (ho.valid pg hpg') hqa ha
  exact (List.disjoint_of_nodup_append hsplit) hq (heq ▸ hpg)

/-! ### Allocation, release and writes -/

/-- The first free page is taken, and written at will. -/
theorem Moves.alloc {pg : Nat} {free : List Nat} {mem : Nat → β} (hfree : h.freelist = pg :: free)
    (hmem : ∀ a, ¬ InPage K pg a → mem a = h.mem a) : Moves K h own ⟨mem, free⟩ (pg :: own) := by
  refine ⟨?_, fun a ha => hmem a (ha pg ?_)⟩
  · rw [hfree]
    exact List.perm_middle
  · rw [hfree]
    exact List.mem_append_left _ List.mem_cons_self

/-- A page in use is given back, and written at will. -/
theorem Moves.free {pg : Nat} {mem : Nat → β} (hmem : ∀ a, ¬ InPage K pg a → mem a = h.mem a) :
    Moves K h (pg :: own) ⟨mem, pg :: h.freelist⟩ own :=
  ⟨List.perm_middle.symm, fun a ha =>
    hmem a (ha pg (List.mem_append_right _ List.mem_cons_self))⟩

/-- A page in use is written. -/
theorem Moves.write {pg : Nat} {mem : Nat → β} (hpg : pg ∈ own)
    (hmem : ∀ a, ¬ InPage K pg a → mem a = h.mem a) :
    Moves K h own { h with mem := mem } own :=
  ⟨List.Perm.refl _, fun a ha => hmem a (ha pg (List.mem_append_right _ hpg))⟩

end Xv6.Lib
