import Mathlib.Data.Multiset.Range
import Mathlib.Data.Multiset.UnionInter
import Mathlib.Algebra.BigOperators.Group.Multiset.Basic
import Mathlib.Algebra.Order.BigOperators.Group.Finset
import Mathlib.Algebra.Ring.Nat
import Mathlib.Data.Nat.Cast.Basic
import Mathlib.Order.Interval.Finset.Nat

/-!
# `Xv6.Lib.Blocks`: memory cut into blocks of units

A block is a number of units of `w` bytes, one after the other. `unitsOf` is the multiset of the
units of some blocks. Cutting a block in two and joining two neighbours leave it as it is
(`units_add`), so that two lists of blocks cover the same memory, each part once, exactly if their
`unitsOf` agree.

If the units are apart from each other, then so are the blocks (`pairwise_apart`), and every unit is
in exactly one block (`mem_exactly_one`).
-/

set_option autoImplicit false

namespace Xv6.Lib

variable {s : Multiset Nat} {u : Nat}

/-- `units` units from `addr` on. -/
structure MemBlock where
  addr : Nat
  units : Nat
  deriving DecidableEq

variable {w : Nat}

variable {b c : MemBlock} {l : List MemBlock}

/-- The addresses of the units of a block. -/
def units (w : Nat) (b : MemBlock) : Multiset Nat :=
  (Multiset.range b.units).map fun i => b.addr + w * i

def unitsOf (w : Nat) (l : List MemBlock) : Multiset Nat := (l.map (units w)).sum

theorem mem_units : u ∈ units w b ↔ ∃ i < b.units, b.addr + w * i = u := by
  simp [units]

/-- A block of `m + n` units is a block of `m` units followed by one of `n` units. -/
theorem units_add (a m n : Nat) :
    units w ⟨a, m + n⟩ = units w ⟨a, m⟩ + units w ⟨a + w * m, n⟩ := by
  simp only [units, Multiset.range_add, Multiset.map_add, Multiset.map_map, Function.comp_apply,
    Nat.mul_add, Nat.add_assoc]

@[simp] theorem unitsOf_nil : unitsOf w [] = 0 := rfl

@[simp] theorem unitsOf_cons (b : MemBlock) (l : List MemBlock) :
    unitsOf w (b :: l) = units w b + unitsOf w l :=
  List.sum_cons

@[simp] theorem unitsOf_append (l₁ l₂ : List MemBlock) :
    unitsOf w (l₁ ++ l₂) = unitsOf w l₁ + unitsOf w l₂ := by
  rw [unitsOf, List.map_append, List.sum_append]
  rfl

/-- The number of units is the sum of the sizes of the blocks. -/
theorem card_unitsOf (l : List MemBlock) : (unitsOf w l).card = (l.map MemBlock.units).sum := by
  induction l with
  | nil => rfl
  | cons b l ih => rw [unitsOf_cons, Multiset.card_add, ih]; simp [units]

theorem mem_unitsOf : u ∈ unitsOf w l ↔ ∃ b ∈ l, u ∈ units w b := by
  induction l with
  | nil => simp
  | cons b l ih => simp [ih]

/-! ### Blocks that do not overlap -/

/-- Two blocks have no byte in common. -/
def Apart (w : Nat) (b c : MemBlock) : Prop :=
  b.addr + w * b.units ≤ c.addr ∨ c.addr + w * c.units ≤ b.addr

/-- Blocks that are apart and not empty start at different addresses. -/
theorem Apart.addr_ne (hw : 0 < w) (h : Apart w b c) (hb : 0 < b.units) (hc : 0 < c.units) :
    b.addr ≠ c.addr := by
  have hb' := Nat.mul_pos hw hb
  have hc' := Nat.mul_pos hw hc
  rcases h with h | h <;> omega

/-- The units have no byte in common. -/
structure Spaced (w : Nat) (s : Multiset Nat) : Prop where
  nodup : s.Nodup
  le : ∀ u ∈ s, ∀ v ∈ s, u < v → u + w ≤ v

/-- A part of a set of units that do not overlap does not overlap either. -/
theorem Spaced.of_le {t : Multiset Nat} (h : Spaced w t) (hst : s ≤ t) : Spaced w s :=
  ⟨Multiset.nodup_of_le hst h.nodup, fun u hu v hv =>
    h.le u (Multiset.mem_of_le hst hu) v (Multiset.mem_of_le hst hv)⟩

/-- A unit of one part is not a unit of another one. -/
theorem Spaced.disjoint {t : Multiset Nat} (h : Spaced w (s + t)) (hs : u ∈ s) : u ∉ t := fun ht =>
  Multiset.disjoint_left.mp (Multiset.nodup_add.mp h.nodup).2.2 hs ht

/-- Units between `lo` and `hi` leave no more room than there is. -/
theorem Spaced.card_le (h : Spaced w s) {lo hi : Nat} (hle : lo ≤ hi)
    (hs : ∀ u ∈ s, lo ≤ u ∧ u + w ≤ hi) : lo + w * s.card ≤ hi := by
  have hdisjoint : ∀ u ∈ s, ∀ v ∈ s, u ≠ v →
      Disjoint (Finset.Ico u (u + w)) (Finset.Ico v (v + w)) := by
    intro u hu v hv hne
    rw [Finset.disjoint_left]
    intro x hx hx'
    rw [Finset.mem_Ico] at hx hx'
    rcases Nat.lt_or_gt_of_ne hne with hlt | hlt
    · have := h.le u hu v hv hlt
      omega
    · have := h.le v hv u hu hlt
      omega
  have hsub : (⟨s, h.nodup⟩ : Finset Nat).biUnion (fun u => Finset.Ico u (u + w))
      ⊆ Finset.Ico lo hi := by
    intro x hx
    obtain ⟨u, hu, hx⟩ := Finset.mem_biUnion.mp hx
    have := hs u hu
    rw [Finset.mem_Ico] at hx ⊢
    omega
  have hcard := Finset.card_le_card hsub
  rw [Finset.card_biUnion fun u hu v hv hne => hdisjoint u hu v hv hne] at hcard
  simp only [Nat.card_Ico, Nat.add_sub_cancel_left, Finset.sum_const, nsmul_eq_mul,
    Finset.card_mk, Nat.cast_id] at hcard
  rw [Nat.mul_comm w]
  omega

/-- A block above everything else. -/
theorem Spaced.add_block (hw : 0 < w) (h : Spaced w s) (hs : ∀ u ∈ s, u + w ≤ b.addr) :
    Spaced w (s + units w b) := by
  have hb : ∀ {u}, u ∈ units w b → b.addr ≤ u := by
    intro u hu
    obtain ⟨i, -, rfl⟩ := mem_units.mp hu
    exact Nat.le_add_right _ _
  refine ⟨Multiset.nodup_add.mpr ⟨h.nodup, ?_, Multiset.disjoint_left.mpr fun {u} hu hu' => ?_⟩,
    fun u hu v hv huv => ?_⟩
  · refine (Multiset.nodup_range b.units).map_on fun i _ j _ hij => ?_
    exact Nat.eq_of_mul_eq_mul_left hw (Nat.add_left_cancel hij)
  · have := hs u hu
    have := hb hu'
    omega
  · rcases Multiset.mem_add.mp hu with hu | hu <;> rcases Multiset.mem_add.mp hv with hv | hv
    · exact h.le u hu v hv huv
    · exact Nat.le_trans (hs u hu) (hb hv)
    · have := hs v hv
      have := hb hu
      omega
    · obtain ⟨i, -, rfl⟩ := mem_units.mp hu
      obtain ⟨j, -, rfl⟩ := mem_units.mp hv
      have hij : i + 1 ≤ j := Nat.lt_of_mul_lt_mul_left (Nat.lt_of_add_lt_add_left huv)
      have := Nat.mul_le_mul_left w hij
      rw [Nat.mul_add, Nat.mul_one] at this
      omega

/-- A block that starts inside of another one shares a unit with it. -/
theorem Spaced.end_le (hw : 0 < w) (h : Spaced w (units w b + units w c)) (hc : 0 < c.units)
    (hle : b.addr ≤ c.addr) : b.addr + w * b.units ≤ c.addr := by
  by_contra hlt
  have hi : (c.addr - b.addr) / w < b.units := by
    rw [Nat.div_lt_iff_lt_mul hw, Nat.mul_comm]
    omega
  have hdiv := Nat.div_add_mod (c.addr - b.addr) w
  have hmod := Nat.mod_lt (c.addr - b.addr) hw
  have hu : b.addr + w * ((c.addr - b.addr) / w) ∈ units w b := mem_units.mpr ⟨_, hi, rfl⟩
  have hv : c.addr ∈ units w c := mem_units.mpr ⟨0, hc, by simp⟩
  have hne : b.addr + w * ((c.addr - b.addr) / w) ≠ c.addr := by
    intro heq
    rw [heq] at hu
    exact h.disjoint hu hv
  have := h.le _ (Multiset.mem_add.mpr (.inl hu)) _ (Multiset.mem_add.mpr (.inr hv)) (by omega)
  omega

/-- Two blocks whose units do not overlap lie one after the other. -/
theorem Spaced.apart (hw : 0 < w) (h : Spaced w (units w b + units w c)) (hb : 0 < b.units)
    (hc : 0 < c.units) : Apart w b c := by
  rcases Nat.le_total b.addr c.addr with hle | hle
  · exact .inl (h.end_le hw hc hle)
  · exact .inr ((add_comm (units w b) _ ▸ h).end_le hw hb hle)

/-- Blocks without a common unit are apart. -/
theorem pairwise_apart (hw : 0 < w) (h : Spaced w (unitsOf w l)) (hpos : ∀ b ∈ l, 0 < b.units) :
    l.Pairwise (Apart w) := by
  induction l with
  | nil => exact .nil
  | cons b l ih =>
    rw [unitsOf_cons] at h
    refine List.pairwise_cons.mpr ⟨fun c hc => ?_, ih (h.of_le (Multiset.le_add_left _ _))
      fun c hc => hpos c (List.mem_cons_of_mem b hc)⟩
    have hle : units w c ≤ unitsOf w l := by
      obtain ⟨l₁, l₂, rfl⟩ := List.append_of_mem hc
      rw [unitsOf_append, unitsOf_cons]
      exact (Multiset.le_add_right _ _).trans (Multiset.le_add_left _ _)
    exact (h.of_le (add_le_add_right hle _)).apart hw (hpos b List.mem_cons_self)
      (hpos c (List.mem_cons_of_mem b hc))

/-- Every unit is in exactly one of the blocks. -/
theorem mem_exactly_one (h : Spaced w (unitsOf w l)) (hu : u ∈ unitsOf w l) :
    ∃! b, b ∈ l ∧ u ∈ units w b := by
  induction l with
  | nil => simp at hu
  | cons b l ih =>
    rw [unitsOf_cons] at h hu
    by_cases hb : u ∈ units w b
    · refine ⟨b, ⟨List.mem_cons_self, hb⟩, fun c ⟨hc, huc⟩ => ?_⟩
      rcases List.mem_cons.mp hc with rfl | hc
      · rfl
      · exact absurd (mem_unitsOf.mpr ⟨c, hc, huc⟩) (h.disjoint hb)
    · obtain ⟨c, ⟨hc, huc⟩, huniq⟩ := ih (h.of_le (Multiset.le_add_left _ _))
        ((Multiset.mem_add.mp hu).resolve_left hb)
      refine ⟨c, ⟨List.mem_cons_of_mem b hc, huc⟩, fun d ⟨hd, hud⟩ => ?_⟩
      rcases List.mem_cons.mp hd with rfl | hd
      · exact absurd hud hb
      · exact huniq d ⟨hd, hud⟩

end Xv6.Lib
