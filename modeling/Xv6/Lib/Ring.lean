import Mathlib.Data.BitVec
import Mathlib.Logic.Function.Basic

/-!
# `Xv6.Lib.Ring`: a ring buffer with counters that wrap

A buffer of `cap` slots with two counters of `w` bits. The counters only ever grow: `tail`
counts what has been put in and `head` what has been taken out, and both wrap at `2 ^ w`. A
counter is reduced modulo `cap` only when it is used as an index. This tells a full buffer from
an empty one, and it is right across the wrap as long as `cap` divides `2 ^ w`.

`Ring.items` is the queue that the buffer stands for. `items_push` and `items_pop` say that the
two operations are those of a queue. A third counter may stand between the two (`items_split`),
and the tail may move back (`items_concat`).
-/

set_option autoImplicit false

namespace Xv6.Lib

structure Ring (α : Type) (w cap : Nat) where
  data : Fin cap → α
  head : BitVec w
  tail : BitVec w

namespace Ring

variable {α : Type} {w cap : Nat} [NeZero cap]

/-- The slot that a counter points at. -/
def slot (cap : Nat) [NeZero cap] (c : BitVec w) : Fin cap := Fin.ofNat cap c.toNat

/-- How much is buffered. -/
def count (r : Ring α w cap) : Nat := (r.tail - r.head).toNat

/-- What is buffered, the oldest first. -/
def items (r : Ring α w cap) : List α :=
  (List.range r.count).map fun k => r.data (slot cap (r.head + BitVec.ofNat w k))

def push (r : Ring α w cap) (x : α) : Ring α w cap :=
  { r with data := Function.update r.data (slot cap r.tail) x, tail := r.tail + 1 }

def front (r : Ring α w cap) : α := r.data (slot cap r.head)

def pop (r : Ring α w cap) : Ring α w cap := { r with head := r.head + 1 }

omit [NeZero cap] in
theorem count_eq_zero_iff (r : Ring α w cap) : r.count = 0 ↔ r.head = r.tail := by
  unfold count
  constructor
  · intro h
    have hzero : r.tail - r.head = 0#w := BitVec.eq_of_toNat_eq (by simpa using h)
    have := BitVec.sub_add_cancel r.tail r.head
    rw [hzero, BitVec.zero_add] at this
    exact this
  · intro h
    simp [h]

omit [NeZero cap] in
/-- The tail is `count` ahead of the head. -/
theorem tail_eq (r : Ring α w cap) : r.tail = r.head + BitVec.ofNat w r.count := by
  have : BitVec.ofNat w r.count = r.tail - r.head := by
    rw [count, BitVec.ofNat_toNat, BitVec.setWidth_eq]
  rw [this, BitVec.add_comm, BitVec.sub_add_cancel]

omit [NeZero cap] in
/-- The test for a full buffer. -/
theorem count_eq_iff (r : Ring α w cap) {k : Nat} (hk : k < 2 ^ w) :
    r.count = k ↔ r.tail = r.head + BitVec.ofNat w k := by
  constructor
  · rintro rfl
    exact r.tail_eq
  · intro h
    unfold count
    rw [h, BitVec.add_comm, BitVec.add_sub_cancel, BitVec.toNat_ofNat, Nat.mod_eq_of_lt hk]

/-- The slot of a counter that has moved on by `k`. -/
theorem slot_add (hdvd : cap ∣ 2 ^ w) (c : BitVec w) (k : Nat) :
    (slot cap (c + BitVec.ofNat w k) : Nat) = (c.toNat + k) % cap := by
  unfold slot
  rw [Fin.val_ofNat, BitVec.toNat_add, BitVec.toNat_ofNat, Nat.mod_mod_of_dvd _ hdvd,
    Nat.add_mod, Nat.mod_mod_of_dvd _ hdvd, ← Nat.add_mod]

/-- Counters less than `cap` apart use different slots. -/
theorem slot_add_ne (hdvd : cap ∣ 2 ^ w) (c : BitVec w) {i j : Nat} (hij : i < j)
    (hj : j < cap) : slot cap (c + BitVec.ofNat w i) ≠ slot cap (c + BitVec.ofNat w j) := by
  intro h
  have hval := congrArg Fin.val h
  rw [slot_add hdvd, slot_add hdvd] at hval
  have hmod : (j - i) % cap = 0 := by
    have := Nat.sub_mod_eq_zero_of_mod_eq hval.symm
    rwa [Nat.add_sub_add_left] at this
  rw [Nat.mod_eq_of_lt (by omega)] at hmod
  omega

variable {r : Ring α w cap} {x : α}

/-- One more element is in the ring. -/
theorem count_push (hlt : r.count + 1 < 2 ^ w) : (r.push x).count = r.count + 1 := by
  rw [count_eq_iff _ hlt]
  have : (r.push x).tail = r.head + BitVec.ofNat w r.count + 1#w := by
    rw [← r.tail_eq]
    rfl
  rw [this, BitVec.add_assoc, ← BitVec.ofNat_add]
  rfl

/-- A push on a buffer that is not full appends to the queue. -/
theorem items_push (hdvd : cap ∣ 2 ^ w) (hcap : cap < 2 ^ w) (hroom : r.count < cap) :
    (r.push x).items = r.items ++ [x] := by
  have hcount : (r.push x).count = r.count + 1 := count_push (by omega)
  have hlast : (r.push x).data (slot cap (r.head + BitVec.ofNat w r.count)) = x := by
    rw [← r.tail_eq]
    exact Function.update_self _ _ _
  -- the slots of the older items are not the new one
  have hold : ∀ k < r.count, (r.push x).data (slot cap (r.head + BitVec.ofNat w k))
      = r.data (slot cap (r.head + BitVec.ofNat w k)) := by
    intro k hk
    refine Function.update_of_ne ?_ _ _
    rw [r.tail_eq]
    exact slot_add_ne hdvd _ hk hroom
  unfold items
  rw [hcount, List.range_succ, List.map_append]
  congr 1
  · exact List.map_congr_left fun k hk => hold k (List.mem_range.mp hk)
  · exact congrArg (fun y => [y]) hlast

omit [NeZero cap] in
/-- One element less is in the ring. -/
theorem count_pop (hne : r.head ≠ r.tail) : r.pop.count + 1 = r.count := by
  have hpos : r.count ≠ 0 := fun h => hne (r.count_eq_zero_iff.mp h)
  have hlt : r.count < 2 ^ w := (r.tail - r.head).isLt
  have : r.pop.count = r.count - 1 := by
    rw [count_eq_iff _ (by omega)]
    have hsum : BitVec.ofNat w r.count = 1#w + BitVec.ofNat w (r.count - 1) := by
      rw [← BitVec.ofNat_add]
      congr 1
      omega
    have htail : r.pop.tail = r.head + BitVec.ofNat w r.count := r.tail_eq
    rw [htail, hsum, ← BitVec.add_assoc]
    rfl
  omega

/-- A pop takes the oldest item. -/
theorem items_pop (hne : r.head ≠ r.tail) : r.items = r.front :: r.pop.items := by
  unfold items
  rw [← count_pop hne, List.range_succ_eq_map, List.map_cons, List.map_map]
  congr 1
  · simp [front]
  · refine List.map_congr_left fun k _ => ?_
    have : r.head + BitVec.ofNat w (k + 1) = r.head + 1#w + BitVec.ofNat w k := by
      rw [Nat.add_comm, BitVec.ofNat_add, BitVec.add_assoc]
    simp only [Function.comp_apply, Nat.succ_eq_add_one, this]
    rfl

/-! ### A mark between the two ends -/

section Mark

variable {data : Fin cap → α} {a m b : BitVec w}

omit [NeZero cap] in
/-- A counter between the ends splits the distance. -/
theorem count_split (h : m - a ≤ b - a) :
    (m - a).toNat + (b - m).toNat = (b - a).toNat := by
  have hsub : b - m = (b - a) - (m - a) := (sub_sub_sub_cancel_right b m a).symm
  rw [hsub, BitVec.toNat_sub_of_le h]
  exact Nat.add_sub_of_le (BitVec.le_def.mp h)

/-- A counter between the ends splits the queue. -/
theorem items_split (h : m - a ≤ b - a) :
    (⟨data, a, b⟩ : Ring α w cap).items
      = (⟨data, a, m⟩ : Ring α w cap).items ++ (⟨data, m, b⟩ : Ring α w cap).items := by
  have hm : ∀ k, a + BitVec.ofNat w ((m - a).toNat + k) = m + BitVec.ofNat w k := by
    intro k
    rw [BitVec.ofNat_add, BitVec.ofNat_toNat, BitVec.setWidth_eq, ← BitVec.add_assoc,
      add_sub_cancel]
  unfold items count
  rw [← count_split h, List.range_add, List.map_append, List.map_map]
  congr 1
  exact List.map_congr_left fun k _ => congrArg (fun i => data (slot cap i)) (hm k)

omit [NeZero cap] in
theorem toNat_sub_one {x : BitVec w} (hne : x ≠ 0) : (x - 1).toNat + 1 = x.toNat := by
  have hpos : x.toNat ≠ 0 := fun h => hne (BitVec.eq_of_toNat_eq (by simpa using h))
  have hone : (1#w).toNat = 1 := by
    have := x.isLt
    rw [BitVec.toNat_ofNat, Nat.mod_eq_of_lt (by omega)]
  have hle : 1#w ≤ x := BitVec.le_def.mpr (by omega)
  have : (x - 1).toNat = x.toNat - (1#w).toNat := BitVec.toNat_sub_of_le hle
  omega

/-- Moving the tail back by one drops the newest item. -/
theorem items_concat (hne : a ≠ b) :
    (⟨data, a, b⟩ : Ring α w cap).items
      = (⟨data, a, b - 1⟩ : Ring α w cap).items ++ [data (slot cap (b - 1))] := by
  have hcount : (b - 1 - a).toNat + 1 = (b - a).toNat := by
    rw [sub_right_comm]
    exact toNat_sub_one fun h => hne (sub_eq_zero.mp h).symm
  have hlast : a + BitVec.ofNat w (b - 1 - a).toNat = b - 1 := by
    rw [BitVec.ofNat_toNat, BitVec.setWidth_eq, add_sub_cancel]
  unfold items count
  rw [← hcount, List.range_succ, List.map_append, List.map_singleton, hlast]

end Mark

end Ring

end Xv6.Lib
