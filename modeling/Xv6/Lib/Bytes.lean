import Mathlib.Data.Nat.Basic
import Mathlib.Tactic.Ring

/-!
# `Xv6.Lib.Bytes`: little-endian fields in a byte store

A byte store is a function from offsets to bytes. `getLE f off k` reads the `k`-byte
little-endian number at `off`, and `putLE f off k v` stores `v` there. Every structure the
kernel keeps in a disk block, in a page or in a file (headers, page-table entries, inodes,
directory entries) is a group of such fields, so two facts carry all of them:

* `getLE_putLE_self`: reading a field just stored gives the value modulo its width;
* `getLE_putLE_of_disjoint`: a store leaves every field outside its range alone.

`putLE_getLE` is the third: storing the value that is there changes nothing.
`getI32` and `putI32` are the same two operations on a 32-bit two's complement `int`.
-/

set_option autoImplicit false

namespace Xv6.Lib

variable {k off off' v : Nat}

/-- A store of bytes, addressed by offset. -/
abbrev Bytes := Nat → UInt8

variable {f : Bytes}

/-- The `k`-byte little-endian number at `off`. -/
def getLE (f : Bytes) : (off k : Nat) → Nat
  | _, 0 => 0
  | off, k + 1 => (f off).toNat + 256 * getLE f (off + 1) k

/-- `f` with the `k`-byte little-endian number `v` at `off`. -/
def putLE (f : Bytes) (off k v : Nat) : Bytes := fun x =>
  if off ≤ x ∧ x < off + k then UInt8.ofNat (v / 256 ^ (x - off)) else f x

/-- Bytes outside the field that is stored stay as they are. -/
theorem putLE_apply_of_not_mem {x : Nat} (h : x < off ∨ off + k ≤ x) : putLE f off k v x = f x := by
  unfold putLE
  rw [if_neg (by omega)]

/-- A field of `k` bytes holds a number below `256 ^ k`. -/
theorem getLE_lt (f : Bytes) (off k : Nat) : getLE f off k < 256 ^ k := by
  induction k generalizing off with
  | zero => simp [getLE]
  | succ k ih =>
    have hrest := ih (off + 1)
    have hbyte := (f off).toNat_lt
    rw [getLE, Nat.pow_succ]
    omega

/-- A field depends only on its own bytes. -/
theorem getLE_congr {g : Bytes} (h : ∀ x, off ≤ x → x < off + k → f x = g x) :
    getLE f off k = getLE g off k := by
  induction k generalizing off with
  | zero => rfl
  | succ k ih =>
    rw [getLE, getLE, h off (Nat.le_refl _) (by omega),
      ih (fun x hx hx' => h x (by omega) (by omega))]

theorem getLE_zero (off k : Nat) : getLE (fun _ => 0) off k = 0 := by
  induction k generalizing off with
  | zero => rfl
  | succ k ih =>
    rw [getLE, ih]
    rfl

/-- Reading part of a stored number, `j` bytes in and `m` bytes long. -/
theorem getLE_putLE_part (f : Bytes) (off k v : Nat) :
    ∀ m j, j + m ≤ k → getLE (putLE f off k v) (off + j) m = v / 256 ^ j % 256 ^ m := by
  intro m
  induction m with
  | zero => intro j _; simp [getLE, Nat.mod_one]
  | succ m ih =>
    intro j hj
    have hrest := ih (j + 1) (by omega)
    have hbyte : (putLE f off k v (off + j)).toNat = v / 256 ^ j % 256 := by
      unfold putLE
      rw [if_pos (by omega), Nat.add_sub_cancel_left, UInt8.toNat_ofNat']
    rw [getLE, hbyte, Nat.add_assoc, hrest, Nat.pow_succ 256 j, ← Nat.div_div_eq_div_mul,
      Nat.pow_succ', Nat.mod_mul]

/-- The field just stored reads back, modulo its width. -/
theorem getLE_putLE_self (f : Bytes) (off k v : Nat) :
    getLE (putLE f off k v) off k = v % 256 ^ k := by
  have h := getLE_putLE_part f off k v k 0 (by omega)
  simpa using h

/-- A store leaves every field outside its range alone. -/
theorem getLE_putLE_of_disjoint {k' : Nat} (h : off' + k' ≤ off ∨ off + k ≤ off') :
    getLE (putLE f off k v) off' k' = getLE f off' k' :=
  getLE_congr fun x _ _ => putLE_apply_of_not_mem (by omega)

/-- The bytes of a field, read one at a time from its number. -/
theorem getLE_div_mod (f : Bytes) : ∀ (k off j : Nat), j < k →
    getLE f off k / 256 ^ j % 256 = (f (off + j)).toNat := by
  intro k
  induction k with
  | zero => intro off j hj; omega
  | succ k ih =>
    intro off j hj
    have hbyte := (f off).toNat_lt
    cases j with
    | zero =>
      rw [getLE, Nat.pow_zero, Nat.div_one]
      show _ = (f off).toNat
      omega
    | succ j =>
      have hstep : getLE f off (k + 1) / 256 = getLE f (off + 1) k := by
        rw [getLE]
        omega
      rw [Nat.pow_succ', ← Nat.div_div_eq_div_mul, hstep, ih (off + 1) j (by omega)]
      congr 2
      omega

/-- Storing the number that is already there changes nothing. -/
theorem putLE_getLE (f : Bytes) (off k : Nat) : putLE f off k (getLE f off k) = f := by
  funext x
  unfold putLE
  split
  · rename_i hx
    have hbyte := getLE_div_mod f k off (x - off) (by omega)
    apply UInt8.toNat_inj.mp
    rw [UInt8.toNat_ofNat', hbyte]
    congr 2
    omega
  · rfl

/-! ### Structures -/

/-- Consecutive fields, each with its width and value, from `off` on. -/
def putFields (f : Bytes) : (off : Nat) → List (Nat × Nat) → Bytes
  | _, [] => f
  | off, (k, v) :: fs => putFields (putLE f off k v) (off + k) fs

/-- The number of bytes of the fields. -/
def fieldsLen (fs : List (Nat × Nat)) : Nat := (fs.map Prod.fst).sum

/-- Bytes outside the fields that are stored stay as they are. -/
theorem putFields_apply_of_not_mem {x : Nat} {fs : List (Nat × Nat)}
    (h : x < off ∨ off + fieldsLen fs ≤ x) : putFields f off fs x = f x := by
  induction fs generalizing f off with
  | nil => rfl
  | cons kv fs ih =>
    simp only [fieldsLen, List.map_cons, List.sum_cons] at h
    rw [putFields, ih (by simp only [fieldsLen]; omega), putLE_apply_of_not_mem (by omega)]

/-- A structure leaves every field outside its range alone. -/
theorem getLE_putFields_of_disjoint {fs : List (Nat × Nat)}
    (h : off' + k ≤ off ∨ off + fieldsLen fs ≤ off') :
    getLE (putFields f off fs) off' k = getLE f off' k :=
  getLE_congr fun x _ _ => putFields_apply_of_not_mem (by omega)

/-- Each field of a structure just stored reads back, modulo its width. -/
theorem getLE_putFields (f : Bytes) (off : Nat) (fs : List (Nat × Nat)) (k v : Nat)
    (fs' : List (Nat × Nat)) :
    getLE (putFields f off (fs ++ (k, v) :: fs')) (off + fieldsLen fs) k = v % 256 ^ k := by
  induction fs generalizing f off with
  | nil =>
    rw [List.nil_append, putFields, show off + fieldsLen [] = off from rfl,
      getLE_putFields_of_disjoint (.inl (Nat.le_refl _)), getLE_putLE_self]
  | cons kv fs ih =>
    have hlen : off + fieldsLen (kv :: fs) = off + kv.1 + fieldsLen fs := by
      simp [fieldsLen, Nat.add_assoc]
    rw [List.cons_append, putFields, hlen, ih]

/-- The 32-bit `int` at `off`. -/
def getI32 (f : Bytes) (off : Nat) : Int :=
  (BitVec.ofNat 32 (getLE f off 4)).toInt

/-- `f` with the 32-bit `int` `v` at `off`. -/
def putI32 (f : Bytes) (off : Nat) (v : Int) : Bytes :=
  putLE f off 4 (BitVec.ofInt 32 v).toNat

/-- An `int` that is stored and read again, as long as it is not negative. -/
theorem getI32_putI32_self (f : Bytes) (off : Nat) {v : Int} (h : 0 ≤ v) (h' : v < 2 ^ 31) :
    getI32 (putI32 f off v) off = v := by
  unfold getI32 putI32
  rw [getLE_putLE_self]
  have hsmall : (BitVec.ofInt 32 v).toNat % 256 ^ 4 = (BitVec.ofInt 32 v).toNat :=
    Nat.mod_eq_of_lt (BitVec.isLt _)
  rw [hsmall, BitVec.ofNat_toNat, BitVec.setWidth_eq, BitVec.toInt_ofInt]
  exact Int.bmod_eq_of_le (by omega) (by omega)

/-- Storing another field does not change an `int`. -/
theorem getI32_putLE_of_disjoint (h : off' + 4 ≤ off ∨ off + k ≤ off') :
    getI32 (putLE f off k v) off' = getI32 f off' := by
  unfold getI32
  rw [getLE_putLE_of_disjoint h]

/-- Storing the `int` that is there changes nothing. -/
theorem putI32_getI32 (f : Bytes) (off : Nat) : putI32 f off (getI32 f off) = f := by
  unfold getI32 putI32
  have hlt : getLE f off 4 < 2 ^ 32 := getLE_lt f off 4
  rw [BitVec.ofInt_toInt, BitVec.toNat_ofNat, Nat.mod_eq_of_lt hlt, putLE_getLE]

end Xv6.Lib
