import Xv6.Lib.Bytes
import Mathlib.Logic.Function.Basic
import Mathlib.Tactic.IntervalCases

/-!
# `Xv6.Lib.Bitmap`: bits in a byte store

Bit `i` of a byte store is bit `i % 8` of byte `i / 8`, tested, set and cleared with the mask
`1 << (i % 8)`. Setting a bit leaves all other bits alone (`testBit_setBit_of_ne`).
-/

set_option autoImplicit false

namespace Xv6.Lib

/-- The mask of bit `i` in its byte. -/
def bitMask (i : Nat) : UInt8 := 1 <<< UInt8.ofNat (i % 8)

def testBit (f : Bytes) (i : Nat) : Bool := f (i / 8) &&& bitMask i ≠ 0

def setBit (f : Bytes) (i : Nat) : Bytes := Function.update f (i / 8) (f (i / 8) ||| bitMask i)

def clearBit (f : Bytes) (i : Nat) : Bytes :=
  Function.update f (i / 8) (f (i / 8) &&& ~~~bitMask i)

/-! ### One byte -/

theorem toBitVec_bitMask (i : Nat) : (bitMask i).toBitVec = 1#8 <<< (i % 8) := by
  have hi : i % 8 < 8 := Nat.mod_lt _ (by decide)
  unfold bitMask
  generalize i % 8 = j at hi
  interval_cases j <;> rfl

/-- The mask of bit `i` has exactly that bit. -/
theorem getLsbD_bitMask (i k : Nat) : (bitMask i).toBitVec.getLsbD k = decide (k = i % 8) := by
  have hi : i % 8 < 8 := Nat.mod_lt _ (by decide)
  rw [toBitVec_bitMask]
  generalize i % 8 = j at hi
  by_cases hk : k < 8
  · interval_cases j <;> interval_cases k <;> rfl
  · rw [BitVec.getLsbD_of_ge _ _ (by omega)]
    simp
    omega

/-- The test of the mask looks at one bit. -/
theorem and_bitMask_ne_zero_iff (b : UInt8) (i : Nat) :
    b &&& bitMask i ≠ 0 ↔ b.toBitVec.getLsbD (i % 8) = true := by
  have hi : i % 8 < 8 := Nat.mod_lt _ (by decide)
  rw [← UInt8.toBitVec_inj.ne, UInt8.toBitVec_and]
  constructor
  · intro hne
    by_contra hbit
    refine hne (BitVec.eq_of_getLsbD_eq fun k hk => ?_)
    rw [BitVec.getLsbD_and, getLsbD_bitMask]
    by_cases hk' : k = i % 8
    · rw [hk', Bool.eq_false_iff.mpr hbit, Bool.false_and]
      simp
    · simp [hk']
  · intro hbit heq
    have := congrArg (fun v => BitVec.getLsbD v (i % 8)) heq
    simp only [BitVec.getLsbD_and, getLsbD_bitMask, hbit] at this
    simp at this

/-- The test of a bit reads the bit of its byte. -/
theorem testBit_eq (f : Bytes) (i : Nat) :
    testBit f i = (f (i / 8)).toBitVec.getLsbD (i % 8) := by
  rw [Bool.eq_iff_iff]
  unfold testBit
  rw [decide_eq_true_iff]
  exact and_bitMask_ne_zero_iff _ _

/-! ### Setting and clearing -/

theorem testBit_setBit_self (f : Bytes) (i : Nat) : testBit (setBit f i) i = true := by
  rw [testBit_eq]
  simp [setBit, getLsbD_bitMask]

/-- Setting a bit leaves all other bits as they are. -/
theorem testBit_setBit_of_ne (f : Bytes) {i j : Nat} (h : j ≠ i) :
    testBit (setBit f i) j = testBit f j := by
  rw [testBit_eq, testBit_eq]
  unfold setBit
  by_cases hbyte : j / 8 = i / 8
  · have hbit : j % 8 ≠ i % 8 := by omega
    simp [hbyte, getLsbD_bitMask, hbit]
  · rw [Function.update_of_ne hbyte]

end Xv6.Lib
