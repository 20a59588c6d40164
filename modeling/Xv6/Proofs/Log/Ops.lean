import Xv6.Kernel.LogOps

/-!
# `Xv6.Proofs.Log.Ops`: what the critical sections of `log.lock` do

One lemma for each section that does not panic: `beginOp_some`, `logWrite_ok` and `endOp_ok`
say when it happens and what it leaves in `struct log`.
-/

set_option autoImplicit false

namespace Xv6.Proofs

/-! ### The absorption loop -/

/-- The loop stops at `n` exactly when no entry names the block, and otherwise at an entry
that does. -/
theorem slotOf_spec (lh : LogHeader) (b : Nat) :
    (Log.slotOf lh b = lh.n.toNat ∧ ∀ t < lh.n.toNat, lh.block t ≠ b) ∨
    (Log.slotOf lh b < lh.n.toNat ∧ lh.block (Log.slotOf lh b) = b) := by
  unfold Log.slotOf
  cases hf : (List.range lh.n.toNat).find? fun i => lh.block i == b with
  | none =>
    left
    refine ⟨rfl, ?_⟩
    rw [List.find?_eq_none] at hf
    intro t ht
    simpa using hf t (List.mem_range.mpr ht)
  | some i =>
    right
    have hmem := List.mem_range.mp (List.mem_of_find?_eq_some hf)
    have hblock := List.find?_some hf
    exact ⟨hmem, by simpa using hblock⟩

/-- `log_write` of a block that is listed changes nothing. A block that is not listed
becomes the last entry. -/
theorem logWrite_ok {log log' : Log} {b : Nat} {added : Bool}
    (h : log.logWrite b = .ok (log', added)) (hn : 0 ≤ log.lh.n) :
    log.lh.n < log.size - 1 ∧
    ((added = false ∧ (∃ t < log.lh.n.toNat, log.lh.block t = b) ∧ log' = log) ∨
    (added = true ∧ (∀ t < log.lh.n.toNat, log.lh.block t ≠ b) ∧
      log' = { log with
        lh := { n := log.lh.n + 1
                block := Function.update log.lh.block log.lh.n.toNat b } })) := by
  unfold Log.logWrite at h
  split at h
  · cases h
  rename_i hroom
  refine ⟨Int.not_le.mp fun hfull => hroom (Or.inr hfull), ?_⟩
  split at h
  · cases h
  rcases slotOf_spec log.lh b with ⟨hslot, hnone⟩ | ⟨hslot, hblock⟩
  · right
    rw [hslot] at h
    simp only [Int.toNat_of_nonneg hn, if_true] at h
    cases h
    exact ⟨rfl, hnone, rfl⟩
  · left
    simp only at h
    rw [if_neg (by omega)] at h
    cases h
    refine ⟨rfl, ⟨_, hslot, hblock⟩, ?_⟩
    -- The entry is overwritten with the number it already holds.
    rw [Function.update_eq_self_iff.mpr hblock.symm]

/-! ### `begin_op` and `end_op` -/

theorem beginOp_some {log log' : Log} (h : log.beginOp = some log') :
    log.committing = false ∧ log.lh.n + (log.outstanding + 1) * MAXOPBLOCKS ≤ LOGSIZE ∧
    log' = { log with outstanding := log.outstanding + 1 } := by
  unfold Log.beginOp at h
  split at h
  · cases h
  split at h
  · cases h
  rename_i hc hn
  cases h
  exact ⟨by simpa using hc, Int.not_lt.mp hn, rfl⟩

/-- What `end_op` does, up to the commit that it starts if no other operation is left. -/
theorem endOp_ok {log log' : Log} {doCommit : Bool} (h : log.endOp = .ok (log', doCommit)) :
    log.committing = false ∧ doCommit = decide (log.outstanding - 1 = 0) ∧
    log' = { log with outstanding := log.outstanding - 1, committing := doCommit } := by
  unfold Log.endOp at h
  simp only at h
  split at h
  · cases h
  rename_i hc
  split at h
  · rename_i ho
    cases h
    exact ⟨by simpa using hc, by simpa using ho, rfl⟩
  · rename_i ho
    cases h
    exact ⟨by simpa using hc, by simpa using ho, by simp at hc; rw [hc]⟩

end Xv6.Proofs
