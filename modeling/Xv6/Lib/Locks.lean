import Mathlib.Logic.Function.Basic
import Mathlib.Logic.Relation

/-!
# `Xv6.Lib.Locks`: threads that hold locks

Every lock has at most one owner. What a thread holds is read off its program counter, so a
program with locks has two accounts of the same fact: the owner stored in the lock, and the
locks that each thread believes it holds. `Sync` says that the two agree. It is kept by the
three things that can happen to a lock (`acquire`, `release`, `handoff`), and it gives
mutual exclusion (`Sync.exclusive`). Locks that are taken in order are not waited for in a cycle
(`Sync.no_cycle`).
-/

set_option autoImplicit false

namespace Xv6.Lib

variable {T L : Type}

/-- The owner of every lock is the thread that holds it. -/
def Sync (owner : L → Option T) (holds : T → L → Prop) : Prop :=
  ∀ t l, owner l = some t ↔ holds t l

variable {owner : L → Option T} {holds holds' : T → L → Prop} {t u : T} {l : L}

/-- Mutual exclusion. -/
theorem Sync.exclusive (h : Sync owner holds) (ht : holds t l) (hu : holds u l) : t = u := by
  have h1 := (h t l).mpr ht
  have h2 := (h u l).mpr hu
  rw [h1] at h2
  exact Option.some.inj h2

/-- A step that leaves the locks alone. -/
theorem Sync.congr (h : Sync owner holds) (hsame : ∀ v k, holds' v k ↔ holds v k) :
    Sync owner holds' := by
  intro v k
  rw [hsame]
  exact h v k

/-- If every thread takes its locks in ascending order, no thread waits for itself, not even through
others. -/
theorem Sync.no_cycle {takes : T → L → Prop} {rank : L → Nat} (h : Sync owner holds)
    (hrank : ∀ {t l k}, takes t l → holds t k → rank k < rank l) (t : T) :
    ¬ Relation.TransGen (fun t u => ∃ l, takes t l ∧ owner l = some u) t t := by
  -- the ranks go up along a path
  suffices hpath : ∀ {u}, Relation.TransGen _ t u →
      ∃ l k, takes t l ∧ holds u k ∧ rank l ≤ rank k by
    intro hcycle
    obtain ⟨l, k, htakes, hholds, hle⟩ := hpath hcycle
    exact Nat.not_lt.mpr hle (hrank htakes hholds)
  intro u hu
  induction hu with
  | single hu =>
    obtain ⟨l, htakes, howner⟩ := hu
    exact ⟨l, l, htakes, (h _ _).mp howner, Nat.le_refl _⟩
  | tail _ hlast ih =>
    obtain ⟨l, k, htakes, hholds, hle⟩ := ih
    obtain ⟨k', hlast, howner⟩ := hlast
    exact ⟨l, k', htakes, (h _ _).mp howner, Nat.le_trans hle (Nat.le_of_lt (hrank hlast hholds))⟩

variable [DecidableEq L]

/-- A thread takes a free lock. -/
theorem Sync.acquire (h : Sync owner holds) (hfree : owner l = none)
    (hself : ∀ k, holds' t k ↔ k = l ∨ holds t k)
    (hrest : ∀ v, v ≠ t → ∀ k, holds' v k ↔ holds v k) :
    Sync (Function.update owner l (some t)) holds' := by
  intro v k
  by_cases hk : k = l
  · subst hk
    rw [Function.update_self]
    by_cases hv : v = t
    · subst hv
      simp [hself]
    · have hnot : ¬ holds v k := by
        intro hc
        have := (h v k).mpr hc
        rw [hfree] at this
        cases this
      simp [hrest v hv, hnot, Ne.symm hv]
  · rw [Function.update_of_ne hk, h v k]
    by_cases hv : v = t
    · subst hv
      simp [hself, hk]
    · rw [hrest v hv]

/-- A thread gives a lock back. -/
theorem Sync.release (h : Sync owner holds) (hheld : holds t l)
    (hself : ∀ k, holds' t k ↔ k ≠ l ∧ holds t k)
    (hrest : ∀ v, v ≠ t → ∀ k, holds' v k ↔ holds v k) :
    Sync (Function.update owner l none) holds' := by
  intro v k
  by_cases hv : v = t
  · subst hv
    by_cases hk : k = l
    · subst hk
      simp [hself]
    · rw [Function.update_of_ne hk, h v k, hself]
      simp [hk]
  · rw [hrest v hv]
    by_cases hk : k = l
    · subst hk
      have hnot : ¬ holds v k := fun hc => hv (h.exclusive hc hheld)
      simp [hnot]
    · rw [Function.update_of_ne hk, h v k]

/-- A thread passes a lock on to another one. -/
theorem Sync.handoff (h : Sync owner holds) (hne : u ≠ t) (hheld : holds t l)
    (hself : ∀ k, holds' t k ↔ k ≠ l ∧ holds t k)
    (hother : ∀ k, holds' u k ↔ k = l ∨ holds u k)
    (hrest : ∀ v, v ≠ t → v ≠ u → ∀ k, holds' v k ↔ holds v k) :
    Sync (Function.update owner l (some u)) holds' := by
  -- the lock is free for a moment between the two threads
  have hrel : Sync (Function.update owner l none) fun v k => holds v k ∧ ¬ (v = t ∧ k = l) := by
    refine h.release hheld (fun k => ?_) (fun v hv k => ?_)
    · simp [and_comm]
    · simp [hv]
  rw [← Function.update_idem (a := l) none (some u) owner]
  refine hrel.acquire (Function.update_self _ _ _) (fun k => ?_) (fun v hv k => ?_)
  · simp [hne, hother]
  · by_cases hvt : v = t
    · subst hvt
      simp [hself, and_comm]
    · simp [hvt, hrest v hvt hv]

end Xv6.Lib
