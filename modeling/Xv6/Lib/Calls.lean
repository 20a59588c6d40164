import Mathlib.Data.List.Nodup
import Mathlib.Logic.Function.Basic

/-!
# `Xv6.Lib.Calls`: calls with numbers

Processes make calls, and each call gets the next number. `Numbered` says that the numbers are
used properly: every call in progress is made by one process, has not returned, and no call
returns twice.

A history is a list of items, each with the number of the call that made it. `ofCall` is what one
call has made.
-/

set_option autoImplicit false

namespace Xv6.Lib

/-- `calls` calls have been made, process `p` is in the call `cur p`, and the calls in `done` have
returned. -/
structure Numbered {P : Type} (calls : Nat) (cur : P → Option Nat) (done : List Nat) : Prop where
  lt : ∀ {p c}, cur p = some c → c < calls
  doneLt : ∀ c ∈ done, c < calls
  notDone : ∀ {p c}, cur p = some c → c ∉ done
  inj : ∀ {p q c}, cur p = some c → cur q = some c → p = q
  nodup : done.Nodup

section Numbered

variable {P : Type} [DecidableEq P] {calls c : Nat} {cur : P → Option Nat} {done : List Nat}
  {p : P}

omit [DecidableEq P] in
theorem numbered_start : Numbered 0 (fun _ : P => none) [] :=
  ⟨by simp, by simp, by simp, by simp, List.nodup_nil⟩

/-- A call begins. -/
theorem Numbered.begin (h : Numbered calls cur done) :
    Numbered (calls + 1) (Function.update cur p (some calls)) done := by
  have hcases : ∀ {q c}, Function.update cur p (some calls) q = some c →
      (q = p ∧ c = calls) ∨ cur q = some c := by
    intro q c hq
    by_cases hqp : q = p
    · subst hqp
      rw [Function.update_self] at hq
      exact .inl ⟨rfl, (Option.some.inj hq).symm⟩
    · exact .inr (by simpa [hqp] using hq)
  refine ⟨fun {q c} hq => ?_, fun c hc => ?_, fun {q c} hq hc => ?_, fun {q u c} hq hu => ?_,
    h.nodup⟩
  · rcases hcases hq with ⟨-, rfl⟩ | hq
    · exact Nat.lt_succ_self _
    · exact Nat.lt_succ_of_lt (h.lt hq)
  · exact Nat.lt_succ_of_lt (h.doneLt c hc)
  · rcases hcases hq with ⟨-, rfl⟩ | hq
    · exact Nat.lt_irrefl _ (h.doneLt _ hc)
    · exact h.notDone hq hc
  · rcases hcases hq with ⟨hqp, hc⟩ | hq <;> rcases hcases hu with ⟨hup, hc'⟩ | hu
    · exact hqp.trans hup.symm
    · exact absurd (hc ▸ h.lt hu) (Nat.lt_irrefl _)
    · exact absurd (hc' ▸ h.lt hq) (Nat.lt_irrefl _)
    · exact h.inj hq hu

/-- A call returns. -/
theorem Numbered.finish (h : Numbered calls cur done) (hc : cur p = some c) :
    Numbered calls (Function.update cur p none) (done ++ [c]) := by
  have hold : ∀ {q c'}, Function.update cur p none q = some c' → q ≠ p ∧ cur q = some c' := by
    intro q c' hq
    by_cases hqp : q = p
    · subst hqp
      simp at hq
    · exact ⟨hqp, by simpa [hqp] using hq⟩
  refine ⟨fun hq => h.lt (hold hq).2, fun c' hc' => ?_, fun {q c'} hq hc' => ?_,
    fun hq hu => h.inj (hold hq).2 (hold hu).2, ?_⟩
  · rcases List.mem_append.mp hc' with hc' | hc'
    · exact h.doneLt c' hc'
    · obtain rfl := List.mem_singleton.mp hc'
      exact h.lt hc
  · obtain ⟨hqp, hq⟩ := hold hq
    rcases List.mem_append.mp hc' with hc' | hc'
    · exact h.notDone hq hc'
    · obtain rfl := List.mem_singleton.mp hc'
      exact hqp (h.inj hq hc)
  · exact List.nodup_append'.mpr
      ⟨h.nodup, List.nodup_singleton c, List.disjoint_singleton.mpr (h.notDone hc)⟩

/-- A process that is in no call stays in none. -/
theorem Numbered.idle (h : Numbered calls cur done) (hp : cur p = none) :
    Numbered calls (Function.update cur p none) done := by
  rwa [← hp, Function.update_eq_self]

end Numbered

/-! ### Histories -/

variable {α : Type} {hist : List (Nat × α)} {c c' : Nat} {items : List α}

/-- What a call has made. -/
def ofCall (hist : List (Nat × α)) (c : Nat) : List α :=
  (hist.filter fun x => x.1 = c).map Prod.snd

/-- A call that adds items to the history has them behind its earlier ones. -/
theorem ofCall_append_self :
    ofCall (hist ++ items.map fun x => (c, x)) c = ofCall hist c ++ items := by
  have hall : (items.map fun x => (c, x)).filter (fun x => x.1 = c)
      = items.map fun x => (c, x) :=
    List.filter_eq_self.mpr (by simp)
  unfold ofCall
  rw [List.filter_append, List.map_append, hall, List.map_map]
  exact congrArg (_ ++ ·) (List.map_id items)

/-- The items of one call are not items of another. -/
theorem ofCall_append_of_ne (h : c ≠ c') :
    ofCall (hist ++ items.map fun x => (c', x)) c = ofCall hist c := by
  have hnone : (items.map fun x => (c', x)).filter (fun x => x.1 = c) = [] :=
    List.filter_eq_nil_iff.mpr (by simp [Ne.symm h])
  unfold ofCall
  rw [List.filter_append, hnone, List.append_nil]

theorem ofCall_eq_nil (h : ∀ x ∈ hist, x.1 ≠ c) : ofCall hist c = [] := by
  unfold ofCall
  rw [List.filter_eq_nil_iff.mpr (by simpa using h), List.map_nil]

theorem mem_ofCall {x : α} : x ∈ ofCall hist c ↔ (c, x) ∈ hist := by
  simp [ofCall]

end Xv6.Lib
