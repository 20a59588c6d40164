import Mathlib.Tactic.Common

/-!
# `Xv6.Lib.Wp`: pre- and postconditions of programs with a state and errors

A program is a `StateT σ (Except ε) α`. `wp x Q E s` says how `x` ends from state `s`: it
returns with `Q`, or it throws an error with `E`. Taking `E` empty gives total correctness,
taking it full gives partial correctness.

The rules follow the shape of the program: `wp_bind` splits a sequence, `wp_mono` weakens what
a called function was proved to do, and `wp_forM` is the invariant rule for a loop over a list.
-/

set_option autoImplicit false

namespace Xv6.Lib

variable {σ ε α β : Type}

variable {E : ε → Prop} {Q Q' : α → σ → Prop} {a : α} {e : ε} {s s' : σ} {x : StateT σ (Except ε) α}

/-- From `s`, `x` returns with `Q` or throws with `E`. -/
def wp (x : StateT σ (Except ε) α) (Q : α → σ → Prop) (E : ε → Prop) (s : σ) : Prop :=
  match x.run s with
  | .ok (a, s') => Q a s'
  | .error e => E e

/-- Running a sequence whose first part returns. -/
theorem run_bind_ok {f : α → StateT σ (Except ε) β} (h : x.run s = .ok (a, s')) :
    (x >>= f).run s = (f a).run s' := by
  rw [StateT.run_bind, h]
  rfl

/-- Running a sequence whose first part throws. -/
theorem run_bind_error {f : α → StateT σ (Except ε) β} (h : x.run s = .error e) :
    (x >>= f).run s = .error e := by
  rw [StateT.run_bind, h]
  rfl

/-- A run that returns satisfies the postcondition if its result does. -/
theorem wp_of_ok (hrun : x.run s = .ok (a, s')) (hQ : Q a s') : wp x Q E s := by
  unfold wp
  rw [hrun]
  exact hQ

/-- A run that panics satisfies the condition on panics if its panic does. -/
theorem wp_of_error (hrun : x.run s = .error e) (hE : E e) : wp x Q E s := by
  unfold wp
  rw [hrun]
  exact hE

/-- What the postcondition says of a run that returns. -/
theorem wp_ok (h : wp x Q E s) (hrun : x.run s = .ok (a, s')) : Q a s' := by
  unfold wp at h
  rwa [hrun] at h

/-- What the condition on panics says of a run that panics. -/
theorem wp_error (h : wp x Q E s) (hrun : x.run s = .error e) : E e := by
  unfold wp at h
  rwa [hrun] at h

/-- A program without errors returns. -/
theorem wp_returns (h : wp x Q (fun _ => False) s) : ∃ a s', x.run s = .ok (a, s') ∧ Q a s' := by
  unfold wp at h
  split at h
  · rename_i a s' hrun
    exact ⟨a, s', hrun, h⟩
  · exact h.elim

/-- What holds of every end holds of the end of `x`. -/
theorem wp_any (hQ : ∀ a s', Q a s') (hE : ∀ e, E e) : wp x Q E s := by
  unfold wp
  split
  · exact hQ _ _
  · exact hE _

/-- The conditions at the end of a run may be weakened. -/
theorem wp_mono {E' : ε → Prop} (h : wp x Q E s) (hQ : ∀ a s', Q a s' → Q' a s')
    (hE : ∀ e, E e → E' e) : wp x Q' E' s := by
  unfold wp at h ⊢
  split at h
  · exact hQ _ _ h
  · exact hE _ h

/-- Weakening of the postcondition alone. -/
theorem wp_post (h : wp x Q E s) (hQ : ∀ a s', Q a s' → Q' a s') : wp x Q' E s :=
  wp_mono h hQ fun _ he => he

@[simp] theorem wp_pure (a : α) (Q : α → σ → Prop) (E : ε → Prop) (s : σ) :
    wp (pure a) Q E s ↔ Q a s := Iff.rfl

/-- The run of `x >>= f` is a run of `x`, and then one of `f` from where it ended. -/
@[simp] theorem wp_bind (x : StateT σ (Except ε) α) (f : α → StateT σ (Except ε) β)
    (Q : β → σ → Prop) (E : ε → Prop) (s : σ) :
    wp (x >>= f) Q E s ↔ wp x (fun a s' => wp (f a) Q E s') E s := by
  unfold wp
  rw [StateT.run_bind]
  cases x.run s with
  | error e => exact Iff.rfl
  | ok r => exact Iff.rfl

@[simp] theorem wp_throw (e : ε) (Q : α → σ → Prop) (E : ε → Prop) (s : σ) :
    wp (throw e) Q E s ↔ E e := Iff.rfl

@[simp] theorem wp_get (Q : σ → σ → Prop) (E : ε → Prop) (s : σ) :
    wp get Q E s ↔ Q s s := Iff.rfl

@[simp] theorem wp_set (t : σ) (Q : PUnit → σ → Prop) (E : ε → Prop) (s : σ) :
    wp (set t) Q E s ↔ Q ⟨⟩ t := Iff.rfl

@[simp] theorem wp_modify (f : σ → σ) (Q : PUnit → σ → Prop) (E : ε → Prop) (s : σ) :
    wp (modify f) Q E s ↔ Q ⟨⟩ (f s) := Iff.rfl

/-- Both branches are to be shown, each under its test. -/
theorem wp_ite {p : Prop} [Decidable p] {y : StateT σ (Except ε) α} (hx : p → wp x Q E s)
    (hy : ¬ p → wp y Q E s) : wp (if p then x else y) Q E s := by
  by_cases hp : p
  · rw [if_pos hp]
    exact hx hp
  · rw [if_neg hp]
    exact hy hp

/-- What a program does that does not fail. -/
theorem wp_sure (h : wp x Q (fun _ => False) s) (hQ : ∀ a t, Q a t → Q' a t) : wp x Q' E s :=
  wp_mono h hQ fun _ he => he.elim

/-- A loop over a list keeps an invariant that each round keeps. `I l` holds when the items
`l` are still to come. -/
theorem wp_forM {l : List α} {f : α → StateT σ (Except ε) PUnit} {I : List α → σ → Prop}
    (hinit : I l s) (hstep : ∀ x rest t, (∃ done, l = done ++ x :: rest) → I (x :: rest) t →
      wp (f x) (fun _ t' => I rest t') E t) : wp (l.forM f) (fun _ t => I [] t) E s := by
  induction l generalizing s with
  | nil => exact hinit
  | cons x rest ih =>
    show wp (f x >>= fun _ => rest.forM f) _ _ _
    rw [wp_bind]
    refine wp_post (hstep x rest s ⟨[], rfl⟩ hinit) fun _ t ht => ih ht ?_
    rintro y rest' u ⟨done, rfl⟩ hu
    exact hstep y rest' u ⟨x :: done, rfl⟩ hu

end Xv6.Lib
