import Mathlib.Logic.Basic

/-!
# `Xv6.Lib.Sim`: two programs step by step

Two programs with state that may fail, `x` over states `σ` and `y` over states `τ`. `Sim I R x y`
says that from states related by `I` they fail in the same way, or both return, with results related
by `R` and states related by `I` again. The rules follow the program: `Sim.pure`, `Sim.bind`,
`Sim.ite`.
-/

set_option autoImplicit false

namespace Xv6.Lib

variable {σ τ ε α β γ δ : Type}

/-- Two outcomes that go together. -/
inductive SimResult (I : σ → τ → Prop) (R : α → β → Prop) :
    Except ε (α × σ) → Except ε (β × τ) → Prop
  | ok {a : α} {b : β} {s : σ} {t : τ} (hR : R a b) (hI : I s t) :
    SimResult I R (.ok (a, s)) (.ok (b, t))
  | error (e : ε) : SimResult I R (.error e) (.error e)

def Sim (I : σ → τ → Prop) (R : α → β → Prop) (x : StateT σ (Except ε) α)
    (y : StateT τ (Except ε) β) : Prop :=
  ∀ s t, I s t → SimResult I R (x s) (y t)

variable {I : σ → τ → Prop} {R : α → β → Prop} {S : γ → δ → Prop}

theorem Sim.pure {a : α} {b : β} (h : R a b) :
    Sim I R (Pure.pure a : StateT σ (Except ε) α) (Pure.pure b) :=
  fun _ _ hI => .ok h hI

/-- Two simulations one after the other, where the second may depend on the related results of the
first. -/
theorem Sim.bind {x : StateT σ (Except ε) α} {y : StateT τ (Except ε) β}
    {f : α → StateT σ (Except ε) γ} {g : β → StateT τ (Except ε) δ} (hx : Sim I R x y)
    (hf : ∀ a b, R a b → Sim I S (f a) (g b)) : Sim I S (x >>= f) (y >>= g) := by
  intro s t hI
  have hxy := hx s t hI
  change SimResult I S (x s >>= fun r => f r.1 r.2) (y t >>= fun r => g r.1 r.2)
  generalize x s = u at hxy ⊢
  generalize y t = v at hxy ⊢
  cases hxy with
  | ok hR hI' => exact hf _ _ hR _ _ hI'
  | error e => exact .error e

/-- A conditional, where the two tests agree. -/
theorem Sim.ite {p q : Prop} [Decidable p] [Decidable q] (hpq : p ↔ q)
    {x x' : StateT σ (Except ε) α} {y y' : StateT τ (Except ε) β} (hx : p → Sim I R x y)
    (hx' : ¬ p → Sim I R x' y') : Sim I R (if p then x else x') (if q then y else y') := by
  by_cases hp : p
  · rw [if_pos hp, if_pos (hpq.mp hp)]
    exact hx hp
  · rw [if_neg hp, if_neg fun hq => hp (hpq.mpr hq)]
    exact hx' hp

end Xv6.Lib
