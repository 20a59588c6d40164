import Mathlib.Logic.Function.Basic

/-!
# `Xv6.Lib.Crash`: programs that write a store one cell at a time

A store maps cells to values, and one write of a cell is atomic. A program reads the
store and performs a list of writes, so a crash can leave exactly the stores that some
initial part of that list produces. `WProg.crashAt p k d` is the store a crash leaves after
`k` writes of `p` on `d`, and `WProg.after p d` the store of the completed run.

The module gives the write list of a sequence and of a counted loop
(`writes_bind`, `writes_forN_succ`), the value of one cell after a write list
(`applyWrites_of_not_mem`, `applyWrites_of_mem`), and the rule for repeated crashed runs of
a recovery program (`crashes_induction`).
-/

set_option autoImplicit false

namespace Xv6.Lib

variable {ι β α γ : Type} [DecidableEq ι]

/-- The store after a list of writes, first write first. -/
def applyWrites (ws : List (ι × β)) (d : ι → β) : ι → β :=
  ws.foldl (fun d w => Function.update d w.1 w.2) d

@[simp]
theorem applyWrites_nil (d : ι → β) : applyWrites [] d = d := rfl

theorem applyWrites_append (ws ws' : List (ι × β)) (d : ι → β) :
    applyWrites (ws ++ ws') d = applyWrites ws' (applyWrites ws d) :=
  List.foldl_append

theorem applyWrites_singleton (i : ι) (v : β) (d : ι → β) :
    applyWrites [(i, v)] d = Function.update d i v := rfl

/-- A cell that no write names keeps its value. -/
theorem applyWrites_of_not_mem {ws : List (ι × β)} {d : ι → β} {i : ι}
    (h : ∀ w ∈ ws, w.1 ≠ i) : applyWrites ws d i = d i := by
  induction ws generalizing d with
  | nil => rfl
  | cons w ws ih =>
    have hrest := ih (d := Function.update d w.1 w.2) fun w' hw' => h w' (by simp [hw'])
    show applyWrites ws (Function.update d w.1 w.2) i = d i
    rw [hrest, Function.update_of_ne (Ne.symm (h w (by simp)))]

/-- When every write to a cell stores the same value and there is one, the cell holds it. -/
theorem applyWrites_of_mem {ws : List (ι × β)} {d : ι → β} {i : ι} {v : β}
    (hmem : (i, v) ∈ ws) (huniq : ∀ w ∈ ws, w.1 = i → w.2 = v) : applyWrites ws d i = v := by
  induction ws generalizing d with
  | nil => simp at hmem
  | cons w ws ih =>
    show applyWrites ws (Function.update d w.1 w.2) i = v
    by_cases hin : (i, v) ∈ ws
    · exact ih hin fun w' hw' => huniq w' (by simp [hw'])
    · have hw : w = (i, v) := by
        rcases List.mem_cons.mp hmem with h | h
        · exact h.symm
        · exact absurd h hin
      subst hw
      rw [applyWrites_of_not_mem, Function.update_self]
      intro w' hw' hi
      apply hin
      have hv := huniq w' (by simp [hw']) hi
      rwa [← hi, ← hv]

/-- A program over a store: its result and its writes, in order. -/
def WProg (ι β α : Type) : Type := (ι → β) → α × List (ι × β)

namespace WProg

/-- The writes of a program on a store. -/
def writes (p : WProg ι β α) (d : ι → β) : List (ι × β) := (p d).2

/-- The result of a program on a store. -/
def result (p : WProg ι β α) (d : ι → β) : α := (p d).1

/-- The store after a completed run. -/
def after (p : WProg ι β α) (d : ι → β) : ι → β := applyWrites (p.writes d) d

/-- The store a crash leaves after `k` writes. -/
def crashAt (p : WProg ι β α) (k : Nat) (d : ι → β) : ι → β :=
  applyWrites ((p.writes d).take k) d

instance : Monad (WProg ι β) where
  pure a := fun _ => (a, [])
  bind p f := fun d =>
    let r := p d
    let r' := f r.1 (applyWrites r.2 d)
    (r'.1, r.2 ++ r'.2)

/-- Read one cell. -/
def read (i : ι) : WProg ι β β := fun d => (d i, [])

/-- Write one cell, atomically. -/
def write (i : ι) (v : β) : WProg ι β Unit := fun _ => ((), [(i, v)])

/-- The counted loop `for (t = 0; t < n; t++) body(t)`. -/
def forN (body : Nat → WProg ι β Unit) : Nat → WProg ι β Unit
  | 0 => pure ()
  | n + 1 => do forN body n; body n

/-- The writes of a sequence: the second part runs on the store the first part leaves. -/
theorem writes_bind (p : WProg ι β α) (f : α → WProg ι β γ) (d : ι → β) :
    (p >>= f).writes d = p.writes d ++ (f (p.result d)).writes (p.after d) := rfl

/-- One more round of a loop adds its writes to those of the rounds before it. -/
theorem writes_forN_succ (body : Nat → WProg ι β Unit) (n : Nat) (d : ι → β) :
    (forN body (n + 1)).writes d
      = (forN body n).writes d ++ (body n).writes ((forN body n).after d) := rfl

/-- A completed run is the crash after all of its writes. -/
theorem after_eq_crashAt (p : WProg ι β α) (d : ι → β) :
    p.after d = p.crashAt (p.writes d).length d := by
  unfold after crashAt
  rw [List.take_length]

/-- The stores that crashed runs of `p` leave, one run after the other: run number `i`
crashes after the `i`-th number of the list. -/
def crashes (p : WProg ι β α) (ks : List Nat) (d : ι → β) : ι → β :=
  ks.foldl (fun d k => p.crashAt k d) d

/-- What every crash of `p` preserves survives any number of crashed runs. -/
theorem crashes_induction {p : WProg ι β α} {I : (ι → β) → Prop}
    (hstep : ∀ d, I d → ∀ k, I (p.crashAt k d)) (ks : List Nat) (d : ι → β) (h : I d) :
    I (p.crashes ks d) := by
  induction ks generalizing d with
  | nil => exact h
  | cons k ks ih => exact ih (p.crashAt k d) (hstep d h k)

end WProg

end Xv6.Lib
