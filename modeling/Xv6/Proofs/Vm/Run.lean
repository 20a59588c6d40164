import Xv6.Proofs.Vm.Boot
import Xv6.Proofs.Vm.ExecCall

/-!
# `Xv6.Proofs.Vm.Run`: every state between two calls satisfies `Inv`

A call keeps `Inv` (`call_spec`), and it panics in two cases only: `init` exits, or `exec` is
given a file that runs over the trapframe. Booting makes a state with `Inv` from any contents of
memory (`boot_spec`), so every run does (`run_inv`).

Booting leaves more free pages than any calls can use up. To see what happens when `kalloc` fails,
a run may start with any of these pages taken away (`RunWith`).
-/

set_option autoImplicit false

namespace Xv6.Proofs

open Lib

section Calls

variable {s : Os} {G : Ghost} {p : Slot}

/-! ### One call -/

/-- A store of the program keeps the invariant. -/
theorem userStore_spec (h : Inv s G) (hp : Active s p) (va : Nat) (b : UInt8) :
    ∃ s', (userStore p va b).run s = .ok ((), s') ∧ Inv s' G := by
  obtain ⟨sp, hheld⟩ := h.settled.used p hp.1
  obtain ⟨-, hroot, hsp⟩ := h.sys.space hheld
  have htf : (tfEntry sp.trapframe).flags &&& PTE_PLV = 0 := by
    show PTE_TRAPFRAME &&& PTE_PLV = 0
    decide
  unfold userStore
  rw [run_bind_ok (StateT.run_get s)]
  dsimp only
  rw [hroot, run_bind_ok (onPhys_run (walkaddr_chain hsp.chain _))]
  by_cases hpa : (if PGROUNDDOWN va < MAXVA
      then userAddr (userMap (some (tfEntry sp.trapframe)) sp.es (PGROUNDDOWN va / PGSIZE))
      else 0) = 0
  · rw [if_pos hpa]
    exact ⟨s, rfl, h⟩
  · rw [if_neg hpa]
    have hva : PGROUNDDOWN va < MAXVA := by
      by_contra hge
      exact hpa (if_neg hge)
    rw [if_pos hva] at hpa ⊢
    obtain ⟨e, he, haddr⟩ := userAddr_page htf hpa
    have hoff := pgrounddown_sub va
    obtain ⟨ph', hrun, hc, hm, -⟩ := user_write hsp.chain (h.sys.space_owns hheld) he [b] hoff
      (by simp only [List.length_cons, List.length_nil]; omega)
    refine ⟨{ s with phys := ph' }, ?_, ?_⟩
    · rw [haddr]
      exact onPhys_run hrun
    · exact (h.of_same (h.sys.onContents hheld hm hc) (fun _ => ⟨rfl, rfl⟩) rfl).inv

/-- The panics that a call can end with. -/
def CallPanic (p : Slot) (c : Call) (e : Panic) : Prop :=
  (e = .initExiting ∧ p = initproc ∧ ∃ status, c = .exit status) ∨
  (e = .remap ∧ ∃ upath uargv fs, c = .exec upath uargv fs)

/-- A call that returns a value nobody looks at. -/
theorem wp_returned {α : Type} {x : OsM α} {E : Panic → Prop}
    (h : ∃ r s' G', x.run s = .ok (r, s') ∧ CallPost G s' G') :
    wp (do let _ ← x : OsM Unit) (fun _ s' => ∃ G', CallPost G s' G') E s := by
  obtain ⟨r, s', G', hrun, hinv⟩ := h
  rw [wp_bind]
  exact wp_of_ok hrun ⟨G', hinv⟩

/-- Every call keeps the invariant, or panics. -/
theorem call_spec (h : Inv s G) (p : Slot) (c : Call) :
    wp (call p c) (fun _ s' => ∃ G', CallPost G s' G') (CallPanic p c) s := by
  unfold call
  rw [wp_bind]
  refine wp_of_ok (StateT.run_get s) ?_
  by_cases hst : (s.proc p).state = .runnable
  swap
  · rw [if_neg hst]
    exact ⟨G, h.post⟩
  rw [if_pos hst]
  have hp : Active s p := ⟨by rw [hst]; decide, by rw [hst]; decide⟩
  cases c with
  | fork => exact wp_returned (fork_spec h hp)
  | exec upath uargv fs =>
    dsimp only
    rw [wp_bind]
    exact wp_mono (sys_exec_spec h hp upath uargv fs) (fun _ _ h' => h')
      fun _ he => Or.inr ⟨he, upath, uargv, fs, rfl⟩
  | sbrk n => exact wp_returned (sys_sbrk_spec h hp.1 n)
  | exit status =>
    by_cases hinit : p = initproc
    · refine wp_of_error (e := .initExiting) ?_ (Or.inl ⟨rfl, hinit, status, rfl⟩)
      dsimp only
      unfold exit
      rw [if_pos hinit]
      rfl
    · obtain ⟨s', G', hrun, hinv⟩ := exit_spec h hp hinit status
      exact wp_of_ok hrun ⟨G', hinv⟩
  | wait addr => exact wp_returned (wait_spec h hp.1 addr)
  | pipe fdarray => exact wp_returned (sys_pipe_spec h hp fdarray)
  | dup fd => exact wp_returned (sys_dup_spec h hp fd)
  | close fd => exact wp_returned (sys_close_spec h hp fd)
  | «open» found omode => exact wp_returned (sys_open_spec h hp found omode)
  | store va b =>
    obtain ⟨s', hrun, hinv⟩ := userStore_spec h hp va b
    exact wp_of_ok hrun ⟨G, hinv.post⟩

/-! ### Runs -/

/-- The invariant along a run. -/
theorem calls_spec (calls : List (Slot × Call)) (h : Inv s G) :
    wp (calls.forM fun c => call c.1 c.2 : OsM Unit)
      (fun _ s' => ∃ G', Inv s' G' ∧ G'.aside = G.aside)
      (fun e => ∃ c ∈ calls, CallPanic c.1 c.2 e) s := by
  refine wp_forM (I := fun _ t => ∃ G', Inv t G' ∧ G'.aside = G.aside) ⟨G, h, rfl⟩ ?_
  rintro c rest t ⟨done, hcalls⟩ ⟨G', ht, haside⟩
  refine wp_mono (call_spec ht c.1 c.2)
    (fun _ _ ⟨G'', h'⟩ => ⟨G'', h'.inv, h'.aside.trans haside⟩) fun e he => ⟨c, ?_, he⟩
  rw [hcalls]
  exact List.mem_append_right _ List.mem_cons_self

/-- Booting succeeds, so a run is a sequence of calls from the booted state. -/
theorem run_eq (mem : Bytes) : ∃ s G pg, Booted s G pg ∧
    s.phys.freelist.length + (6 + (4 + NPROC)) = 32768 ∧
    ∀ calls, run mem calls
      = ((calls.forM fun c => call c.1 c.2 : OsM Unit).run s).map Prod.snd := by
  obtain ⟨s, G, pg, hboot, hbooted, hfree⟩ := boot_spec mem
  refine ⟨s, G, pg, hbooted, hfree, fun calls => ?_⟩
  unfold run
  rw [run_bind_ok hboot]
  cases (calls.forM fun c => call c.1 c.2 : OsM Unit).run s with
  | error e => rfl
  | ok r => rfl

/-- The state with `free` for its free pages. -/
def withFree (s : Os) (free : List Nat) : Os :=
  { s with phys := { s.phys with freelist := free } }

/-- Free pages that are taken away are out of use. -/
theorem OsInv.withFree (h : OsInv s G) {free : List Nat} (hfree : free.Sublist s.phys.freelist) :
    ∃ lost, s.phys.freelist.Perm (free ++ lost) ∧
      OsInv (withFree s free) { G with aside := lost ++ G.aside } := by
  obtain ⟨lost, hperm⟩ := hfree.exists_perm_append
  refine ⟨lost, hperm,
    { h with pages := List.Perm.trans (List.perm_iff_count.mpr fun pg => ?_) h.pages }⟩
  have hcount := hperm.count_eq pg
  show (free ++ (G.slots ++ (G.pipes ++ (G.kd.list ++ (G.kstack ++
    ((lost ++ G.aside) ++ G.args)))))).count pg = (s.phys.freelist ++ (G.slots ++ (G.pipes ++
      (G.kd.list ++ (G.kstack ++ (G.aside ++ G.args)))))).count pg
  simp only [List.count_append] at hcount ⊢
  omega

/-- `s₀` is the state after booting with memory contents `mem`, and `s` the state after some calls
from there, for which only `free` is left of the free pages. -/
structure RunWith (mem : Bytes) (s₀ : Os) (free : List Nat) (calls : List (Slot × Call)) (s : Os) :
    Prop where
  booted : run mem [] = .ok s₀
  sublist : free.Sublist s₀.phys.freelist
  calls : (calls.forM fun c => call c.1 c.2 : OsM Unit).run (withFree s₀ free) = .ok ((), s)

/-- A run is one with all free pages. -/
theorem run_iff {mem : Bytes} {calls : List (Slot × Call)} :
    run mem calls = .ok s ↔ ∃ s₀, RunWith mem s₀ s₀.phys.freelist calls s := by
  obtain ⟨s₁, G₁, pg, -, -, hrun⟩ := run_eq mem
  have hboot : run mem [] = .ok s₁ := hrun []
  constructor
  · intro h
    refine ⟨s₁, hboot, List.Sublist.refl _, ?_⟩
    rw [hrun calls] at h
    show (calls.forM fun c => call c.1 c.2 : OsM Unit).run s₁ = _
    cases hcalls : (calls.forM fun c => call c.1 c.2 : OsM Unit).run s₁ with
    | error e =>
      rw [hcalls] at h
      exact absurd h nofun
    | ok r =>
      rw [hcalls] at h
      obtain rfl : r.2 = s := Except.ok.inj h
      rfl
  · rintro ⟨s₀, h⟩
    obtain rfl : s₁ = s₀ := Except.ok.inj (hboot.symm.trans h.booted)
    have hcalls : (calls.forM fun c => call c.1 c.2 : OsM Unit).run s₁ = .ok ((), s) := h.calls
    rw [hrun calls, hcalls]
    rfl

section

variable {mem : Bytes} {s₀ : Os} {free : List Nat} {calls : List (Slot × Call)}

/-- After booting, with free pages taken away. -/
theorem booted_withFree (hboot : run mem [] = .ok s₀) (hfree : free.Sublist s₀.phys.freelist) :
    ∃ G, Inv (withFree s₀ free) G ∧
      ∀ pg, pg ∈ G.aside ↔ pg ∈ s₀.phys.freelist ∧ pg ∉ free := by
  obtain ⟨s₁, G, pg, hbooted, -, hrun⟩ := run_eq mem
  obtain rfl : s₁ = s₀ := Except.ok.inj ((hrun []).symm.trans hboot)
  have h := hbooted.inv
  obtain ⟨lost, hperm, hinv⟩ := h.sys.withFree hfree
  rw [hbooted.aside, List.append_nil] at hinv
  refine ⟨_, ⟨hinv, ⟨h.settled.args, h.settled.unused, h.settled.used⟩,
    h.files.count, h.files.closed⟩, fun pg => ?_⟩
  have hnodup := hperm.nodup_iff.mp (List.nodup_append.mp h.sys.owns.nodup).1
  show pg ∈ lost ↔ _
  rw [hperm.mem_iff, List.mem_append]
  exact ⟨fun hin => ⟨.inr hin, fun hfree => (List.nodup_append.mp hnodup).2.2 pg hfree pg hin rfl⟩,
    fun ⟨hor, hnot⟩ => hor.resolve_left hnot⟩

/-- Every state between two calls. The pages that were taken away stay out of use. -/
theorem RunWith.inv (h : RunWith mem s₀ free calls s) :
    ∃ G, Inv s G ∧ ∀ pg, pg ∈ G.aside ↔ pg ∈ s₀.phys.freelist ∧ pg ∉ free := by
  obtain ⟨G₀, hinv, hout⟩ := booted_withFree h.booted h.sublist
  obtain ⟨G, hG, haside⟩ := wp_ok (calls_spec calls hinv) h.calls
  exact ⟨G, hG, haside ▸ hout⟩

theorem run_inv (h : run mem calls = .ok s) : ∃ G, Inv s G := by
  obtain ⟨s₀, hrun⟩ := run_iff.mp h
  obtain ⟨G, hG, -⟩ := hrun.inv
  exact ⟨G, hG⟩

/-- Calls among which `init` does not exit and nobody calls `exec` have a last state. -/
theorem runWith_returns (hboot : run mem [] = .ok s₀) (hfree : free.Sublist s₀.phys.freelist)
    (h : ∀ c ∈ calls, ∀ e, ¬ CallPanic c.1 c.2 e) : ∃ s, RunWith mem s₀ free calls s := by
  obtain ⟨G, hinv, -⟩ := booted_withFree hboot hfree
  obtain ⟨_, s, hcalls, -⟩ := wp_returns (wp_mono (calls_spec calls hinv)
    (fun _ _ h' => h') fun e ⟨c, hc, he⟩ => h c hc e he)
  exact ⟨s, hboot, hfree, hcalls⟩

end

end Calls

end Xv6.Proofs
