import Xv6.Proofs.Vm.UserCopy

/-!
# `Xv6.Proofs.Vm.Strings`: strings from user space

The loops of `copyinstr` are the scan `scanStr`. The theorem is then about the scan alone, where it
is an induction on the room that is left.

That nothing behind the '\0' is examined is said by `fetches_strings_exactly` with a second memory:
whatever it has there, and whatever its tables say about the pages there, the result is the same.
-/

set_option autoImplicit false

namespace Xv6.Proofs

open Lib

/-! ### The scan -/

/-- There is a string of `k` bytes at `va`. -/
structure StringIn (f : Nat → Option UInt8) (va k : Nat) : Prop where
  nul : f (va + k) = some 0
  before : ∀ j < k, ∃ b, f (va + j) = some b ∧ b ≠ 0

section Scan

variable {f : Nat → Option UInt8}

theorem StringIn.tail {va k : Nat} (h : StringIn f va (k + 1)) : StringIn f (va + 1) k := by
  constructor
  · have hnul := h.nul
    rwa [Nat.add_left_comm, Nat.add_comm] at hnul
  · intro j hj
    have hbefore := h.before (j + 1) (by omega)
    rwa [Nat.add_left_comm, Nat.add_comm] at hbefore

theorem StringIn.cons {va k : Nat} {b : UInt8} (h : StringIn f (va + 1) k) (hb : f va = some b)
    (hne : b ≠ 0) : StringIn f va (k + 1) := by
  constructor
  · have hnul := h.nul
    rwa [Nat.add_right_comm] at hnul
  · intro j hj
    cases j with
    | zero => exact ⟨b, hb, hne⟩
    | succ j =>
      have hbefore := h.before j (by omega)
      rwa [Nat.add_right_comm] at hbefore

/-- Without a string the scan fails. -/
theorem scanStr_none (max : Nat) :
    ∀ va, (∀ k < max, ¬ StringIn f va k) → (scanStr f max va).2 = -1 := by
  induction max with
  | zero => exact fun _ _ => rfl
  | succ max ih =>
    intro va hno
    rw [scanStr]
    split
    · rfl
    · rename_i b hb
      split
      · rename_i hzero
        exact absurd ⟨hzero ▸ hb, fun j hj => absurd hj j.not_lt_zero⟩ (hno 0 (by omega))
      · rename_i hne
        exact ih _ fun k hk hstr => hno (k + 1) (by omega) (hstr.cons hb hne)

/-- With a string the scan finds it. -/
theorem scanStr_string (max : Nat) :
    ∀ {va k : Nat}, k < max → StringIn f va k →
      ∃ str, scanStr f max va = (str ++ [0], 0) ∧ str.length = k ∧
        ∀ j < k, f (va + j) = str[j]? := by
  induction max with
  | zero => exact fun hk => absurd hk (Nat.not_lt_zero _)
  | succ max ih =>
    intro va k hk h
    cases k with
    | zero =>
      have hnul := h.nul
      rw [Nat.add_zero] at hnul
      rw [scanStr, hnul]
      exact ⟨[], rfl, rfl, fun j hj => absurd hj j.not_lt_zero⟩
    | succ k =>
      obtain ⟨b, hb, hne⟩ := h.before 0 (by omega)
      rw [Nat.add_zero] at hb
      obtain ⟨str, hscan, hlen, hbytes⟩ := ih (Nat.lt_of_succ_lt_succ hk) h.tail
      refine ⟨b :: str, ?_, by rw [List.length_cons, hlen], fun j hj => ?_⟩
      · rw [scanStr, hb]
        dsimp only
        rw [if_neg hne, hscan]
        rfl
      · cases j with
        | zero => exact hb
        | succ j =>
          have hbyte := hbytes j (by omega)
          rw [Nat.add_right_comm] at hbyte
          exact hbyte

end Scan

/-! ### The theorem -/

/-- A string of `k` bytes at user address `va`, in pages that the user may access. -/
structure StringAt (ph : Phys) (pagetable va k : Nat) : Prop where
  reach : ∀ j ≤ k, Reachable ph pagetable (va + j)
  nul : userAt ph pagetable (va + k) = some 0
  before : ∀ j < k, userAt ph pagetable (va + j) ≠ some 0

theorem stringAt_iff {ph : Phys} {pagetable va k : Nat} :
    StringAt ph pagetable va k ↔ StringIn (userAt ph pagetable) va k := by
  have hsome : ∀ a b, userAt ph pagetable a = some b → Reachable ph pagetable a := by
    intro a b hb
    unfold userAt userByte at hb
    by_contra hr
    rw [if_neg hr] at hb
    cases hb
  constructor
  · intro h
    refine ⟨h.nul, fun j hj => ?_⟩
    refine ⟨ph.mem (dmwin (PTE2PA (entryAt ph pagetable (va + j))) + (va + j) % PGSIZE), ?_,
      fun hzero => h.before j hj ?_⟩
    · unfold userAt userByte
      rw [if_pos (h.reach j (Nat.le_of_lt hj))]
      rfl
    · unfold userAt userByte
      rw [if_pos (h.reach j (Nat.le_of_lt hj)), Option.map_some, hzero]
  · intro h
    refine ⟨fun j hj => ?_, h.nul, fun j hj hzero => ?_⟩
    · rcases Nat.lt_or_eq_of_le hj with hlt | rfl
      · obtain ⟨b, hb, -⟩ := h.before j hlt
        exact hsome _ _ hb
      · exact hsome _ _ h.nul
    · obtain ⟨b, hb, hne⟩ := h.before j hj
      exact hne (Option.some.inj (hb.symm.trans hzero))

theorem strlen_string {str : List UInt8} (h : ∀ b ∈ str, b ≠ 0) :
    strlen (str ++ [0]) = str.length := by
  unfold strlen
  rw [List.takeWhile_append_of_pos (by simpa using h)]
  simp

/-- What is found of a string, by `copyinstr` and `fetchstr`. -/
theorem fetchstr_string {s : Os} {p : Slot} {d : Dirs} {tf : Entry} {es : List Entry}
    {other : List Nat} (h : AddressSpace s.phys d tf es other)
    (hroot : (s.proc p).pagetable = d.root) {srcva k max : Nat} {str : List UInt8}
    (hstr : StringIn (userAt s.phys d.root) srcva k) (hlen : str.length = k)
    (hbytes : ∀ j < k, userAt s.phys d.root (srcva + j) = str[j]?)
    (hscan : scanStr (userAt s.phys d.root) max srcva = (str ++ [0], 0)) :
    (fetchstr p srcva max).run s = .ok ((str ++ [0], (k : Int)), s) := by
  have hne : ∀ b ∈ str, b ≠ 0 := by
    intro b hb
    obtain ⟨j, hj⟩ := List.mem_iff_getElem?.mp hb
    have hlt : j < k := hlen ▸ (List.getElem?_eq_some_iff.mp hj).1
    obtain ⟨c, hc, hc0⟩ := hstr.before j hlt
    rw [hbytes j hlt, hj] at hc
    exact Option.some.inj hc ▸ hc0
  have hcopy := copyinstr_scan h srcva max
  rw [hscan] at hcopy
  unfold fetchstr
  rw [run_bind_ok (StateT.run_get s)]
  dsimp only
  rw [hroot, run_bind_ok (onPhys_run hcopy)]
  dsimp only
  rw [if_neg (by decide), strlen_string hne, hlen]
  rfl

/-- Strings are fetched exactly. -/
theorem fetches_strings_exactly {ph : Phys} {d : Dirs} {tf : Entry} {es : List Entry}
    {other : List Nat} (h : AddressSpace ph d tf es other) (srcva max : Nat) :
    ∃ dst r, (copyinstr d.root srcva max).run ph = .ok ((dst, r), ph) ∧
      dst.length ≤ max ∧ (r = 0 ∨ r = -1) ∧
      (r = 0 ↔ ∃ k < max, StringAt ph d.root srcva k) ∧
      ∀ k < max, StringAt ph d.root srcva k →
        (∃ str, dst = str ++ [0] ∧ str.length = k ∧
          ∀ j < k, userAt ph d.root (srcva + j) = str[j]?) ∧
        (∀ (s : Os) (p : Slot), s.phys = ph → (s.proc p).pagetable = d.root →
          (fetchstr p srcva max).run s = .ok ((dst, (k : Int)), s)) ∧
        -- another memory that has the same string
        ∀ ph₂ d₂ tf₂ es₂ other₂, AddressSpace ph₂ d₂ tf₂ es₂ other₂ →
          (∀ j ≤ k, userAt ph₂ d₂.root (srcva + j) = userAt ph d.root (srcva + j)) →
          (copyinstr d₂.root srcva max).run ph₂ = .ok ((dst, r), ph₂) := by
  by_cases hfound : ∃ k < max, StringAt ph d.root srcva k
  · obtain ⟨k, hk, hstr⟩ := hfound
    have hin := stringAt_iff.mp hstr
    obtain ⟨str, hscan, hlen, hbytes⟩ := scanStr_string max hk hin
    have hdst := scanStr_length (f := userAt ph d.root) max srcva
    have hcopy := copyinstr_scan h srcva max
    rw [hscan] at hdst hcopy
    refine ⟨str ++ [0], 0, hcopy, hdst, Or.inl rfl, iff_of_true rfl ⟨k, hk, hstr⟩,
      fun k' hk' hstr' => ?_⟩
    -- there is one string only
    obtain rfl : k' = k := by
      rcases Nat.lt_trichotomy k' k with hlt | heq | hlt
      · exact absurd hstr'.nul (hstr.before k' hlt)
      · exact heq
      · exact absurd hstr.nul (hstr'.before k hlt)
    refine ⟨⟨str, rfl, hlen, hbytes⟩, ?_, ?_⟩
    · rintro s p rfl hroot
      exact fetchstr_string h hroot hin hlen hbytes hscan
    · intro ph₂ d₂ tf₂ es₂ other₂ h₂ hsame
      have hin₂ : StringIn (userAt ph₂ d₂.root) srcva k' := by
        refine ⟨(hsame k' le_rfl).trans hin.nul, fun j hj => ?_⟩
        rw [hsame j (Nat.le_of_lt hj)]
        exact hin.before j hj
      obtain ⟨str₂, hscan₂, hlen₂, hbytes₂⟩ := scanStr_string max hk hin₂
      obtain rfl : str₂ = str := by
        refine List.ext_getElem? fun j => ?_
        by_cases hj : j < k'
        · rw [← hbytes₂ j hj, ← hbytes j hj, hsame j (Nat.le_of_lt hj)]
        · rw [List.getElem?_eq_none (by omega), List.getElem?_eq_none (by omega)]
      rw [copyinstr_scan h₂, hscan₂]
  · have hno : ∀ k < max, ¬ StringIn (userAt ph d.root) srcva k := fun k hk hin =>
      hfound ⟨k, hk, stringAt_iff.mpr hin⟩
    have hneg := scanStr_none max srcva hno
    refine ⟨_, _, copyinstr_scan h srcva max, scanStr_length max srcva, Or.inr hneg, ?_,
      fun k hk hstr => absurd ⟨k, hk, hstr⟩ hfound⟩
    rw [hneg]
    exact iff_of_false (by decide) hfound

/-- The first process has "/init", the name of the program that it executes, in its code. -/
theorem fetches_strings_exactly_init :
    ∃ s, run (fun _ => 0) [] = .ok s ∧
      (copyinstr (s.proc initproc).pagetable 36 14).run s.phys
        = .ok (([0x2f, 0x69, 0x6e, 0x69, 0x74] ++ [0], 0), s.phys) := by
  obtain ⟨s, G, pg, hbooted, -, hrun⟩ := run_eq fun _ => 0
  obtain ⟨d, other, hroot, hspace⟩ := hbooted.addressSpace
  have hat : ∀ a < PGSIZE, userAt s.phys d.root a = some (initcode.getD a 0) := fun a ha => by
    rw [hspace.userAt, userPage_init pg ha, Option.map_some, Nat.mod_eq_of_lt ha, hbooted.code a ha]
  have hstr : StringAt s.phys d.root 36 5 := by
    refine stringAt_iff.mpr ⟨hat 41 (by decide), fun j hj => ⟨_, hat (36 + j) ?_, ?_⟩⟩
    · unfold PGSIZE
      omega
    · have hcode : ∀ j < 5, initcode.getD (36 + j) 0 ≠ 0 := by decide
      exact hcode j hj
  obtain ⟨dst, r, hcopy, -, -, hiff, hfound⟩ := fetches_strings_exactly hspace 36 14
  obtain rfl : r = 0 := hiff.mpr ⟨5, by decide, hstr⟩
  obtain ⟨⟨str, rfl, hlen, hbytes⟩, -⟩ := hfound 5 (by decide) hstr
  obtain rfl : str = [0x2f, 0x69, 0x6e, 0x69, 0x74] := by
    refine List.ext_getElem? fun j => ?_
    by_cases hj : j < 5
    · rw [← hbytes j hj, hat _ (by unfold PGSIZE; omega)]
      have hcode : ∀ j < 5, some (initcode.getD (36 + j) 0)
          = [0x2f, 0x69, 0x6e, 0x69, 0x74][j]? := by decide
      exact hcode j hj
    · rw [List.getElem?_eq_none (by omega), List.getElem?_eq_none (Nat.le_of_not_lt hj)]
  exact ⟨s, hrun [], hroot ▸ hcopy⟩

end Xv6.Proofs
