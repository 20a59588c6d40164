import Xv6.Kernel.Console
import Xv6.Lib.Ring

/-!
# `Xv6.Proofs.Console.Editor`: the console buffer as a line editor

`Editor` is a line editor with lists: what it has committed, the line that is being edited, and how
much has been read. It says what the console is for.

`cons` holds the same in one ring with three indices that wrap. The part between `r` and `w` is
committed and not yet read (`unread`), and the part between `w` and `e` is the line being edited
(`line`). Each assignment to an index is a list operation on one of the two, as long as
`IndexOrder` holds.
-/

set_option autoImplicit false

namespace Xv6.Proofs

open Lib List

/-! ### The reference editor -/

structure Editor where
  /-- all that has been committed, with the `^D`s -/
  out : List UInt8
  /-- the line being edited -/
  line : List UInt8
  /-- how much of `out` has been read -/
  read : Nat

namespace Editor

/-- The characters in the editor. -/
def held (ed : Editor) : Nat := ed.out.length - ed.read + ed.line.length

/-- A character arrives. -/
def key (ed : Editor) (c : UInt8) : Editor :=
  if c = 0 ∨ c = ctrl 'P' then ed
  else if c = ctrl 'U' then { ed with line := [] }
  else if c = ctrl 'H' ∨ c = delete then { ed with line := ed.line.dropLast }
  else if INPUT_BUF ≤ ed.held then ed
  else
    let c := if c = carriageReturn then newline else c
    let line := ed.line ++ [c]
    if c = newline ∨ c = ctrl 'D' ∨ ed.held + 1 = INPUT_BUF then
      { ed with out := ed.out ++ line, line := [] }
    else { ed with line := line }

def step (ed : Editor) : ConsoleEvent → Editor
  | .input c => ed.key c
  | .took => { ed with read := ed.read + 1 }

end Editor

/-- The editor after a history. -/
def edited (hist : List ConsoleEvent) : Editor :=
  hist.foldl Editor.step { out := [], line := [], read := 0 }

theorem edited_append (hist hist' : List ConsoleEvent) :
    edited (hist ++ hist') = hist'.foldl Editor.step (edited hist) :=
  foldl_append

theorem foldl_took (k : Nat) (ed : Editor) :
    (List.replicate k ConsoleEvent.took).foldl Editor.step ed
      = { ed with read := ed.read + k } := by
  induction k generalizing ed with
  | zero => rfl
  | succ k ih =>
    rw [replicate_succ, foldl_cons, ih, Nat.add_comm k 1, ← Nat.add_assoc]
    rfl

/-! ### The buffer -/

/-- The ring between two indices. -/
def consRing (cons : Cons) (i j : BitVec 32) : Ring UInt8 32 INPUT_BUF :=
  { data := cons.buf, head := i, tail := j }

/-- The committed characters that nobody has read. -/
def unread (cons : Cons) : List UInt8 := (consRing cons cons.r cons.w).items

/-- The line being edited. -/
def line (cons : Cons) : List UInt8 := (consRing cons cons.w cons.e).items

/-- `r`, `w` and `e` come in this order, and `e` is at most `INPUT_BUF` after `r`. -/
def IndexOrder (cons : Cons) : Prop :=
  cons.w - cons.r ≤ cons.e - cons.r ∧ cons.e - cons.r ≤ BitVec.ofNat 32 INPUT_BUF

section Buffer

variable {cons : Cons}

theorem length_unread (cons : Cons) : (unread cons).length = (cons.w - cons.r).toNat := by
  simp [unread, Ring.items, Ring.count, consRing]

theorem length_line (cons : Cons) : (line cons).length = (cons.e - cons.w).toNat := by
  simp [line, Ring.items, Ring.count, consRing]

theorem unread_eq_nil_iff (cons : Cons) : unread cons = [] ↔ cons.r = cons.w := by
  rw [← length_eq_zero_iff, length_unread]
  exact (consRing cons cons.r cons.w).count_eq_zero_iff

theorem line_eq_nil_iff (cons : Cons) : line cons = [] ↔ cons.w = cons.e := by
  rw [← length_eq_zero_iff, length_line]
  exact (consRing cons cons.w cons.e).count_eq_zero_iff

/-- How much is held. -/
theorem IndexOrder.held (h : IndexOrder cons) :
    (cons.e - cons.r).toNat = (unread cons).length + (line cons).length := by
  rw [length_unread, length_line, Ring.count_split h.1]

theorem IndexOrder.held_le (h : IndexOrder cons) :
    (unread cons).length + (line cons).length ≤ INPUT_BUF := by
  rw [← h.held]
  exact BitVec.le_def.mp h.2

/-- `IndexOrder` from the numbers of characters. -/
theorem indexOrder_of_lengths (hsum : (cons.e - cons.r).toNat
    = (unread cons).length + (line cons).length)
    (hle : (unread cons).length + (line cons).length ≤ INPUT_BUF) : IndexOrder cons := by
  rw [length_unread] at hsum
  refine ⟨BitVec.le_def.mpr (by omega), BitVec.le_def.mpr ?_⟩
  have : (BitVec.ofNat 32 INPUT_BUF).toNat = INPUT_BUF := by decide
  rw [length_unread] at hle
  omega

theorem line_of_ne (h : cons.e ≠ cons.w) :
    line cons = line cons.erase ++ [cons.buf (Cons.index (cons.e - 1))] :=
  Ring.items_concat (Ne.symm h)

section

variable (h : IndexOrder cons)
include h

/-- A backspace takes back the last character of the line. -/
theorem IndexOrder.erase (hne : cons.e ≠ cons.w) : IndexOrder cons.erase := by
  have hlen := congrArg List.length (line_of_ne hne)
  rw [length_append, length_singleton] at hlen
  have hheld := h.held
  have hle := h.held_le
  have hr : cons.e - cons.r ≠ 0 := by
    intro h0
    rw [h0, hlen] at hheld
    simp at hheld
  have hone := Ring.toNat_sub_one hr
  refine indexOrder_of_lengths ?_ ?_
  · have : cons.erase.e - cons.erase.r = cons.e - cons.r - 1 := sub_right_comm _ _ _
    rw [this]
    change _ = (unread cons).length + _
    omega
  · change (unread cons).length + _ ≤ _
    omega

/-- The test for room in `consoleintr`. -/
theorem IndexOrder.room_iff : cons.e - cons.r < BitVec.ofNat 32 INPUT_BUF ↔
      (unread cons).length + (line cons).length < INPUT_BUF := by
  rw [BitVec.lt_def, h.held]
  rfl

/-- The test for a full buffer in `consoleintr`. -/
theorem IndexOrder.full_iff : cons.e = cons.r + BitVec.ofNat 32 INPUT_BUF ↔
      (unread cons).length + (line cons).length = INPUT_BUF := by
  rw [← h.held]
  exact ((consRing cons cons.r cons.e).count_eq_iff (by decide)).symm

/-- A stored character goes to the end of the line. -/
theorem IndexOrder.store (c : UInt8)
    (hroom : (unread cons).length + (line cons).length < INPUT_BUF) :
    unread (cons.store c) = unread cons ∧ line (cons.store c) = line cons ++ [c] ∧
      IndexOrder (cons.store c) := by
  have hcount : (consRing cons cons.r cons.e).count < INPUT_BUF := by
    rw [← h.held] at hroom
    exact hroom
  have hcap : INPUT_BUF < 2 ^ 32 := by decide
  have hsum : (cons.e + 1 - cons.r).toNat = (cons.e - cons.r).toNat + 1 :=
    Ring.count_push (r := consRing cons cons.r cons.e) (x := c) (by omega)
  have hle : cons.w - cons.r ≤ cons.e + 1 - cons.r :=
    BitVec.le_def.mpr (by have := BitVec.le_def.mp h.1; omega)
  -- the ring from `r` to `e` grows at its end, and `w` cuts it at the same place as before
  have hpush : unread (cons.store c) ++ line (cons.store c)
      = unread cons ++ (line cons ++ [c]) := by
    have hold : (consRing cons cons.r cons.e).items = unread cons ++ line cons :=
      Ring.items_split h.1
    have hnew : ((consRing cons cons.r cons.e).push c).items
        = unread (cons.store c) ++ line (cons.store c) := Ring.items_split hle
    rw [← hnew, Ring.items_push (by decide) hcap hcount, hold, append_assoc]
  have hlen : (unread (cons.store c)).length = (unread cons).length := by
    rw [length_unread, length_unread]
    rfl
  obtain ⟨hunread, hline⟩ := append_inj hpush hlen
  refine ⟨hunread, hline, indexOrder_of_lengths ?_ ?_⟩
  · rw [hunread, hline, length_append, length_singleton, ← Nat.add_assoc, ← h.held]
    exact hsum
  · rw [hunread, hline, length_append, length_singleton]
    omega

theorem IndexOrder.commit : unread cons.commit = unread cons ++ line cons ∧ line cons.commit = [] ∧
      IndexOrder cons.commit :=
  ⟨Ring.items_split h.1, (line_eq_nil_iff _).mpr rfl, BitVec.le_refl _, h.2⟩

/-- A reader takes the oldest committed character. -/
theorem IndexOrder.advance (hne : cons.r ≠ cons.w) :
    unread cons = cons.buf (Cons.index cons.r) :: unread cons.advance ∧
      line cons.advance = line cons ∧ IndexOrder cons.advance := by
  have hpop : unread cons = cons.buf (Cons.index cons.r) :: unread cons.advance :=
    Ring.items_pop (r := consRing cons cons.r cons.w) hne
  have hlen := congrArg List.length hpop
  rw [length_cons] at hlen
  have hheld := h.held
  have hle := h.held_le
  have hr : cons.r ≠ cons.e := by
    intro h0
    have hzero : (cons.e - cons.r).toNat = 0 := by simp [h0]
    omega
  have hone : (cons.e - (cons.r + 1)).toNat + 1 = (cons.e - cons.r).toNat :=
    Ring.count_pop (r := consRing cons cons.r cons.e) hr
  have hline : line cons.advance = line cons := rfl
  refine ⟨hpop, hline, indexOrder_of_lengths ?_ ?_⟩
  · have : (cons.advance.e - cons.advance.r).toNat + 1 = (cons.e - cons.r).toNat := hone
    rw [hline]
    omega
  · rw [hline]
    omega

end

theorem putBack_advance (cons : Cons) : cons.advance.putBack = cons := by
  unfold Cons.advance Cons.putBack
  rw [BitVec.add_sub_cancel]

/-- `^U` takes one character after the other from the end of the line. There is no newline in
it, so the second test of the loop does not stop it. -/
theorem IndexOrder.killLine (k : Nat) (h : IndexOrder cons) (hplain : newline ∉ line cons) :
    IndexOrder (cons.killLine k) ∧ unread (cons.killLine k) = unread cons ∧
      line (cons.killLine k) = (line cons).take ((line cons).length - k) := by
  induction k generalizing cons with
  | zero => exact ⟨h, rfl, (take_length ..).symm⟩
  | succ k ih =>
    unfold Cons.killLine
    by_cases hne : cons.e = cons.w
    · rw [if_neg (fun hc => hc.1 hne)]
      have hnil : line cons = [] := (line_eq_nil_iff cons).mpr hne.symm
      exact ⟨h, rfl, by rw [hnil, take_nil]⟩
    · have hline := line_of_ne hne
      have hlast : cons.buf (Cons.index (cons.e - 1)) ≠ newline := by
        intro heq
        exact hplain (hline ▸ heq ▸ by simp)
      rw [if_pos ⟨hne, hlast⟩]
      have hplain' : newline ∉ line cons.erase := fun hmem =>
        hplain (hline ▸ mem_append_left _ hmem)
      obtain ⟨horder, hunread, htake⟩ := ih (h.erase hne) hplain'
      refine ⟨horder, hunread, ?_⟩
      rw [htake, hline, length_append, length_singleton, Nat.add_sub_add_right,
        take_append_of_le_length (Nat.sub_le _ _)]

/-- The loop of `^U` runs until the line is empty. -/
theorem IndexOrder.killLine_all (h : IndexOrder cons) (hplain : newline ∉ line cons) :
    line (cons.killLine (cons.e - cons.w).toNat) = [] := by
  rw [(h.killLine _ hplain).2.2, length_line, Nat.sub_self]
  rfl

end Buffer

end Xv6.Proofs
