import Xv6.User.Grep
import Mathlib.Data.List.Basic

/-!
# `Xv6.Proofs.Grep.Lines`: the lines that `grep` sees

However `read` cuts the file, `grep` handles its lines one after the other (`grepLoop_spec`), until
the first one that does not fit into `buf` together with its newline. Then `read` is asked for 0
bytes, and `grep` takes its answer for the end of the file.
-/

set_option autoImplicit false

namespace Xv6.Proofs.Grep

open Xv6.Grep List

variable {pattern held file text more : List UInt8} {want : Nat → Nat} {ls : List (List UInt8)}

/-- The file with these lines. -/
def ofLines (ls : List (List UInt8)) : List UInt8 := ls.flatMap (· ++ [lineFeed])

/-- The matching lines, each with its newline. -/
def matching (pattern : List UInt8) (ls : List (List UInt8)) : List (List UInt8) :=
  (ls.filter (matchRe pattern)).map (· ++ [lineFeed])

/-- A line of a text file. -/
def IsLine (l : List UInt8) : Prop := 0 ∉ l ∧ lineFeed ∉ l

instance (l : List UInt8) : Decidable (IsLine l) := inferInstanceAs (Decidable (_ ∧ _))

/-- The line fits into `buf`, with its newline and a NUL. -/
def fits (l : List UInt8) : Bool := l.length + 2 ≤ BUFSIZE

theorem ofLines_cons (l : List UInt8) (ls : List (List UInt8)) :
    ofLines (l :: ls) = l ++ lineFeed :: ofLines ls := by
  simp [ofLines]

theorem matching_append (pattern : List UInt8) (ls ls' : List (List UInt8)) :
    matching pattern (ls ++ ls') = matching pattern ls ++ matching pattern ls' := by
  simp [matching]

/-! ### One round -/

theorem strchr_of_not_mem (h : lineFeed ∉ text) : strchr lineFeed text = none := by
  induction text with
  | nil => rfl
  | cons b s ih =>
    rw [mem_cons, not_or] at h
    rw [strchr, if_neg (Ne.symm h.1), ih h.2]
    split <;> rfl

theorem strchr_line {l : List UInt8} (h : IsLine l) :
    strchr lineFeed (l ++ lineFeed :: text) = some (l, text) := by
  induction l with
  | nil => rfl
  | cons b l ih =>
    have h0 : b ≠ 0 := fun hb => h.1 (hb ▸ mem_cons_self)
    have hnl : b ≠ lineFeed := fun hb => h.2 (hb ▸ mem_cons_self)
    have hl : IsLine l := h.imp (mt (mem_cons_of_mem _)) (mt (mem_cons_of_mem _))
    rw [cons_append, strchr, if_neg h0, if_neg hnl, ih hl]
    rfl

/-- A text at the start of the file is a part of the first line, or it contains that line. -/
theorem first_line {l rest : List UInt8} (hl : lineFeed ∉ l)
    (h : text ++ more = l ++ lineFeed :: rest) :
    (lineFeed ∉ text ∧ text.length ≤ l.length) ∨
      ∃ text', text = l ++ lineFeed :: text' ∧ text' ++ more = rest := by
  rcases append_eq_append_iff.mp h with ⟨a, rfl, -⟩ | ⟨a, rfl, ha⟩
  · exact .inl ⟨fun hm => hl (mem_append_left a hm), by simp⟩
  · cases a with
    | nil => exact .inl (by simpa using hl)
    | cons b text' =>
      obtain ⟨rfl, rfl⟩ := cons_eq_cons.mp ha
      exact .inr ⟨text', rfl, rfl⟩

theorem lineLoop_of_not_mem {rounds : Nat} (h : lineFeed ∉ text) :
    lineLoop pattern rounds text = ([], text) := by
  cases rounds with
  | zero => rfl
  | succ rounds => rw [lineLoop, strchr_of_not_mem h]

/-- The inner loop goes through the lines that are complete in the text. -/
theorem lineLoop_spec (pattern : List UInt8) (rounds : Nat) (h : text ++ more = ofLines ls)
    (hls : ∀ l ∈ ls, IsLine l) (hrounds : text.length ≤ rounds) :
    ∃ ls₁ ls₂ rest, ls = ls₁ ++ ls₂ ∧ lineLoop pattern rounds text = (matching pattern ls₁, rest) ∧
      text = ofLines ls₁ ++ rest ∧ rest ++ more = ofLines ls₂ ∧ lineFeed ∉ rest := by
  induction ls generalizing text rounds with
  | nil =>
    obtain ⟨rfl, rfl⟩ := append_eq_nil_iff.mp h
    exact ⟨[], [], [], rfl, lineLoop_of_not_mem not_mem_nil, rfl, rfl, not_mem_nil⟩
  | cons l ls ih =>
    have hl := hls l mem_cons_self
    rcases first_line hl.2 (h.trans (ofLines_cons l ls)) with ⟨hnl, -⟩ | ⟨text', rfl, hrest⟩
    · exact ⟨[], l :: ls, text, rfl, lineLoop_of_not_mem hnl, rfl, h, hnl⟩
    rw [length_append, length_cons] at hrounds
    obtain ⟨rounds, rfl⟩ : ∃ k, rounds = k + 1 := ⟨rounds - 1, by omega⟩
    obtain ⟨ls₁, ls₂, rest, rfl, hloop, rfl, hfile, hnl⟩ :=
      ih rounds hrest (fun l hm => hls l (mem_cons_of_mem _ hm)) (by omega)
    refine ⟨l :: ls₁, ls₂, rest, rfl, ?_, ?_, hfile, hnl⟩
    · rw [lineLoop, strchr_line hl]
      simp only [hloop, matching, filter_cons]
      split <;> rfl
    · rw [ofLines_cons, append_assoc, cons_append]

/-! ### The whole file -/

theorem length_le_of_mem {l : List UInt8} (hl : l ∈ ls) : l.length + 1 ≤ (ofLines ls).length := by
  obtain ⟨ls₁, ls₂, rfl⟩ := append_of_mem hl
  simp [ofLines]
  omega

/-- The outer loop stops at the end of the file or in a line that does not fit. -/
theorem grepLoop_spec {rounds : Nat} (h : held ++ file = ofLines ls) (hls : ∀ l ∈ ls, IsLine l)
    (hnl : lineFeed ∉ held) (hlen : held.length + 1 ≤ BUFSIZE) (hrounds : file.length < rounds) :
    grepLoop pattern want rounds held file = matching pattern (ls.takeWhile fits) := by
  induction rounds generalizing held file ls with
  | zero => exact absurd hrounds (Nat.not_lt_zero _)
  | succ rounds ih =>
    rw [grepLoop]
    generalize hn : readCount (want rounds) (BUFSIZE - held.length - 1) file.length = n
    dsimp only
    unfold readCount at hn
    by_cases hzero : n = 0
    · rw [if_pos hzero]
      cases ls with
      | nil => rfl
      | cons l ls =>
        have hl := hls l mem_cons_self
        have hfile := h.trans (ofLines_cons l ls)
        rcases first_line hl.2 hfile with ⟨-, hle⟩ | ⟨text', rfl, -⟩
        · have hlens := congrArg length hfile
          rw [length_append, length_append, length_cons] at hlens
          have hlong : fits l = false := decide_eq_false (by omega)
          rw [takeWhile_cons_of_neg (by simp [hlong])]
          rfl
        · exact absurd (mem_append_right _ mem_cons_self) hnl
    · rw [if_neg hzero]
      have htake : (held ++ file.take n) ++ file.drop n = ofLines ls := by
        rw [append_assoc, take_append_drop, h]
      have htext : (held ++ file.take n).length = held.length + n := by
        rw [length_append, length_take]
        omega
      obtain ⟨ls₁, ls₂, rest, rfl, hloop, hheld, hfile, hnl'⟩ :=
        lineLoop_spec pattern _ htake hls (Nat.le_of_eq htext)
      have hlens := congrArg length hheld
      rw [htext, length_append] at hlens
      have hfits : ∀ l ∈ ls₁, fits l = true := fun l hl => by
        have := length_le_of_mem hl
        exact decide_eq_true (by omega)
      rw [hloop, takeWhile_append_of_pos hfits, matching_append, ih hfile
        (fun l hl => hls l (mem_append_right _ hl)) hnl' (by omega) (by rw [length_drop]; omega)]

/-- `grep` writes the matching lines, whole and in order, exactly if none of them comes after a line
that is too long for `buf`, or is such a line itself. -/
theorem grep_lines_iff (hls : ∀ l ∈ ls, IsLine l) :
    grep pattern want (ofLines ls) = matching pattern ls ↔
      ∀ l ∈ ls.dropWhile fits, matchRe pattern l = false := by
  have hgrep : grep pattern want (ofLines ls) = matching pattern (ls.takeWhile fits) :=
    grepLoop_spec rfl hls not_mem_nil (by decide) (Nat.lt_succ_self _)
  have hsplit := matching_append pattern (ls.takeWhile fits) (ls.dropWhile fits)
  rw [takeWhile_append_dropWhile] at hsplit
  rw [hgrep, hsplit, self_eq_append_right, matching, map_eq_nil_iff, filter_eq_nil_iff]
  simp only [Bool.not_eq_true]

/-- All lines are short. -/
theorem grep_lines_iff_short :
    grep [] (fun _ => 1) (ofLines [[97], []]) = matching [] [[97], []] :=
  (grep_lines_iff (by decide)).mpr (by decide)

/-- The empty pattern matches a line of 1023 characters, but `grep` writes nothing. -/
theorem grep_loses_long_line : grep [] (fun _ => 1) (ofLines [replicate 1023 97]) = [] ∧
    matching [] [replicate 1023 97] = [replicate 1023 97 ++ [lineFeed]] := by
  have hlen : (replicate 1023 (97 : UInt8)).length = 1023 := length_replicate
  have hline : IsLine (replicate 1023 97) := by
    constructor <;> exact fun hm => absurd (eq_of_mem_replicate hm) (by decide)
  generalize replicate 1023 (97 : UInt8) = l at hlen hline ⊢
  constructor
  · have hlong : ¬ fits l = true := by simp [fits, BUFSIZE, hlen]
    refine (grepLoop_spec rfl (forall_mem_singleton.mpr hline) not_mem_nil (by decide)
      (Nat.lt_succ_self _)).trans ?_
    rw [takeWhile_cons_of_neg hlong]
    rfl
  · have hmatch : matchRe [] l = true := by cases l <;> simp [matchRe, matchLoop, matchhere]
    rw [matching, filter_cons_of_pos hmatch]
    rfl

end Xv6.Proofs.Grep
