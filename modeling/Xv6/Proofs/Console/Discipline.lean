import Xv6.Proofs.Console.Editor
import Xv6.Lib.Calls

/-!
# `Xv6.Proofs.Console.Discipline`: reading lines from the console

`ConsoleInv` relates the buffer to the history of the console. What the readers have taken,
followed by what they have not read yet, is what the reference editor has committed.

A `^D` in the buffer is a mark, not data. A read that comes to it with bytes in hand puts it back,
and a read that comes to it first takes it and returns 0. `LineEnd` says this for one part of
`consoleread`, and `ReadEnd` for a whole call.
-/

set_option autoImplicit false

namespace Xv6.Proofs

open Lib List
open Function (update update_eq_self update_self)

/-! ### The loop of `consoleread` -/

/-- How a part of `consoleread` that wanted `target` bytes in all has ended. -/
inductive LineEnd (target : Nat) (r : LineRun) : Prop
  | full (hstop : r.stop = .done) (hn : r.n = 0) (htaken : r.taken = r.copied)
  | line (hstop : r.stop = .done) (hlast : r.copied.getLast? = some newline)
      (htaken : r.taken = r.copied)
  /-- the first character is `^D` -/
  | eof (hstop : r.stop = .done) (hn : r.n = target) (htaken : r.taken = [ctrl 'D'])
  /-- the next character is `^D` -/
  | beforeEof (hstop : r.stop = .done) (hn : r.n < target)
      (hnext : (unread r.cons).head? = some (ctrl 'D')) (htaken : r.taken = r.copied)
  | failed (hstop : r.stop = .done) (hfailed : r.failed = true)
      (htaken : ∃ c, c ≠ ctrl 'D' ∧ r.taken = r.copied ++ [c])
  | empty (hstop : r.stop = .empty) (hplain : newline ∉ r.copied) (htaken : r.taken = r.copied)

/-- What a part of `consoleread` has done with `n` bytes to go. -/
structure ReadLine (target n : Nat) (cons : Cons) (r : LineRun) : Prop where
  order : IndexOrder r.cons
  unread : unread cons = r.taken ++ unread r.cons
  line : line r.cons = line cons
  count : r.copied.length + r.n = n
  noEof : ctrl 'D' ∉ r.copied
  oneLine : newline ∉ r.copied.dropLast
  ends : LineEnd target r

section Loop

variable {dst : Nat → Bool} {target n : Nat} {cons : Cons}

/-- A round that takes a byte and goes on. -/
theorem ReadLine.another {c : UInt8} {r : LineRun} (hr : ReadLine target n cons.advance r)
    (hn : n < target) (hadv : Proofs.unread cons = c :: Proofs.unread cons.advance)
    (heof : c ≠ ctrl 'D') (hline : c ≠ newline) :
    ReadLine target (n + 1) cons { r with taken := c :: r.taken, copied := c :: r.copied } := by
  have hcount := hr.count
  refine ⟨hr.order, ?_, hr.line, ?_, ?_, ?_, ?_⟩
  · rw [hadv, hr.unread]
    rfl
  · change r.copied.length + 1 + r.n = n + 1
    omega
  · simpa using ⟨Ne.symm heof, hr.noEof⟩
  · cases hcopied : r.copied with
    | nil => simp
    | cons x xs =>
      have hold := hr.oneLine
      rw [hcopied] at hold
      simpa using ⟨Ne.symm hline, hold⟩
  · cases hr.ends with
    | full hstop hn htaken => exact .full hstop hn (congrArg _ htaken)
    | line hstop hlast htaken =>
      refine .line hstop ?_ (congrArg _ htaken)
      simp [getLast?_cons, hlast]
    | eof hstop hall htaken =>
      -- a byte has been copied already
      omega
    | beforeEof hstop hn hnext htaken => exact .beforeEof hstop hn hnext (congrArg _ htaken)
    | failed hstop hfailed htaken =>
      obtain ⟨c', hne, htaken⟩ := htaken
      exact .failed hstop hfailed ⟨c', hne, congrArg _ htaken⟩
    | empty hstop hplain htaken =>
      exact .empty hstop (by simpa using ⟨Ne.symm hline, hplain⟩) (congrArg _ htaken)

/-- What the loop of `consoleread` does with the characters that are there. -/
theorem consolereadLoop_readLine (dst : Nat → Bool) (hn : n ≤ target) (h : IndexOrder cons) :
    ReadLine target n cons (consolereadLoop dst target n cons) := by
  induction n generalizing cons with
  | zero =>
    exact ⟨h, rfl, rfl, rfl, not_mem_nil, not_mem_nil, .full rfl rfl rfl⟩
  | succ n ih =>
    unfold consolereadLoop
    by_cases hempty : cons.r = cons.w
    · rw [if_pos hempty]
      exact ⟨h, rfl, rfl, Nat.zero_add _, by simp, by simp, .empty rfl (by simp) rfl⟩
    · rw [if_neg hempty]
      obtain ⟨hadv, hline, horder⟩ := h.advance hempty
      by_cases heof : cons.buf (Cons.index cons.r) = ctrl 'D'
      · by_cases hhas : n + 1 < target
        · simp only [if_pos heof, if_pos hhas, putBack_advance]
          refine ⟨h, rfl, rfl, Nat.zero_add _, by simp, by simp, .beforeEof rfl hhas ?_ rfl⟩
          rw [hadv, heof]
          rfl
        · simp only [if_pos heof, if_neg hhas]
          refine ⟨horder, hadv, hline, Nat.zero_add _, by simp, by simp, .eof rfl ?_ ?_⟩
          · exact Nat.le_antisymm hn (Nat.le_of_not_lt hhas)
          · exact congrArg (fun c => [c]) heof
      · by_cases hdst : dst (target - (n + 1)) = false
        · simp only [if_neg heof, if_pos hdst]
          exact ⟨horder, hadv, hline, Nat.zero_add _, by simp, by simp,
            .failed rfl rfl ⟨_, heof, rfl⟩⟩
        · by_cases hnl : cons.buf (Cons.index cons.r) = newline
          · simp only [if_neg heof, if_neg hdst, if_pos hnl]
            refine ⟨horder, hadv, hline, Nat.add_comm 1 n, ?_, by simp, .line rfl ?_ rfl⟩
            · simpa using Ne.symm heof
            · exact congrArg some hnl
          · simp only [if_neg heof, if_neg hdst, if_neg hnl]
            have hrest := ih (Nat.le_of_succ_le hn) horder
            exact hrest.another hn hadv heof hnl

end Loop

/-! ### The invariant -/

/-- All the committed characters, those already taken first. -/
def stream {n : Nat} (s : ConsoleState n) : List UInt8 :=
  s.taken.map Prod.snd ++ unread s.cons

/-- How a read for `len` bytes has ended, with the bytes `got`, after it has taken the characters
`taken`. The next character in the stream was `next`. -/
inductive ReadEnd (len r : Int) (got taken : List UInt8) (next : Option UInt8) : Prop
  | full (hr : r = max len 0) (htaken : taken = got)
  | line (hlast : got.getLast? = some newline) (htaken : taken = got)
  | eof (hnone : got = []) (htaken : taken = [ctrl 'D'])
  | beforeEof (hsome : got ≠ []) (hnext : next = some (ctrl 'D')) (htaken : taken = got)

/-- What a call of `consoleread` has delivered. -/
structure LineRead (taken copied : List (Nat × UInt8)) (stream : List UInt8) (ret : ConsoleRet) :
    Prop where
  length : ((ofCall copied ret.call).length : Int) = ret.r
  oneLine : newline ∉ (ofCall copied ret.call).dropLast
  noEof : ctrl 'D' ∉ ofCall copied ret.call
  ends : ReadEnd ret.len ret.r (ofCall copied ret.call) (ofCall taken ret.call) stream[ret.pos]?

/-- What a call of `consoleread` with `todo` bytes to go has done so far. -/
structure Reading (taken copied : List (Nat × UInt8)) (call : Nat) (len : Int) (todo : Nat) :
    Prop where
  taken : ofCall taken call = ofCall copied call
  count : (ofCall copied call).length + todo = len.toNat
  plain : newline ∉ ofCall copied call
  noEof : ctrl 'D' ∉ ofCall copied call

/-- The number of the call that a process is in. -/
def readOf : ConsolePlace → Option Nat
  | .read call _ _ _ => some call
  | .user | .intr _ => none

theorem readOf_update {n : Nat} (ls : Fin n → ConsolePlace) (p : Fin n) (l : ConsolePlace) :
    (fun q => readOf (update ls p l q))
      = update (fun q => readOf (ls q)) p (readOf l) :=
  Function.comp_update readOf ls p l

/-- The buffer and the editor. -/
structure ConsoleCore {n : Nat} (s : ConsoleState n) : Prop where
  order : IndexOrder s.cons
  plain : newline ∉ line s.cons
  editor : edited s.hist
    = { out := stream s, line := line s.cons, read := s.taken.length }
  takenLt : ∀ x ∈ s.taken, x.1 < s.calls
  copiedLt : ∀ x ∈ s.copied, x.1 < s.calls
  data : s.copyFailed = false → s.copied = s.taken.filter fun x => x.2 ≠ ctrl 'D'

structure ConsoleInv {n : Nat} (s : ConsoleState n) (ls : Fin n → ConsolePlace) : Prop
    extends ConsoleCore s where
  numbered : Numbered s.calls (fun p => readOf (ls p)) (s.rets.map ConsoleRet.call)
  reading : ∀ p call dst len todo, ls p = .read call dst len todo →
    Reading s.taken s.copied call len todo
  eofs : ∀ call, (call, ctrl 'D') ∈ s.taken →
    ofCall s.taken call = [ctrl 'D'] ∧ ∃ ret ∈ s.rets, ret.call = call ∧ ret.r = 0
  returned : s.copyFailed = false → ∀ ret ∈ s.rets, 0 ≤ ret.r →
    LineRead s.taken s.copied (stream s) ret
  killed : ∀ ret ∈ s.rets, ret.r < 0 → ∃ p, s.killed p = true

/-- The invariant holds before anything is typed. -/
theorem consoleInv_fresh {n : Nat} (killed : Fin n → Bool) :
    ConsoleInv (ConsoleState.fresh killed) fun _ => .user where
  order := ⟨BitVec.le_refl _, show 0#32 - 0#32 ≤ BitVec.ofNat 32 INPUT_BUF by decide⟩
  plain := by simp [(line_eq_nil_iff (ConsoleState.fresh killed).cons).mpr rfl]
  editor := by
    have hline := (line_eq_nil_iff (ConsoleState.fresh killed).cons).mpr rfl
    have hunread := (unread_eq_nil_iff (ConsoleState.fresh killed).cons).mpr rfl
    rw [stream, hline, hunread]
    rfl
  takenLt := by simp [ConsoleState.fresh]
  copiedLt := by simp [ConsoleState.fresh]
  data _ := rfl
  numbered := numbered_start
  reading := by simp
  eofs := by simp [ConsoleState.fresh]
  returned := by simp [ConsoleState.fresh]
  killed := by simp [ConsoleState.fresh]

section Steps

variable {n : Nat} {s s' : ConsoleState n} {ls : Fin n → ConsolePlace} {p : Fin n} {call : Nat}

/-- A finished read stays as it is, since its number is not used again and the stream only
grows. -/
theorem LineRead.later {ret : ConsoleRet} (h : LineRead s.taken s.copied (stream s) ret)
    (hcopied : ofCall s'.copied ret.call = ofCall s.copied ret.call)
    (htaken : ofCall s'.taken ret.call = ofCall s.taken ret.call)
    (hstream : stream s <+: stream s') : LineRead s'.taken s'.copied (stream s') ret := by
  refine ⟨hcopied ▸ h.length, hcopied ▸ h.oneLine, hcopied ▸ h.noEof, ?_⟩
  rw [hcopied, htaken]
  cases h.ends with
  | full hr htaken => exact .full hr htaken
  | line hlast htaken => exact .line hlast htaken
  | eof hnone htaken => exact .eof hnone htaken
  | beforeEof hsome hnext htaken =>
    refine .beforeEof hsome ?_ htaken
    obtain ⟨hlt, hget⟩ := List.getElem?_eq_some_iff.mp hnext
    obtain ⟨rest, hrest⟩ := hstream
    rw [← hrest, List.getElem?_append_left hlt, hnext]

/-! ### Characters -/

/-- The editor that a console state stands for. -/
def editorOf (s : ConsoleState n) : Editor :=
  { out := stream s, line := line s.cons, read := s.taken.length }

theorem held_editorOf (s : ConsoleState n) :
    (editorOf s).held = (unread s.cons).length + (line s.cons).length := by
  simp [Editor.held, editorOf, stream]

/-- The buffer after a character, if it stands for what the editor makes of the character. -/
theorem ConsoleCore.input (h : ConsoleCore s) {c : UInt8} {cons : Cons}
    (hkey : (editorOf s).key c = editorOf { s with cons := cons })
    (horder : IndexOrder cons) (hplain : newline ∉ line cons) :
    ConsoleCore { s with cons := cons, hist := s.hist ++ [.input c] } := by
  refine { order := horder, plain := hplain, editor := ?_, takenLt := h.takenLt,
           copiedLt := h.copiedLt, data := h.data }
  have hold : edited s.hist = editorOf s := h.editor
  rw [edited_append, hold]
  exact hkey

theorem stream_prefix {cons : Cons} {rest : List UInt8} (h : unread cons = unread s.cons ++ rest) :
    stream s <+: stream { s with cons := cons } :=
  ⟨rest, by simp [stream, h]⟩

/-- A character that is stored, and commits the line or not. -/
theorem ConsoleCore.stored (h : ConsoleCore s) {c : UInt8} (c' : UInt8)
    (hroom : (unread s.cons).length + (line s.cons).length < INPUT_BUF)
    (hkey : (editorOf s).key c
      = if c' = newline ∨ c' = ctrl 'D' ∨ (editorOf s).held + 1 = INPUT_BUF then
          { editorOf s with out := stream s ++ (line s.cons ++ [c']), line := [] }
        else { editorOf s with line := line s.cons ++ [c'] }) :
    let cons := if c' = newline ∨ c' = ctrl 'D' ∨
        (s.cons.store c').e = (s.cons.store c').r + BitVec.ofNat 32 INPUT_BUF then
      (s.cons.store c').commit else s.cons.store c'
    ConsoleCore { s with cons := cons, hist := s.hist ++ [.input c] } ∧
      stream s <+: stream { s with cons := cons } := by
  obtain ⟨hunread, hline, horder⟩ := h.order.store c' hroom
  -- the two tests for a full buffer agree
  have hfull : (s.cons.store c').e = (s.cons.store c').r + BitVec.ofNat 32 INPUT_BUF ↔
      (editorOf s).held + 1 = INPUT_BUF := by
    rw [horder.full_iff, held_editorOf, hunread, hline, length_append,
      length_singleton, Nat.add_assoc]
  simp only [hfull]
  by_cases hcommit : c' = newline ∨ c' = ctrl 'D' ∨ (editorOf s).held + 1 = INPUT_BUF
  · rw [if_pos hcommit] at hkey ⊢
    obtain ⟨hunread', hline', horder'⟩ := horder.commit
    rw [hunread, hline] at hunread'
    refine ⟨h.input ?_ horder' (by simp [hline']), stream_prefix hunread'⟩
    rw [hkey]
    simp [editorOf, stream, hunread', hline']
  · rw [if_neg hcommit] at hkey ⊢
    refine ⟨h.input ?_ horder ?_, stream_prefix (hunread.trans (append_nil _).symm)⟩
    · rw [hkey]
      simp [editorOf, stream, hunread, hline]
    · rw [hline]
      simpa using ⟨h.plain, fun hc => hcommit (.inl hc.symm)⟩

/-- `consoleintr` does to the buffer what the editor does, and the stream can only grow. -/
theorem consoleintr_core (h : ConsoleCore s) (c : UInt8) :
    ConsoleCore (s.consoleintr c).data ∧ stream s <+: stream (s.consoleintr c).data := by
  have hsame : (editorOf s).key c = editorOf s →
      ConsoleCore { s with hist := s.hist ++ [.input c] } ∧ stream s <+: stream s := fun hkey =>
    ⟨h.input hkey h.order h.plain, prefix_rfl⟩
  have hheld := held_editorOf s
  unfold ConsoleState.consoleintr
  by_cases hp : c = ctrl 'P'
  · simp only [if_pos hp]
    exact hsame (if_pos (.inr hp))
  by_cases hu : c = ctrl 'U'
  · have h0 : ¬ (c = 0 ∨ c = ctrl 'P') := by
      rw [hu]
      decide
    simp only [if_neg hp, if_pos hu]
    obtain ⟨horder, hunread, -⟩ := h.order.killLine (s.cons.e - s.cons.w).toNat h.plain
    have hline := h.order.killLine_all h.plain
    generalize s.cons.killLine (s.cons.e - s.cons.w).toNat = cons at horder hunread hline ⊢
    refine ⟨h.input ?_ horder (by simp [hline]),
      stream_prefix (hunread.trans (append_nil _).symm)⟩
    rw [Editor.key, if_neg h0, if_pos hu]
    simp [editorOf, stream, hline, hunread]
  by_cases hh : c = ctrl 'H' ∨ c = delete
  · have h0 : ¬ (c = 0 ∨ c = ctrl 'P') := by
      rcases hh with rfl | rfl <;> decide
    have hkey : (editorOf s).key c = { editorOf s with line := (line s.cons).dropLast } := by
      rw [Editor.key, if_neg h0, if_neg hu, if_pos hh]
      rfl
    simp only [if_neg hp, if_neg hu, if_pos hh]
    by_cases hne : s.cons.e = s.cons.w
    · have hnil : line s.cons = [] := (line_eq_nil_iff _).mpr hne.symm
      rw [if_neg (not_not.mpr hne)]
      refine hsame (hkey.trans ?_)
      simp [editorOf, hnil]
    · have hline := line_of_ne hne
      rw [if_pos hne]
      refine ⟨h.input ?_ (h.order.erase hne) ?_, stream_prefix (append_nil _).symm⟩
      · rw [hkey, hline, dropLast_concat]
        rfl
      · exact fun hmem => h.plain (hline ▸ mem_append_left _ hmem)
  simp only [if_neg hp, if_neg hu, if_neg hh]
  by_cases hroom : c ≠ 0 ∧ s.cons.e - s.cons.r < BitVec.ofNat 32 INPUT_BUF
  · have hlt := h.order.room_iff.mp hroom.2
    have hnotfull : ¬ INPUT_BUF ≤ (editorOf s).held := by
      rw [hheld]
      exact Nat.not_le_of_lt hlt
    have := h.stored (c := c) (if c = carriageReturn then newline else c) hlt (by
      rw [Editor.key, if_neg (by simp [hroom.1, hp]), if_neg hu, if_neg hh, if_neg hnotfull]
      rfl)
    rw [if_pos hroom]
    generalize (if c = carriageReturn then newline else c) = c' at this ⊢
    by_cases hcommit : c' = newline ∨ c' = ctrl 'D' ∨
        (s.cons.store c').e = (s.cons.store c').r + BitVec.ofNat 32 INPUT_BUF
    · simp only [if_pos hcommit] at this ⊢
      exact this
    · simp only [if_neg hcommit] at this ⊢
      exact this
  · rw [if_neg hroom]
    refine hsame ?_
    by_cases h0 : c = 0
    · exact if_pos (.inl h0)
    · have hfull : INPUT_BUF ≤ (editorOf s).held := by
        rw [hheld]
        exact Nat.le_of_not_lt fun hlt => hroom ⟨h0, h.order.room_iff.mpr hlt⟩
      rw [Editor.key, if_neg (by simp [h0, hp]), if_neg hu, if_neg hh, if_pos hfull]

/-- `consoleintr` writes nothing but the buffer, and its input to the history. -/
theorem consoleintr_frame (s : ConsoleState n) (c : UInt8) :
    (s.consoleintr c).data.calls = s.calls ∧ (s.consoleintr c).data.taken = s.taken ∧
    (s.consoleintr c).data.copied = s.copied ∧ (s.consoleintr c).data.rets = s.rets ∧
    (s.consoleintr c).data.copyFailed = s.copyFailed ∧
    (s.consoleintr c).data.killed = s.killed ∧ (s.consoleintr c).after.loc = .user := by
  unfold ConsoleState.consoleintr
  dsimp only
  split_ifs <;> exact ⟨rfl, rfl, rfl, rfl, rfl, rfl, rfl⟩

/-- `consoleintr` as a step. -/
theorem consoleInv_consoleintr (h : ConsoleInv s ls) {c : UInt8} (hl : ls p = .intr c) :
    ConsoleInv (s.consoleintr c).data (update ls p (s.consoleintr c).after.loc) := by
  obtain ⟨hcore, hstream⟩ := consoleintr_core h.toConsoleCore c
  obtain ⟨hcalls, htaken, hcopied, hrets, hfailed, hkilled, hloc⟩ := consoleintr_frame s c
  rw [hloc]
  have hplace : ∀ q call dst len todo,
      update ls p .user q = .read call dst len todo → ls q = .read call dst len todo := by
    intro q call dst len todo hq
    by_cases hqp : q = p
    · subst hqp
      simp at hq
    · simpa [hqp] using hq
  refine { toConsoleCore := hcore, numbered := ?_, reading := ?_, eofs := ?_, returned := ?_,
           killed := ?_ }
  · rw [readOf_update, hcalls, hrets]
    exact h.numbered.idle (congrArg readOf hl)
  · intro q call dst len todo hq
    rw [htaken, hcopied]
    exact h.reading q call dst len todo (hplace q call dst len todo hq)
  · rw [htaken, hrets]
    exact h.eofs
  · rw [hfailed, hrets]
    intro hok ret hret hpos
    exact (h.returned hok ret hret hpos).later (by rw [hcopied]) (by rw [htaken]) hstream
  · rw [hrets, hkilled]
    exact h.killed

/-! ### Reads -/

variable {target todo : Nat} {len : Int} {r : LineRun}

/-- The state after a part of `consoleread`, before the call returns or sleeps. -/
def afterTaking (s : ConsoleState n) (call : Nat) (r : LineRun) : ConsoleState n :=
  { s with
    cons := r.cons
    hist := s.hist ++ List.replicate r.taken.length .took
    taken := s.taken ++ r.taken.map fun c => (call, c)
    copied := s.copied ++ r.copied.map fun c => (call, c)
    copyFailed := s.copyFailed || r.failed }

/-- Without a failed copy, what is taken and not copied is `^D`. -/
theorem ReadLine.copied_eq {cons : Cons} (hr : ReadLine target todo cons r)
    (htodo : todo ≤ target) (hok : r.failed = false) :
    r.copied = r.taken.filter fun c => c ≠ ctrl 'D' := by
  have hself : r.taken = r.copied → r.copied = r.taken.filter fun c => c ≠ ctrl 'D' := by
    intro htaken
    rw [htaken]
    refine (filter_eq_self.mpr fun c hc => ?_).symm
    exact decide_eq_true fun heq => hr.noEof (heq ▸ hc)
  have hcount := hr.count
  cases hr.ends with
  | full hstop hn htaken => exact hself htaken
  | line hstop hlast htaken => exact hself htaken
  | beforeEof hstop hn hnext htaken => exact hself htaken
  | empty hstop hplain htaken => exact hself htaken
  | eof hstop hn htaken =>
    have hnil : r.copied = [] := eq_nil_of_length_eq_zero (by omega)
    rw [hnil, htaken]
    rfl
  | failed hstop hfailed htaken =>
    rw [hok] at hfailed
    cases hfailed

/-- A read takes characters off the front of the unread ones. -/
theorem ConsoleCore.took (h : ConsoleCore s) (hcall : call < s.calls)
    (hr : ReadLine target todo s.cons r) (htodo : todo ≤ target) :
    ConsoleCore (afterTaking s call r) ∧ stream (afterTaking s call r) = stream s := by
  have hsnd : ∀ cs : List UInt8, (cs.map fun c => (call, c)).map Prod.snd = cs := fun cs => by simp
  have hstream : stream (afterTaking s call r) = stream s := by
    simp only [stream, afterTaking, map_append, hsnd, hr.unread, append_assoc]
  have hmem : ∀ {xs : List (Nat × UInt8)} {cs : List UInt8}, (∀ x ∈ xs, x.1 < s.calls) →
      ∀ x ∈ xs ++ cs.map fun c => (call, c), x.1 < s.calls := by
    intro xs cs hxs x hx
    rcases mem_append.mp hx with hx | hx
    · exact hxs x hx
    · obtain ⟨c, -, rfl⟩ := mem_map.mp hx
      exact hcall
  refine ⟨⟨hr.order, ?_, ?_, hmem h.takenLt, hmem h.copiedLt, fun hok => ?_⟩, hstream⟩
  · exact fun hnl => h.plain (hr.line ▸ hnl)
  · have hold : edited s.hist = _ := h.editor
    rw [hstream]
    simp only [afterTaking]
    rw [edited_append, hold, foldl_took, hr.line, length_append, length_map]
  · obtain ⟨hok, hokr⟩ : s.copyFailed = false ∧ r.failed = false := by
      simpa [afterTaking] using hok
    simp only [afterTaking]
    rw [filter_append, ← h.data hok, filter_map, hr.copied_eq htodo hokr]
    rfl

/-- The call has delivered what it had, and what this part has copied. -/
theorem Reading.took (h : Reading s.taken s.copied call len todo)
    (hr : ReadLine target todo s.cons r) :
    ofCall (afterTaking s call r).copied call = ofCall s.copied call ++ r.copied ∧
    ofCall (afterTaking s call r).taken call = ofCall s.copied call ++ r.taken ∧
    (ofCall s.copied call ++ r.copied).length + r.n = len.toNat ∧
    newline ∉ (ofCall s.copied call ++ r.copied).dropLast ∧
    ctrl 'D' ∉ ofCall s.copied call ++ r.copied := by
  have hcount := h.count
  have hcount' := hr.count
  refine ⟨ofCall_append_self, ?_, ?_, ?_, ?_⟩
  · rw [← h.taken]
    exact ofCall_append_self
  · rw [length_append]
    omega
  · cases hcopied : r.copied with
    | nil =>
      rw [append_nil]
      exact fun hnl => h.plain (mem_of_mem_dropLast hnl)
    | cons c cs =>
      have hone := hr.oneLine
      rw [hcopied] at hone
      rw [dropLast_append_of_ne_nil (cons_ne_nil c cs)]
      simpa using ⟨h.plain, hone⟩
  · simpa using ⟨h.noEof, hr.noEof⟩

/-- A call that has taken a `^D` has nothing else and returns 0. -/
theorem Reading.eof (h : Reading s.taken s.copied call len todo)
    (hr : ReadLine len.toNat todo s.cons r)
    (hmem : (call, ctrl 'D') ∈ (afterTaking s call r).taken) :
    ofCall (afterTaking s call r).taken call = [ctrl 'D'] ∧ r.n = len.toNat ∧ r.stop = .done := by
  obtain ⟨-, htaken, hlen, -, hnone⟩ := h.took hr
  rw [← mem_ofCall, htaken] at hmem
  rw [htaken]
  cases hr.ends with
  | eof hstop hn htaken =>
    have hnil : ofCall s.copied call ++ r.copied = [] :=
      eq_nil_of_length_eq_zero (by omega)
    rw [(append_eq_nil_iff.mp hnil).1, htaken]
    exact ⟨rfl, hn, hstop⟩
  | failed hstop hfailed htaken =>
    obtain ⟨c, hc, htaken⟩ := htaken
    rw [htaken, ← append_assoc] at hmem
    rcases mem_append.mp hmem with hmem | hmem
    · exact absurd hmem hnone
    · exact absurd (mem_singleton.mp hmem).symm hc
  | full _ _ htaken | line _ _ htaken | beforeEof _ _ _ htaken | empty _ _ htaken =>
    rw [htaken] at hmem
    exact absurd hmem hnone

/-- What a call has delivered when it returns. -/
theorem Reading.done (h : Reading s.taken s.copied call len todo)
    (hr : ReadLine len.toNat todo s.cons r)
    (hstop : r.stop = .done) (hok : r.failed = false) :
    LineRead (afterTaking s call r).taken (afterTaking s call r).copied
        (stream (afterTaking s call r))
      { call := call, len := len, r := len.toNat - r.n
        pos := (afterTaking s call r).taken.length } := by
  obtain ⟨hcopied, htaken, hlen, hone, hnone⟩ := h.took hr
  have hcount := h.count
  have hnext : (stream (afterTaking s call r))[(afterTaking s call r).taken.length]?
      = (unread r.cons).head? := by
    rw [stream, List.getElem?_append_right (by simp), length_map, Nat.sub_self,
      head?_eq_getElem?]
    rfl
  refine ⟨?_, hcopied ▸ hone, hcopied ▸ hnone, ?_⟩ <;> dsimp only
  · rw [hcopied]
    omega
  · rw [hcopied, htaken, hnext]
    cases hr.ends with
    | full _ hn htaken => exact .full (by omega) (by rw [htaken])
    | line _ hlast htaken => exact .line (by simp [hlast]) (by rw [htaken])
    | eof _ hn htaken =>
      -- the call has no bytes yet
      have hnil : ofCall s.copied call ++ r.copied = [] :=
        eq_nil_of_length_eq_zero (by omega)
      obtain ⟨hnil₁, hnil₂⟩ := append_eq_nil_iff.mp hnil
      exact .eof hnil (by rw [hnil₁, htaken]; rfl)
    | beforeEof _ hn hnext htaken =>
      refine .beforeEof (fun hnil => ?_) hnext (by rw [htaken])
      rw [hnil, length_nil] at hlen
      omega
    | failed _ hfailed _ =>
      rw [hok] at hfailed
      cases hfailed
    | empty hempty _ _ =>
      rw [hstop] at hempty
      cases hempty

/-- The calls that are not this one are where they were. -/
theorem ConsoleInv.others (h : ConsoleInv s ls) (hr : ReadLine target todo s.cons r)
    (hcall : readOf (ls p) = some call) :
    (∀ q call' dst len todo, q ≠ p → ls q = .read call' dst len todo →
      Reading (afterTaking s call r).taken (afterTaking s call r).copied call' len todo) ∧
    (∀ call', call' ≠ call → (call', ctrl 'D') ∈ (afterTaking s call r).taken →
      ofCall (afterTaking s call r).taken call' = [ctrl 'D'] ∧
        ∃ ret ∈ s.rets, ret.call = call' ∧ ret.r = 0) ∧
    (s.copyFailed = false → ∀ ret ∈ s.rets, 0 ≤ ret.r →
      LineRead (afterTaking s call r).taken (afterTaking s call r).copied
        (stream (afterTaking s call r)) ret) := by
  have hsame : ∀ {call'}, call' ≠ call →
      ofCall (afterTaking s call r).copied call' = ofCall s.copied call' ∧
      ofCall (afterTaking s call r).taken call' = ofCall s.taken call' := fun hne =>
    ⟨ofCall_append_of_ne hne, ofCall_append_of_ne hne⟩
  refine ⟨fun q call' dst len todo hqp hq => ?_, fun call' hne hmem => ?_,
    fun hok ret hret hpos => ?_⟩
  · have hne : call' ≠ call := by
      rintro rfl
      exact hqp (h.numbered.inj (show readOf (ls q) = some call' by rw [hq]; rfl) hcall)
    obtain ⟨hcopied, htaken⟩ := hsame hne
    obtain ⟨h₁, h₂, h₃, h₄⟩ := h.reading q call' dst len todo hq
    exact ⟨by rw [hcopied, htaken]; exact h₁, by rwa [hcopied], by rwa [hcopied],
      by rwa [hcopied]⟩
  · rw [← mem_ofCall, (hsame hne).2, mem_ofCall] at hmem
    rw [(hsame hne).2]
    exact h.eofs call' hmem
  · have hne : ret.call ≠ call := fun heq =>
      h.numbered.notDone hcall (heq ▸ mem_map_of_mem hret)
    obtain ⟨hcopied, htaken⟩ := hsame hne
    refine (h.returned hok ret hret hpos).later hcopied htaken ?_
    rw [stream, stream, hr.unread]
    simp [afterTaking]

variable {dst : Nat → Bool}

section

variable (h : ConsoleInv s ls) (hl : ls p = .read call dst len todo)
include h hl

/-- A call returns after a part of `consoleread`. -/
theorem ConsoleInv.finish (hr : ReadLine len.toNat todo s.cons r) {ret : ConsoleRet}
    (hret : ret.call = call) (heof : (call, ctrl 'D') ∈ (afterTaking s call r).taken → ret.r = 0)
    (hdone : r.failed = false → 0 ≤ ret.r → LineRead (afterTaking s call r).taken
      (afterTaking s call r).copied (stream (afterTaking s call r)) ret)
    (hkilled : ret.r < 0 → ∃ p, s.killed p = true) :
    ConsoleInv { afterTaking s call r with rets := s.rets ++ [ret] }
      (update ls p .user) := by
  have hread := h.reading p call dst len todo hl
  have hcall : readOf (ls p) = some call := congrArg readOf hl
  obtain ⟨hcore, -⟩ := h.toConsoleCore.took (h.numbered.lt hcall) hr (by
    have := hread.count
    omega)
  obtain ⟨hreading, heofs, hreturned⟩ := h.others hr hcall
  refine { toConsoleCore := ⟨hcore.order, hcore.plain, hcore.editor, hcore.takenLt, hcore.copiedLt,
             hcore.data⟩, numbered := ?_, reading := ?_, eofs := ?_, returned := ?_, killed := ?_ }
  · rw [readOf_update, map_append, map_singleton, hret]
    exact h.numbered.finish hcall
  · intro q call' dst' len' todo' hq
    by_cases hqp : q = p
    · subst hqp
      simp at hq
    · exact hreading q call' dst' len' todo' hqp (by simpa [hqp] using hq)
  · intro call' hmem
    by_cases hc : call' = call
    · subst hc
      exact ⟨(hread.eof hr hmem).1, ret, mem_append_right _ (mem_singleton_self _), hret,
        heof hmem⟩
    · obtain ⟨hof, ret', hret', hfacts⟩ := heofs call' hc hmem
      exact ⟨hof, ret', mem_append_left _ hret', hfacts⟩
  · intro hok ret' hret' hpos
    obtain ⟨hok, hokr⟩ : s.copyFailed = false ∧ r.failed = false := by
      simpa [afterTaking] using hok
    rcases mem_append.mp hret' with hret' | hret'
    · exact hreturned hok ret' hret' hpos
    · obtain rfl := mem_singleton.mp hret'
      exact hdone hokr hpos
  · intro ret' hret' hneg
    rcases mem_append.mp hret' with hret' | hret'
    · exact h.killed ret' hret' hneg
    · obtain rfl := mem_singleton.mp hret'
      exact hkilled hneg

/-- A call goes to sleep after a part of `consoleread`. -/
theorem ConsoleInv.wait (hr : ReadLine len.toNat todo s.cons r) (hstop : r.stop = .empty) :
    ConsoleInv (afterTaking s call r) (update ls p (.read call dst len r.n)) := by
  have hread := h.reading p call dst len todo hl
  have hcall : readOf (ls p) = some call := congrArg readOf hl
  have htodo : todo ≤ len.toNat := by
    have := hread.count
    omega
  obtain ⟨hcore, -⟩ := h.toConsoleCore.took (h.numbered.lt hcall) hr htodo
  obtain ⟨hreading, heofs, hreturned⟩ := h.others hr hcall
  obtain ⟨hcopied, htaken, hlen, -, hnone⟩ := hread.took hr
  refine { toConsoleCore := hcore, numbered := ?_, reading := ?_, eofs := ?_, returned := ?_,
           killed := h.killed }
  · rw [readOf_update, show readOf (.read call dst len r.n) = readOf (ls p) from hcall.symm,
      update_eq_self]
    exact h.numbered
  · intro q call' dst' len' todo' hq
    by_cases hqp : q = p
    · subst hqp
      rw [update_self] at hq
      cases hq
      cases hr.ends with
      | empty _ hplain htake =>
        refine ⟨by rw [hcopied, htaken, htake], hcopied ▸ hlen, ?_, hcopied ▸ hnone⟩
        rw [hcopied]
        simpa using ⟨hread.plain, hplain⟩
      | full hdone | line hdone | eof hdone | beforeEof hdone | failed hdone =>
        rw [hstop] at hdone
        cases hdone
    · exact hreading q call' dst' len' todo' hqp (by simpa [hqp] using hq)
  · intro call' hmem
    by_cases hc : call' = call
    · subst hc
      have hdone := (hread.eof hr hmem).2.2
      rw [hstop] at hdone
      cases hdone
    · exact heofs call' hc hmem
  · intro hok ret hret hpos
    obtain ⟨hok, -⟩ : s.copyFailed = false ∧ r.failed = false := by
      simpa [afterTaking] using hok
    exact hreturned hok ret hret hpos

/-- `consoleread` as a step. -/
theorem consoleInv_consoleread : ConsoleInv (s.consoleread p call dst len todo).data
      (update ls p (s.consoleread p call dst len todo).after.loc) := by
  have hread := h.reading p call dst len todo hl
  have hr : ReadLine len.toNat todo s.cons (consolereadLoop dst len.toNat todo s.cons) :=
    consolereadLoop_readLine _ (by have := hread.count; omega) h.order
  unfold ConsoleState.consoleread
  generalize consolereadLoop dst len.toNat todo s.cons = r at hr ⊢
  have hlen := (hread.took hr).2.2.1
  cases hstop : r.stop with
  | done =>
    simp only [hstop]
    refine h.finish hl hr rfl (fun hmem => ?_) (fun hok _ => ?_) (fun hneg => ?_)
    · have := (hread.eof hr hmem).2.1
      change (len.toNat - r.n : Int) = 0
      omega
    · exact hread.done hr hstop hok
    · change (len.toNat - r.n : Int) < 0 at hneg
      omega
  | empty =>
    simp only [hstop]
    by_cases hkilled : s.killed p = true
    · rw [if_pos hkilled]
      refine h.finish hl hr rfl (fun hmem => ?_) (fun _ hpos => ?_) (fun _ => ⟨p, hkilled⟩)
      · have hdone := (hread.eof hr hmem).2.2
        rw [hstop] at hdone
        cases hdone
      · exact absurd (show (0 : Int) ≤ -1 from hpos) (by decide)
    · rw [if_neg hkilled]
      exact h.wait hl hr hstop

end

end Steps

/-- The critical sections of the console keep the invariant. -/
theorem consoleInv_keeps (n : Nat) : Monitor.Keeps (consoleMonitor n) ConsoleInv where
  kill p h :=
    { order := h.order, plain := h.plain, editor := h.editor, takenLt := h.takenLt
      copiedLt := h.copiedLt, data := h.data, numbered := h.numbered, reading := h.reading
      eofs := h.eofs, returned := h.returned
      killed := fun _ _ _ => ⟨p, update_self _ _ _⟩ }
  body := by
    intro s ls p r h hr
    cases hl : ls p with
    | user =>
      rw [hl] at hr
      cases hr
    | read call dst len todo =>
      rw [hl] at hr
      cases hr
      exact consoleInv_consoleread h hl
    | intr c =>
      rw [hl] at hr
      cases hr
      exact consoleInv_consoleintr h hl
  outside := by
    intro s ls p k r h hr
    cases hl : ls p <;> cases k <;> simp only [consoleMonitor, hl] at hr <;> cases hr
    case user.read dst len =>
      -- the number is new, so nothing in the history belongs to it
      have htaken : ofCall s.taken s.calls = [] := ofCall_eq_nil fun x hx => (h.takenLt x hx).ne
      have hcopied : ofCall s.copied s.calls = [] :=
        ofCall_eq_nil fun x hx => (h.copiedLt x hx).ne
      refine { order := h.order, plain := h.plain, editor := h.editor
               takenLt := fun x hx => Nat.lt_succ_of_lt (h.takenLt x hx)
               copiedLt := fun x hx => Nat.lt_succ_of_lt (h.copiedLt x hx)
               data := h.data, numbered := ?_, reading := ?_, eofs := h.eofs
               returned := h.returned, killed := h.killed }
      · rw [readOf_update]
        exact h.numbered.begin
      · intro q call' dst' len' todo' hq
        by_cases hqp : q = p
        · subst hqp
          rw [update_self] at hq
          cases hq
          exact ⟨by rw [htaken, hcopied], by simp [hcopied], by simp [hcopied], by simp [hcopied]⟩
        · exact h.reading q call' dst' len' todo' (by simpa [hqp] using hq)
    case user.intr c =>
      refine { toConsoleCore := h.toConsoleCore, numbered := ?_, reading := ?_, eofs := h.eofs
               returned := h.returned, killed := h.killed }
      · rw [readOf_update]
        exact h.numbered.idle (congrArg readOf hl)
      · intro q call' dst' len' todo' hq
        by_cases hqp : q = p
        · subst hqp
          simp at hq
        · exact h.reading q call' dst' len' todo' (by simpa [hqp] using hq)

/-! ### The result -/

/-- The line discipline of the console, in every reachable state of a run in which no process is
killed and no copy fails.

The indices keep their order, also between any two assignments of a section. What the reads have
taken, followed by what is committed and unread, is what the reference editor has committed on the
same input. What they have delivered is the same without the `^D`s. The read that has taken a `^D`
has taken nothing else and returned 0. Each read that has returned has delivered at most one line
(`LineRead`), and if it was cut short by a `^D` it has left the `^D` as the next character. -/
theorem console_line_discipline {n : Nat} {killed : Fin n → Bool}
    {evs : List (Monitor.Event n ConsoleCall)}
    {σ : Monitor.State n (ConsoleState n) ConsolePlace ConsoleChan}
    (hrun : (consoleMonitor n).run (consoleStart killed) evs = some σ)
    (halive : ∀ p, σ.data.killed p = false) (hcopy : σ.data.copyFailed = false) :
    (IndexOrder σ.data.cons ∧
      (∀ k, IndexOrder (σ.data.cons.killLine k)) ∧
      (σ.data.cons.e ≠ σ.data.cons.w → IndexOrder σ.data.cons.erase) ∧
      (∀ c, σ.data.cons.e - σ.data.cons.r < BitVec.ofNat 32 INPUT_BUF →
        IndexOrder (σ.data.cons.store c) ∧ IndexOrder (σ.data.cons.store c).commit) ∧
      ∀ dst target todo, todo ≤ target →
        let cons := (consolereadLoop dst target todo σ.data.cons).cons
        IndexOrder cons ∧ (cons.r ≠ cons.w → IndexOrder cons.advance)) ∧
    σ.data.taken.map Prod.snd ++ unread σ.data.cons = (edited σ.data.hist).out ∧
    line σ.data.cons = (edited σ.data.hist).line ∧
    σ.data.copied = σ.data.taken.filter (fun x => x.2 ≠ ctrl 'D') ∧
    (∀ call, (call, ctrl 'D') ∈ σ.data.taken →
      ofCall σ.data.taken call = [ctrl 'D'] ∧
        ∃ ret ∈ σ.data.rets, ret.call = call ∧ ret.r = 0) ∧
    (σ.data.rets.map ConsoleRet.call).Nodup ∧
    (∀ ret ∈ σ.data.rets, LineRead σ.data.taken σ.data.copied
      (σ.data.taken.map Prod.snd ++ unread σ.data.cons) ret) := by
  have hinv : ConsoleInv σ.data σ.loc :=
    (consoleInv_keeps n).run (consoleInv_fresh killed) hrun
  have hnonneg : ∀ ret ∈ σ.data.rets, 0 ≤ ret.r := by
    intro ret hret
    by_contra hneg
    obtain ⟨p, hp⟩ := hinv.killed ret hret (by omega)
    rw [halive p] at hp
    cases hp
  refine ⟨⟨hinv.order, ?_, hinv.order.erase, ?_, ?_⟩, ?_, ?_, hinv.data hcopy, hinv.eofs,
    hinv.numbered.nodup, ?_⟩
  · exact fun k => (hinv.order.killLine k hinv.plain).1
  · intro c hroom
    have hstore := (hinv.order.store c (hinv.order.room_iff.mp hroom)).2.2
    exact ⟨hstore, hstore.commit.2.2⟩
  · intro dst target todo htodo
    have hloop := (consolereadLoop_readLine dst htodo hinv.order).order
    exact ⟨hloop, fun hne => (hloop.advance hne).2.2⟩
  · rw [hinv.editor]
    rfl
  · rw [hinv.editor]
  · exact fun ret hret => hinv.returned hcopy ret hret (hnonneg ret hret)

/-- One process types and the other one reads. `h`, `x`, a backspace, `i`, return and `^D` come
in, and then there are two reads. -/
def typeAndRead : List (Monitor.Event 2 ConsoleCall) :=
  let reader : Fin 2 := Fin.castSucc (Fin.last 0)
  let typist : Fin 2 := Fin.last 1
  let type (c : UInt8) (steps : Nat) : List (Monitor.Event 2 ConsoleCall) :=
    .step typist (some (.intr c)) :: List.replicate steps (.step typist none)
  let read : List (Monitor.Event 2 ConsoleCall) :=
    .step reader (some (.read (fun _ => true) 10)) :: List.replicate 3 (.step reader none)
  type 104 3 ++ type 120 3 ++ type (ctrl 'H') 3 ++ type 105 3 ++ type carriageReturn 8 ++
    type (ctrl 'D') 8 ++ read ++ read

/-- The first read gets the edited line, and the second one takes the `^D` alone. -/
theorem console_line_discipline_typeAndRead :
    ∃ σ, (consoleMonitor 2).run (consoleStart fun _ => false) typeAndRead = some σ ∧
      ((∀ p, σ.data.killed p = false) ∧ σ.data.copyFailed = false ∧
        σ.data.copied = [(0, 104), (0, 105), (0, newline)] ∧
        σ.data.taken = [(0, 104), (0, 105), (0, newline), (1, ctrl 'D')]) ∧
      σ.data.taken.map Prod.snd ++ unread σ.data.cons = (edited σ.data.hist).out := by
  have hrun : (((consoleMonitor 2).run (consoleStart fun _ => false) typeAndRead).any
      fun σ => (∀ p, σ.data.killed p = false) ∧ σ.data.copyFailed = false ∧
        σ.data.copied = [(0, 104), (0, 105), (0, newline)] ∧
        σ.data.taken = [(0, 104), (0, 105), (0, newline), (1, ctrl 'D')]) = true := by
    decide +kernel
  obtain ⟨σ, hσ, hfacts⟩ := (Option.any_eq_true _ _).mp hrun
  have hfacts := of_decide_eq_true hfacts
  exact ⟨σ, hσ, hfacts, (console_line_discipline hσ hfacts.1 hfacts.2.1).2.1⟩

end Xv6.Proofs
