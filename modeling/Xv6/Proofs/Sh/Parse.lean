import Xv6.Proofs.Sh.Scan

/-!
# `Xv6.Proofs.Sh.Parse`: `parsecmd` accepts the grammar

`parsecmd` returns on the lines of the grammar, with the tree that the grammar gives them, and
panics on all others. In the tree the words are places in the line; `nulterminate` then writes a
zero after each of them. A zero never falls into another word, because the character that was
there ends a word (`Spells.ends`), so in the end each word can be read as a C string.
-/

set_option autoImplicit false

namespace Xv6.Proofs

open Lib Sh List
open Function (update update_of_ne)

variable {W W' : Type} {c : Cmd W'} {fuel : Nat} {s : Text} {t : Cmd W} {ts : List Token}
  {R : W → W' → Prop}

/-! ### Terminators -/

/-- The words of a command. -/
def words {W : Type} : Cmd W → List W
  | .exec argv => argv
  | .redir cmd file _ _ => words cmd ++ [file]
  | .pipe left right | .list left right => words left ++ words right
  | .back cmd => words cmd

theorem foldl_update_apply (ws : List Span) (buf : Nat → UInt8) (i : Nat) :
    ws.foldl (fun buf w => update buf w.eq 0) buf i =
      if ∃ w ∈ ws, w.eq = i then 0 else buf i := by
  induction ws generalizing buf with
  | nil => simp
  | cons w ws ih =>
    rw [foldl_cons, ih]
    by_cases hw : w.eq = i
    · simp [hw]
    · simp [hw, update_of_ne (Ne.symm hw)]

/-- `nulterminate` changes the places after the words, and no others. -/
theorem nulterminate_apply (t : Cmd Span) (buf : Nat → UInt8) (i : Nat) :
    nulterminate t buf i = if ∃ w ∈ words t, w.eq = i then 0 else buf i := by
  induction t generalizing buf with
  | exec argv => exact foldl_update_apply argv buf i
  | redir cmd file mode fd ih =>
    unfold nulterminate
    by_cases hfile : file.eq = i
    · subst hfile
      simp [words]
    · rw [update_of_ne (Ne.symm hfile), ih]
      simp [words, hfile, or_and_right, exists_or]
  | pipe left right ihl ihr | list left right ihl ihr =>
    unfold nulterminate
    rw [ihr, ihl]
    by_cases hright : ∃ w ∈ words right, w.eq = i
    · simp [words, hright, or_and_right, exists_or]
    · simp [words, hright, or_and_right, exists_or]
  | back cmd ih => exact ih buf

/-- The C string at the beginning of `sp` is `w`. -/
def CString (buf : Nat → UInt8) (sp : Span) (w : Text) : Prop :=
  (∀ i c, w[i]? = some c → buf (sp.q + i) = c ∧ c ≠ 0) ∧ buf (sp.q + w.length) = 0

/-- A span of the buffer holds one string. -/
theorem CString.unique {buf : Nat → UInt8} {sp : Span} {w w' : Text} (h : CString buf sp w)
    (h' : CString buf sp w') : w = w' := by
  -- the terminator of one is no character of the other
  have hlen : ∀ u v : Text, CString buf sp u → CString buf sp v → v.length ≤ u.length := by
    intro u v hu hv
    by_contra hlt
    obtain ⟨c, hc⟩ : ∃ c, v[u.length]? = some c := ⟨_, List.getElem?_eq_getElem (not_le.mp hlt)⟩
    obtain ⟨hbuf, hne⟩ := hv.1 _ c hc
    exact hne (hbuf.symm.trans hu.2)
  refine ext_getElem (le_antisymm (hlen w' w h' h) (hlen w w' h h')) fun i hi hi' => ?_
  have hbuf := (h.1 i _ (List.getElem?_eq_getElem hi)).1
  have hbuf' := (h'.1 i _ (List.getElem?_eq_getElem hi')).1
  exact hbuf.symm.trans hbuf'

/-- A tree stands for one command, if its words do. -/
theorem CmdRel.unique (hR : ∀ a b b', R a b → R a b' → b = b') {c' : Cmd W'} (h : CmdRel R t c)
    (h' : CmdRel R t c') : c = c' := by
  induction h generalizing c' with
  | exec h =>
    cases h' with
    | exec h' => rw [right_unique_forall₂' (fun a b b' => hR a b b') h h']
  | redir mode fd h hf ih =>
    cases h' with
    | redir _ _ h' hf' => rw [ih h', hR _ _ _ hf hf']
  | pipe h k ih ik =>
    cases h' with
    | pipe h' k' => rw [ih h', ik k']
  | list h k ih ik =>
    cases h' with
    | list h' k' => rw [ih h', ik k']
  | back h ih =>
    cases h' with
    | back h' => rw [ih h']

/-- The words of a tree may stand for other words. -/
theorem CmdRel.imp {R' : W → W' → Prop} (h : CmdRel R t c)
    (himp : ∀ a b, a ∈ words t → R a b → R' a b) : CmdRel R' t c := by
  induction h with
  | exec h =>
    refine .exec ?_
    unfold words at himp
    induction h with
    | nil => exact .nil
    | cons hab h ih =>
      exact .cons (himp _ _ mem_cons_self hab)
        (ih fun a b ha => himp a b (mem_cons_of_mem _ ha))
  | redir mode fd h hf ih =>
    refine .redir mode fd (ih fun a b ha => himp a b ?_) (himp _ _ ?_ hf)
    · exact mem_append_left _ ha
    · exact mem_append_right _ mem_cons_self
  | pipe h h' ih ih' =>
    exact .pipe (ih fun a b ha => himp a b (mem_append_left _ ha))
      (ih' fun a b ha => himp a b (mem_append_right _ ha))
  | list h h' ih ih' =>
    exact .list (ih fun a b ha => himp a b (mem_append_left _ ha))
      (ih' fun a b ha => himp a b (mem_append_right _ ha))
  | back h ih => exact .back (ih himp)

/-- Each word of one tree is related to some word. -/
theorem CmdRel.exists_rel (h : CmdRel R t c) {a : W} (ha : a ∈ words t) : ∃ b, R a b := by
  induction h with
  | exec h =>
    unfold words at ha
    induction h with
    | nil => cases ha
    | cons hab h ih =>
      rcases mem_cons.mp ha with rfl | ha
      exacts [⟨_, hab⟩, ih ha]
  | redir mode fd h hf ih =>
    rcases mem_append.mp ha with ha | ha
    · exact ih ha
    · obtain rfl := mem_singleton.mp ha
      exact ⟨_, hf⟩
  | pipe h h' ih ih' =>
    rcases mem_append.mp ha with ha | ha
    exacts [ih ha, ih' ha]
  | list h h' ih ih' =>
    rcases mem_append.mp ha with ha | ha
    exacts [ih ha, ih' ha]
  | back h ih => exact ih ha

theorem Spells.getElem? {w : Text} {sp : Span} (h : Spells s sp w) {i : Nat} {c : UInt8}
    (hc : w[i]? = some c) : s[sp.q + i]? = some c := by
  obtain ⟨rest, hrest⟩ := h.text
  have hi : i < w.length := (List.getElem?_eq_some_iff.mp hc).1
  rw [← List.getElem?_drop, hrest, List.getElem?_append_left hi, hc]

/-- After `nulterminate` the words can be read as C strings. -/
theorem cstrings (hs : 0 ∉ s) {t : Cmd Span} {c : Cmd Text} (h : CmdRel (Spells s) t c) :
    CmdRel (CString (nulterminate t (chars s))) t c := by
  refine h.imp fun sp w hsp hw => ⟨fun i d hd => ?_, ?_⟩
  · have hget := hw.getElem? hd
    refine ⟨?_, fun hzero => hs (hzero ▸ mem_of_getElem? hget)⟩
    rw [nulterminate_apply, if_neg]
    · simp [chars, List.getD, hget]
    -- a terminator stands where no word goes on
    · rintro ⟨sp', hsp', heq⟩
      obtain ⟨w', hw'⟩ := h.exists_rel hsp'
      have hend := hw'.ends d (by rw [heq, head?_drop, hget])
      rw [hw.wordChars d (mem_of_getElem? hd)] at hend
      cases hend
  · rw [nulterminate_apply, if_pos ⟨sp, hsp, hw.eq_eq⟩]

/-! ### The whole line -/

/-- Nothing but whitespace is left when no tokens are left. -/
theorem peek_end_iff {p : Nat} (h : At s p ts) :
    (peek (chars s) s.length [] p).2 = s.length ↔ ts = [] := by
  have hAt := h.skip
  have hhead : ∀ c, _ → strchr whitespace c = false := fun c => @head_skip _ s p c
  show skip (strchr whitespace) (chars s) (s.length - p) p = s.length ↔ ts = []
  generalize skip (strchr whitespace) (chars s) (s.length - p) p = p' at hhead hAt
  obtain ⟨hp, hlex⟩ := hAt
  have hnil : p' = s.length ↔ s.drop p' = [] := by
    rw [drop_eq_nil_iff]
    omega
  rw [hnil]
  generalize s.drop p' = v at hhead hlex
  cases hlex with
  | nil => simp
  | space hc h => exact absurd hc (by simp [hhead _ rfl])
  | symbol hsym hgt h => simp
  | append h => simp
  | gt hgt h => simp
  | word hne hw hmax h => simp [hne]

theorem parsecmd_of_ok {p : Nat} {t : Cmd Span}
    (h : parseline (pointers (chars s) s.length) fuel 0 = .ok (t, p)) :
    parsecmd fuel s = if (peek (chars s) s.length [] p).2 ≠ s.length then .error (.panic "syntax")
      else .ok (t, nulterminate t (chars s)) := by
  unfold chars at h
  simp only [parsecmd, h]
  rfl

theorem parsecmd_of_error {e : Stop}
    (h : parseline (pointers (chars s) s.length) fuel 0 = .error e) :
    parsecmd fuel s = .error e := by
  unfold chars at h
  simp only [parsecmd, h]

/-- How `parsecmd` ends, from how `parseline` ends on the tokens. -/
inductive ParsecmdEnd (s : Text) : Except Stop (Cmd Text × List Token) →
    Except Stop (Cmd Span × (Nat → UInt8)) → Prop
  | ok {t : Cmd Span} {c : Cmd Text} (h : CmdRel (CString (nulterminate t (chars s))) t c) :
    ParsecmdEnd s (.ok (c, [])) (.ok (t, nulterminate t (chars s)))
  | leftovers (c : Cmd Text) (t : Token) (ts : List Token) :
    ParsecmdEnd s (.ok (c, t :: ts)) (.error (.panic "syntax"))
  | error (e : Stop) : ParsecmdEnd s (.error e) (.error e)

/-- `parsecmd` ends as the parser of the tokens does. A command is null-terminated word by word. -/
theorem parsecmd_end (hs : 0 ∉ s) (hlex : Lex s ts) (fuel : Nat) :
    ParsecmdEnd s (parseline tokens fuel ts) (parsecmd fuel s) := by
  have hsim := parseline_sim hs fuel 0 ts ⟨Nat.zero_le _, hlex⟩
  generalize hu : parseline (pointers (chars s) s.length) fuel 0 = u at hsim
  generalize parseline tokens fuel ts = v at hsim
  cases hsim with
  | @ok t c p rest hR hI =>
    rw [parsecmd_of_ok hu]
    have hend := peek_end_iff hI
    cases rest with
    | nil =>
      rw [if_neg (not_not.mpr (hend.mpr rfl))]
      exact .ok (cstrings hs hR)
    | cons t' rest =>
      rw [if_pos fun hp => cons_ne_nil t' rest (hend.mp hp)]
      exact .leftovers c t' rest
  | error e =>
    rw [parsecmd_of_error hu]
    exact .error e

/-- With enough fuel, `parseline` takes all tokens of a line of the grammar. On any other list of
tokens it leaves some or panics. -/
theorem parseline_tokens (hfuel : Phrase.line.cost ts.length ≤ fuel) :
    (∀ c, Derives .line ts c → parseline tokens fuel ts = .ok (c, [])) ∧
    (∀ c, parseline tokens fuel ts = .ok (c, []) → Derives .line ts c) ∧
    ∀ e, parseline tokens fuel ts = .error e → e ≠ .fuel := by
  have hsound := (parse_sound fuel).1 .line ts.length hfuel ts (Nat.le_refl _)
  have herror : ∀ e, parseline tokens fuel ts = .error e → e ≠ .fuel := by
    intro e he
    have hne := wp_error hsound he
    exact hne
  refine ⟨fun c hc => ?_, fun c hc => ?_, herror⟩
  · have hacc : Accepts _ ts [] c := hc.accepts fuel (.inl rfl)
    rw [Accepts, append_nil] at hacc
    generalize hrun : parseline tokens fuel ts = v at herror
    cases v with
    | error e => exact absurd (wp_error hacc hrun) (herror e rfl)
    | ok r =>
      obtain ⟨c', rest⟩ := r
      obtain ⟨rfl, rfl⟩ := wp_ok hacc hrun
      rfl
  · obtain ⟨used, hts, hused⟩ := wp_ok hsound hc
    rw [append_nil] at hts
    exact hts ▸ hused

/-- **The shell parser accepts exactly its grammar.** With fuel for the length of the line:

* on a line of the grammar `parsecmd` returns the tree that the grammar gives it, with each word
  readable as a C string,
* what it returns is such a tree, and the grammar gives no other,
* on any other line it panics. -/
theorem shell_parser_accepts_grammar (s : Text) (hs : 0 ∉ s) (fuel : Nat)
    (hfuel : 4 * s.length + 4 ≤ fuel) :
    (∀ c, Parses s c → ∃ t buf, parsecmd fuel s = .ok (t, buf) ∧ CmdRel (CString buf) t c) ∧
      (∀ t buf, parsecmd fuel s = .ok (t, buf) →
        ∃ c, Parses s c ∧ CmdRel (CString buf) t c ∧ ∀ c', Parses s c' → c' = c) ∧
      ((∀ c, ¬ Parses s c) → ∃ msg, parsecmd fuel s = .error (.panic msg)) := by
  have hcost : ∀ ts, Lex s ts → Phrase.line.cost ts.length ≤ fuel := by
    intro ts hlex
    have := hlex.length_le
    simp only [Phrase.cost]
    omega
  have hreturns : ∀ c, Parses s c →
      ∃ t buf, parsecmd fuel s = .ok (t, buf) ∧ CmdRel (CString buf) t c := by
    rintro c ⟨ts, hlex, hc⟩
    have hend := parsecmd_end hs hlex fuel
    rw [(parseline_tokens (hcost ts hlex)).1 c hc] at hend
    generalize parsecmd fuel s = r at hend
    cases hend with
    | ok h => exact ⟨_, _, rfl, h⟩
  obtain ⟨ts, hlex⟩ := exists_lex s
  obtain ⟨-, hsound, herror⟩ := parseline_tokens (hcost ts hlex)
  have hend := parsecmd_end hs hlex fuel
  refine ⟨hreturns, fun t buf hok => ?_, fun hnot => ?_⟩
  · generalize hrun : parseline tokens fuel ts = v at hend
    rw [hok] at hend
    cases hend with
    | @ok _ c h =>
      refine ⟨c, ⟨ts, hlex, hsound c hrun⟩, h, fun c' hc' => ?_⟩
      obtain ⟨t', buf', hok', h'⟩ := hreturns c' hc'
      obtain ⟨rfl, rfl⟩ : t' = t ∧ buf' = _ := by simpa [hok'] using hok
      exact h'.unique (fun _ _ _ hw hw' => hw.unique hw') h
  · generalize hrun : parseline tokens fuel ts = v at hend
    generalize parsecmd fuel s = r at hend
    cases hend with
    | @ok t c h => exact absurd ⟨ts, hlex, hsound c hrun⟩ (hnot c)
    | leftovers c t rest => exact ⟨_, rfl⟩
    | error e =>
      cases e with
      | fuel => exact absurd rfl (herror _ hrun)
      | panic msg => exact ⟨msg, rfl⟩

/-- `a >b&` -/
def redirectedLine : Text := [code 'a', code ' ', code '>', code 'b', code '&']

/-- The line `a >b&`. -/
theorem shell_parser_accepts_grammar_redirected :
    0 ∉ redirectedLine ∧ 4 * redirectedLine.length + 4 ≤ 24 ∧
      ∃ t buf, parsecmd 24 redirectedLine = .ok (t, buf) ∧
        CmdRel (CString buf) t (.back (.redir (.exec [[code 'a']]) [code 'b']
          (Sh.O_WRONLY ||| Sh.O_CREATE ||| Sh.O_TRUNC) 1)) := by
  have hs : 0 ∉ redirectedLine := by decide
  have hlex : Lex redirectedLine [.word [code 'a'], .gt, .word [code 'b'], .amp] := by
    refine .word (w := [code 'a']) (by decide) (by simp; decide) (by simp; decide) ?_
    refine .space (by decide) (.gt (by decide) ?_)
    exact .word (w := [code 'b']) (by decide) (by simp; decide) (by simp; decide)
      (.symbol (c := '&') rfl (by decide) .nil)
  refine ⟨hs, by decide, (shell_parser_accepts_grammar redirectedLine hs 24 (by decide)).1 _
    ⟨_, hlex, ?_⟩⟩
  exact .line 1 (.pipe (.simple .nil (.cons (.cons rfl .nil) .nil) (by decide)))

end Xv6.Proofs
