import Xv6.Proofs.Sh.Grammar
import Xv6.Lib.Sim
import Mathlib.Data.List.Forall2
import Mathlib.Data.List.TakeWhile

/-!
# `Xv6.Proofs.Sh.Scan`: the pointer into the line and the list of tokens

The scanner of the source keeps a pointer into the line, the scanner of `Xv6.Proofs.Sh.Grammar` a
list of tokens. They go together as long as the characters from the pointer on lex to the tokens
(`At`): `peek` and `gettoken` then answer the same, and a word is returned as the place where its
text stands (`Spells`). The parsing functions only use the scanner, so they do the same on both
(`parseline_sim`), and return the same tree up to the representation of words (`CmdRel`).
-/

set_option autoImplicit false

namespace Xv6.Proofs

open Lib Sh List

variable {c : UInt8} {p : Nat} {s : Text} {t : Token} {toks : List Char} {ts : List Token}
  {α β : Type}

/-- The characters of the line, as the source reads them from memory. -/
def chars (s : Text) : Nat → UInt8 := fun i => s.getD i 0

/-! ### Characters at a position -/

theorem chars_of_drop_nil (h : s.drop p = []) : chars s p = 0 := by
  have hlen := drop_eq_nil_iff.mp h
  simp [chars, List.getD, getElem?_eq_none hlen]

theorem chars_of_drop_cons {v : Text} (h : s.drop p = c :: v) : chars s p = c := by
  have hget : s[p]? = some c := by
    have := congrArg (fun l : Text => l[0]?) h
    simpa using this
  simp [chars, List.getD, hget]

theorem drop_succ_of_cons {v : Text} (h : s.drop p = c :: v) : s.drop (p + 1) = v := by
  rw [← drop_drop, h]
  rfl

/-- The loops over characters stop behind the ones that pass the test. -/
theorem skip_eq (test : UInt8 → Bool) (s : Text) (p : Nat) :
    skip test (chars s) (s.length - p) p = p + ((s.drop p).takeWhile test).length := by
  generalize hn : s.length - p = n
  induction n generalizing p with
  | zero =>
    rw [drop_eq_nil_of_le (by omega)]
    rfl
  | succ n ih =>
    have hp : p < s.length := by omega
    have hdrop := drop_eq_getElem_cons hp
    unfold skip
    rw [chars_of_drop_cons hdrop, hdrop, takeWhile_cons]
    split
    · rw [ih (p + 1) (by omega), length_cons]
      omega
    · rfl

/-- What is left of the line after such a loop. -/
theorem drop_skip (test : UInt8 → Bool) (s : Text) (p : Nat) :
    s.drop (skip test (chars s) (s.length - p) p) = (s.drop p).dropWhile test := by
  rw [skip_eq, ← drop_drop]
  generalize s.drop p = u
  calc u.drop (u.takeWhile test).length
      = (u.takeWhile test ++ u.dropWhile test).drop (u.takeWhile test).length := by
        rw [takeWhile_append_dropWhile]
    _ = u.dropWhile test := drop_left

theorem skip_le {test : UInt8 → Bool} (hp : p ≤ s.length) :
    skip test (chars s) (s.length - p) p ≤ s.length := by
  rw [skip_eq]
  have := ( takeWhile_prefix (l := s.drop p) test).length_le
  rw [length_drop] at this
  omega

/-! ### Lexing -/

theorem symbol_mem {c : Char} (h : t.symbol = some c) : c ∈ symbols := by
  cases t <;> cases h <;> decide

theorem code_inj_symbols : ∀ c ∈ symbols, ∀ d ∈ symbols, code c = code d → c = d := by
  simp [symbols]
  decide

theorem whitespace_ne_symbol : ∀ c ∈ symbols, strchr whitespace (code c) = false := by
  simp [symbols]
  decide

theorem strchr_code (htoks : toks ⊆ symbols) {c : Char} (hc : c ∈ symbols) :
    strchr toks (code c) = decide (c ∈ toks) := by
  unfold strchr
  rw [Bool.eq_iff_iff, any_eq_true, decide_eq_true_iff]
  constructor
  · rintro ⟨d, hd, hcode⟩
    have := code_inj_symbols d (htoks hd) c hc (of_decide_eq_true hcode)
    exact this ▸ hd
  · exact fun hmem => ⟨c, hmem, by simp⟩

/-- Whitespace in front makes no difference. -/
theorem Lex.of_space (h : Lex (c :: s) ts) (hc : strchr whitespace c = true) : Lex s ts := by
  generalize hu : c :: s = u at h
  cases h with
  | nil => cases hu
  | space hc' h =>
    cases hu
    exact h
  | symbol hsym hgt h =>
    cases hu
    rw [whitespace_ne_symbol _ (symbol_mem hsym)] at hc
    cases hc
  | append h =>
    cases hu
    exact absurd hc (by decide)
  | gt hgt h =>
    cases hu
    exact absurd hc (by decide)
  | @word w s' ts hne hw hmax h =>
    cases w with
    | nil => exact absurd rfl hne
    | cons d w =>
      cases hu
      have hd := hw c mem_cons_self
      simp [wordChar, hc] at hd

theorem Lex.dropWhile_space (h : Lex s ts) : Lex (s.dropWhile (strchr whitespace)) ts := by
  induction s with
  | nil => exact h
  | cons c s ih =>
    rw [dropWhile_cons]
    split
    · rename_i hc
      exact ih (h.of_space hc)
    · exact h

theorem exists_token : ∀ c ∈ symbols, ∃ t : Token, t.symbol = some c := by
  intro c hc
  simp only [symbols, mem_cons, not_mem_nil, or_false] at hc
  rcases hc with rfl | rfl | rfl | rfl | rfl | rfl | rfl
  exacts [⟨.lt, rfl⟩, ⟨.bar, rfl⟩, ⟨.gt, rfl⟩, ⟨.amp, rfl⟩, ⟨.semi, rfl⟩, ⟨.lpar, rfl⟩,
    ⟨.rpar, rfl⟩]

/-- Every line can be cut into tokens. -/
theorem exists_lex (s : Text) : ∃ ts, Lex s ts := by
  induction hn : s.length using Nat.strong_induction_on generalizing s with
  | _ n ih =>
    cases s with
    | nil => exact ⟨[], .nil⟩
    | cons c s =>
      have hlex : ∀ s' : Text, s'.length ≤ s.length → ∃ ts, Lex s' ts := fun s' hs' =>
        ih s'.length (by rw [← hn, length_cons]; omega) s' rfl
      by_cases hspace : strchr whitespace c = true
      · obtain ⟨ts, hts⟩ := hlex s le_rfl
        exact ⟨ts, .space hspace hts⟩
      by_cases hsym : strchr symbols c = true
      · obtain ⟨d, hd, hcode⟩ := any_eq_true.mp hsym
        obtain rfl := of_decide_eq_true hcode
        by_cases hgt : d = '>'
        · subst hgt
          by_cases happend : s.head? = some (code '>')
          · obtain ⟨s', rfl⟩ := head?_eq_some_iff.mp happend
            obtain ⟨ts, hts⟩ := hlex s' (by simp)
            exact ⟨_, .append hts⟩
          · obtain ⟨ts, hts⟩ := hlex s le_rfl
            exact ⟨_, .gt happend hts⟩
        · obtain ⟨t, ht⟩ := exists_token d hd
          obtain ⟨ts, hts⟩ := hlex s le_rfl
          exact ⟨_, .symbol ht hgt hts⟩
      -- a word
      have hc : wordChar c = true := by simp [wordChar, hspace, hsym]
      obtain ⟨ts, hts⟩ := hlex (s.dropWhile wordChar) (dropWhile_suffix _).length_le
      have hword : Lex (c :: s.takeWhile wordChar ++ s.dropWhile wordChar)
          (.word (c :: s.takeWhile wordChar) :: ts) := by
        refine .word (cons_ne_nil _ _) ?_ ?_ hts
        · intro d hd
          rcases mem_cons.mp hd with rfl | hd
          · exact hc
          · exact mem_takeWhile_imp hd
        · intro d hd
          have := head?_dropWhile_not wordChar s
          rw [hd] at this
          simpa using this
      rw [cons_append, takeWhile_append_dropWhile] at hword
      exact ⟨_, hword⟩

/-- A line has no more tokens than characters. -/
theorem Lex.length_le (h : Lex s ts) : ts.length ≤ s.length := by
  induction h with
  | nil => exact Nat.le_refl _
  | space hc h ih => exact Nat.le_succ_of_le ih
  | symbol hc hgt h ih => exact Nat.succ_le_succ ih
  | append h ih => exact Nat.le_succ_of_le (Nat.succ_le_succ ih)
  | gt hgt h ih => exact Nat.succ_le_succ ih
  | word hne hw hmax h ih =>
    have := length_pos_iff.mpr hne
    simp only [length_cons, length_append]
    omega

/-! ### The two scanners -/

/-- The pointer `p` stands before the tokens `ts`. -/
def At (s : Text) (p : Nat) (ts : List Token) : Prop := p ≤ s.length ∧ Lex (s.drop p) ts

/-- The word `w` stands at the place `sp` of the line, and no longer word does. -/
structure Spells (s : Text) (sp : Span) (w : Text) : Prop where
  eq_eq : sp.eq = sp.q + w.length
  text : ∃ rest, s.drop sp.q = w ++ rest
  wordChars : ∀ c ∈ w, wordChar c = true
  ends : ∀ c, (s.drop sp.eq).head? = some c → wordChar c = false

theorem At.skip (h : At s p ts) :
    At s (Sh.skip (strchr whitespace) (chars s) (s.length - p) p) ts := by
  refine ⟨skip_le h.1, ?_⟩
  rw [drop_skip]
  exact h.2.dropWhile_space

theorem head_skip (test : UInt8 → Bool) (s : Text) (p : Nat) {c : UInt8}
    (h : (s.drop (skip test (chars s) (s.length - p) p)).head? = some c) : test c = false := by
  rw [drop_skip] at h
  have := head?_dropWhile_not test (s.drop p)
  rw [h] at this
  simpa using this

/-- A character of a word is none of the symbols. -/
theorem strchr_of_wordChar (htoks : toks ⊆ symbols) {d : UInt8} (hd : wordChar d = true) :
    strchr toks d = false := by
  have hsym : strchr symbols d = false := by simp [wordChar] at hd; exact hd.2
  rw [Bool.eq_false_iff]
  intro hmem
  obtain ⟨c, hc, hcode⟩ := any_eq_true.mp hmem
  have : strchr symbols d = true := any_eq_true.mpr ⟨c, htoks hc, hcode⟩
  rw [hsym] at this
  cases this

theorem type_of_symbol {c : Char} (h : t.symbol = some c) (hgt : c ≠ '>') : t.type = code c := by
  cases t <;> cases h <;> first | rfl | exact absurd rfl hgt

/-- What `peek` answers where a symbol stands. -/
theorem peek_symbol (htoks : toks ⊆ symbols) {c : Char} (hsym : t.symbol = some c)
    (ts : List Token) : (decide (code c ≠ 0) && strchr toks (code c)) = nextIs toks (t :: ts) := by
  have hc := symbol_mem hsym
  have hzero : ∀ c ∈ symbols, code c ≠ 0 := by
    simp [symbols]
    decide
  rw [strchr_code htoks hc, decide_eq_true (hzero c hc)]
  simp [nextIs, hsym]

/-- `peek` in the line is `peek` in the tokens. -/
theorem peek_sim (s : Text) (htoks : toks ⊆ symbols) :
    Sim (At s) Eq ((pointers (chars s) s.length).peek toks) (tokens.peek toks) := by
  intro p ts hAt
  refine .ok ?_ hAt.skip
  show (decide (chars s _ ≠ 0) && strchr toks (chars s _)) = nextIs toks ts
  have hhead := @head_skip (strchr whitespace) s p
  have hlex := hAt.skip.2
  generalize skip (strchr whitespace) (chars s) (s.length - p) p = p' at hhead hlex
  generalize hv : s.drop p' = v at hhead hlex
  cases hlex with
  | nil =>
    rw [chars_of_drop_nil hv]
    rfl
  | space hc h => exact absurd hc (by simp [hhead rfl])
  | symbol hsym hgt h =>
    rw [chars_of_drop_cons hv]
    exact peek_symbol htoks hsym _
  | append h =>
    rw [chars_of_drop_cons hv]
    exact peek_symbol htoks rfl _
  | gt hgt h =>
    rw [chars_of_drop_cons hv]
    exact peek_symbol htoks rfl _
  | @word w v ts hne hw hmax h =>
    cases w with
    | nil => exact absurd rfl hne
    | cons d w =>
      rw [chars_of_drop_cons hv, strchr_of_wordChar htoks (hw d mem_cons_self), Bool.and_false]
      rfl

/-- The token at a pointer that does not stand before whitespace. -/
theorem tokenAt_spec (hs : 0 ∉ s) (hAt : At s p (t :: ts))
    (hhead : ∀ c, (s.drop p).head? = some c → strchr whitespace c = false) :
    (tokenAt (chars s) s.length p).1 = t.type ∧ At s (tokenAt (chars s) s.length p).2 ts ∧
      ∀ w, t = .word w → Spells s ⟨p, (tokenAt (chars s) s.length p).2⟩ w := by
  obtain ⟨hp, hlex⟩ := hAt
  have hmem : ∀ c v, s.drop p = c :: v → c ≠ 0 := by
    rintro c v hv rfl
    exact hs (mem_of_mem_drop (hv ▸ mem_cons_self))
  have hlen : ∀ u v, s.drop p = u ++ v → p + u.length ≤ s.length := by
    intro u v hv
    have := congrArg List.length hv
    rw [length_drop, length_append] at this
    omega
  have hsub : ['|', '(', ')', ';', '&', '<'] ⊆ symbols := by decide
  generalize hv : s.drop p = v at hhead hlex
  cases hlex with
  | space hc h => exact absurd hc (by simp [hhead _ rfl])
  | @symbol _ c v _ hsym hgt h =>
    have hc : ∀ c ∈ symbols, c ≠ '>' → c ∈ ['|', '(', ')', ';', '&', '<'] := by simp [symbols]
    have htok : tokenAt (chars s) s.length p = (code c, p + 1) := by
      unfold tokenAt
      rw [chars_of_drop_cons hv, if_neg (hmem _ _ hv), if_pos]
      rw [strchr_code hsub (symbol_mem hsym), decide_eq_true (hc c (symbol_mem hsym) hgt)]
    rw [htok, type_of_symbol hsym hgt]
    refine ⟨rfl, ⟨hlen [code c] v hv, ?_⟩, ?_⟩
    · rw [drop_succ_of_cons hv]
      exact h
    · rintro w rfl
      cases hsym
  | @append v _ h =>
    have hv' := drop_succ_of_cons hv
    have htok : tokenAt (chars s) s.length p = (code '+', p + 2) := by
      unfold tokenAt
      rw [chars_of_drop_cons hv, if_neg (by decide), if_neg (by decide), if_pos rfl,
        chars_of_drop_cons hv', if_pos rfl]
    rw [htok]
    refine ⟨rfl, ⟨hlen [code '>', code '>'] v hv, ?_⟩, fun w hw => by cases hw⟩
    rw [drop_succ_of_cons hv']
    exact h
  | @gt v _ hgt h =>
    have hv' := drop_succ_of_cons hv
    have hne : chars s (p + 1) ≠ code '>' := by
      cases v with
      | nil =>
        rw [chars_of_drop_nil hv']
        decide
      | cons c v =>
        rw [chars_of_drop_cons hv']
        simpa using hgt
    have htok : tokenAt (chars s) s.length p = (code '>', p + 1) := by
      unfold tokenAt
      rw [chars_of_drop_cons hv, if_neg (by decide), if_neg (by decide), if_pos rfl, if_neg hne]
    rw [htok]
    refine ⟨rfl, ⟨hlen [code '>'] v hv, ?_⟩, fun w hw => by cases hw⟩
    rw [hv']
    exact h
  | @word w v _ hne hw hmax h =>
    have htake : (w ++ v).takeWhile wordChar = w := by
      rw [takeWhile_append_of_pos hw]
      cases v with
      | nil => simp
      | cons c v => simp [hmax c rfl]
    have hdrop : s.drop (p + w.length) = v := by
      rw [← drop_drop, hv, drop_left]
    have htok : tokenAt (chars s) s.length p = (code 'a', p + w.length) := by
      cases w with
      | nil => exact absurd rfl hne
      | cons d w =>
        have hd := hw d mem_cons_self
        have hgt : d ≠ code '>' := by
          rintro rfl
          exact absurd hd (by decide)
        unfold tokenAt
        rw [skip_eq, hv, htake, chars_of_drop_cons hv, if_neg (hmem _ _ hv),
          if_neg (by rw [strchr_of_wordChar hsub hd]; decide), if_neg hgt]
    rw [htok]
    refine ⟨rfl, ⟨hlen w v hv, ?_⟩, ?_⟩
    · rw [hdrop]
      exact h
    · rintro _ ⟨⟩
      refine ⟨rfl, ⟨v, hv⟩, hw, fun c hc => hmax c ?_⟩
      rwa [hdrop] at hc

/-- Two tokens of the same type; the one at a place, the other by its text. -/
def TokenRel {W W' : Type} (R : W → W' → Prop) (a : UInt8 × W) (b : UInt8 × W') : Prop :=
  a.1 = b.1 ∧ (a.1 = code 'a' → R a.2 b.2)

/-- `gettoken` in the line takes the token that comes next. -/
theorem gettoken_sim (hs : 0 ∉ s) :
    Sim (At s) (TokenRel (Spells s)) (pointers (chars s) s.length).gettoken tokens.gettoken := by
  intro p ts hAt
  have hhead : ∀ c, _ → strchr whitespace c = false := fun c => @head_skip _ s p c
  have hAt' := hAt.skip
  show SimResult _ _ (Except.ok (gettoken _ _ p)) _
  unfold gettoken
  generalize skip (strchr whitespace) (chars s) (s.length - p) p = p' at hhead hAt'
  cases ts with
  | nil =>
    have hnil : s.drop p' = [] := by
      generalize hv : s.drop p' = v at hhead
      have hlex := hAt'.2
      rw [hv] at hlex
      cases hlex with
      | nil => rfl
      | space hc h => exact absurd hc (by simp [hhead _ rfl])
    have htok : tokenAt (chars s) s.length p' = (0, p') := by
      unfold tokenAt
      rw [chars_of_drop_nil hnil, if_pos rfl]
    have hend : (0 : UInt8) ≠ code 'a' := by decide
    simp only [htok]
    exact .ok ⟨rfl, fun h => absurd h hend⟩ hAt'.skip
  | cons t ts =>
    obtain ⟨htype, hAt'', hspells⟩ := tokenAt_spec hs hAt' hhead
    refine .ok ⟨htype, fun hword => ?_⟩ hAt''.skip
    obtain ⟨w, rfl⟩ := (type_eq_word_iff t).mp (htype.symm.trans hword)
    exact hspells w rfl

/-! ### Parsing with two scanners -/

section Parametric

variable {σ τ W W' : Type} {R : W → W' → Prop}

/-- The same tree, with words related by `R`. -/
inductive CmdRel (R : W → W' → Prop) : Cmd W → Cmd W' → Prop
  | exec {ws : List W} {ws' : List W'} (h : List.Forall₂ R ws ws') :
    CmdRel R (.exec ws) (.exec ws')
  | redir {c : Cmd W} {c' : Cmd W'} {f : W} {f' : W'} (mode fd : Nat) (h : CmdRel R c c')
      (hf : R f f') : CmdRel R (.redir c f mode fd) (.redir c' f' mode fd)
  | pipe {c d : Cmd W} {c' d' : Cmd W'} (h : CmdRel R c c') (h' : CmdRel R d d') :
    CmdRel R (.pipe c d) (.pipe c' d')
  | list {c d : Cmd W} {c' d' : Cmd W'} (h : CmdRel R c c') (h' : CmdRel R d d') :
    CmdRel R (.list c d) (.list c' d')
  | back {c : Cmd W} {c' : Cmd W'} (h : CmdRel R c c') : CmdRel R (.back c) (.back c')

def RedirRel (R : W → W' → Prop) (r : Redir W) (r' : Redir W') : Prop :=
  R r.file r'.file ∧ r.mode = r'.mode ∧ r.fd = r'.fd

/-- Redirections are put around a command in the same order. -/
theorem redircmds_rel {c : Cmd W} {c' : Cmd W'} {rs : List (Redir W)} {rs' : List (Redir W')}
    (hc : CmdRel R c c') (hrs : List.Forall₂ (RedirRel R) rs rs') :
    CmdRel R (redircmds c rs) (redircmds c' rs') := by
  induction hrs generalizing c c' with
  | nil => exact hc
  | @cons r r' rs rs' hr hrs ih =>
    obtain ⟨hfile, hmode, hfd⟩ := hr
    have hredir : CmdRel R (.redir c r.file r.mode r.fd) (.redir c' r'.file r'.mode r'.fd) := by
      rw [hmode, hfd]
      exact .redir _ _ hc hfile
    exact ih hredir

theorem redirOf_rel (tok : UInt8) {f : W} {f' : W'} (hf : R f f') :
    List.Forall₂ (RedirRel R) (redirOf tok f) (redirOf tok f') := by
  unfold redirOf
  split_ifs
  exacts [.cons ⟨hf, rfl, rfl⟩ .nil, .cons ⟨hf, rfl, rfl⟩ .nil, .cons ⟨hf, rfl, rfl⟩ .nil, .nil]

/-- Two scanners that answer alike, with words related by `R`. -/
structure Alike (I : σ → τ → Prop) (R : W → W' → Prop) (sc : Scanner σ W) (sc' : Scanner τ W') :
    Prop where
  peek : ∀ toks, toks ⊆ symbols → Sim I Eq (sc.peek toks) (sc'.peek toks)
  gettoken : Sim I (TokenRel R) sc.gettoken sc'.gettoken

variable {I : σ → τ → Prop} {sc : Scanner σ W} {sc' : Scanner τ W'}

theorem outOfFuel_sim (Q : α → β → Prop) : Sim I Q outOfFuel outOfFuel :=
  fun _ _ _ => .error _

theorem panic_sim (Q : α → β → Prop) (msg : String) : Sim I Q (Sh.panic msg) (Sh.panic msg) :=
  fun _ _ _ => .error _

/-- A branch on what `peek` answers. -/
theorem Alike.branch (h : Alike I R sc sc') (htoks : toks ⊆ symbols) {Q : α → β → Prop}
    {x x' : StateT σ (Except Stop) α} {y y' : StateT τ (Except Stop) β} (hx : Sim I Q x y)
    (hx' : Sim I Q x' y') :
    Sim I Q (sc.peek toks >>= fun b => if b = true then x else x')
      (sc'.peek toks >>= fun b => if b = true then y else y') := by
  refine (h.peek toks htoks).bind fun a b hab => ?_
  subst hab
  exact .ite Iff.rfl (fun _ => hx) fun _ => hx'

/-- `parseredirs` does the same with both scanners. -/
theorem parseredirs_sim (h : Alike I R sc sc') (fuel : Nat) :
    Sim I (List.Forall₂ (RedirRel R)) (parseredirs sc fuel) (parseredirs sc' fuel) := by
  induction fuel with
  | zero => exact outOfFuel_sim _
  | succ fuel ih =>
    unfold parseredirs
    refine h.branch (by decide) ?_ (.pure .nil)
    refine h.gettoken.bind fun tok tok' htok => h.gettoken.bind fun file file' hfile => ?_
    refine .ite (by rw [hfile.1]) (fun _ => panic_sim _ _) fun hne => ?_
    refine ih.bind fun rs rs' hrs => .pure ?_
    rw [htok.1]
    exact rel_append (redirOf_rel _ (hfile.2 (not_not.mp hne))) hrs

def SimpleRel (R : W → W' → Prop) (c : Simple W) (c' : Simple W') : Prop :=
  List.Forall₂ R c.argv c'.argv ∧ List.Forall₂ (RedirRel R) c.redirs c'.redirs

/-- The loop of `parseexec` does the same with both scanners. -/
theorem parseargs_sim (h : Alike I R sc sc') (fuel : Nat) {c : Simple W} {c' : Simple W'}
    (hc : SimpleRel R c c') :
    Sim I (SimpleRel R) (parseargs sc fuel c) (parseargs sc' fuel c') := by
  induction fuel generalizing c c' with
  | zero => exact outOfFuel_sim _
  | succ fuel ih =>
    unfold parseargs
    refine h.branch (by decide) (.pure hc) ?_
    refine h.gettoken.bind fun tok tok' htok => ?_
    refine .ite (by rw [htok.1]) (fun _ => .pure hc) fun _ => ?_
    refine .ite (by rw [htok.1]) (fun _ => panic_sim _ _) fun hne => ?_
    have hargv : List.Forall₂ R (c.argv ++ [tok.2]) (c'.argv ++ [tok'.2]) :=
      rel_append hc.1 (.cons (htok.2 (not_not.mp hne)) .nil)
    refine .ite (by rw [hargv.length_eq]) (fun _ => panic_sim _ _) fun _ => ?_
    exact (parseredirs_sim h fuel).bind fun rs rs' hrs => ih ⟨hargv, rel_append hc.2 hrs⟩

theorem parsebacks_sim (h : Alike I R sc sc') (fuel : Nat) {c : Cmd W} {c' : Cmd W'}
    (hc : CmdRel R c c') : Sim I (CmdRel R) (parsebacks sc fuel c) (parsebacks sc' fuel c') := by
  induction fuel generalizing c c' with
  | zero => exact outOfFuel_sim _
  | succ fuel ih =>
    unfold parsebacks
    exact h.branch (by decide) (h.gettoken.bind fun _ _ _ => ih (.back hc)) (.pure hc)

/-- The parsing functions do the same with scanners that answer alike. -/
theorem parse_sim (h : Alike I R sc sc') (fuel : Nat) :
    Sim I (CmdRel R) (parseline sc fuel) (parseline sc' fuel) ∧
    Sim I (CmdRel R) (parsepipe sc fuel) (parsepipe sc' fuel) ∧
    Sim I (CmdRel R) (parseexec sc fuel) (parseexec sc' fuel) ∧
    Sim I (CmdRel R) (parseblock sc fuel) (parseblock sc' fuel) := by
  induction fuel with
  | zero => exact ⟨outOfFuel_sim _, outOfFuel_sim _, outOfFuel_sim _, outOfFuel_sim _⟩
  | succ fuel ih =>
    obtain ⟨hline, hpipe, hexec, hblock⟩ := ih
    refine ⟨?_, ?_, ?_, ?_⟩
    · unfold parseline
      refine hpipe.bind fun c c' hc => (parsebacks_sim h fuel hc).bind fun d d' hd => ?_
      refine h.branch (by decide) ?_ (.pure hd)
      exact h.gettoken.bind fun _ _ _ => hline.bind fun e e' he => .pure (.list hd he)
    · unfold parsepipe
      refine hexec.bind fun c c' hc => h.branch (by decide) ?_ (.pure hc)
      exact h.gettoken.bind fun _ _ _ => hpipe.bind fun d d' hd => .pure (.pipe hc hd)
    · unfold parseexec
      refine h.branch (by decide) hblock ?_
      refine (parseredirs_sim h fuel).bind fun rs rs' hrs => ?_
      refine (parseargs_sim h fuel ⟨.nil, hrs⟩).bind fun c c' hc => .pure ?_
      exact redircmds_rel (.exec hc.1) hc.2
    · unfold parseblock
      refine h.branch (by decide) ?_ (panic_sim _ _)
      refine h.gettoken.bind fun _ _ _ => hline.bind fun c c' hc => ?_
      refine h.branch (by decide) ?_ (panic_sim _ _)
      refine h.gettoken.bind fun _ _ _ => (parseredirs_sim h fuel).bind fun rs rs' hrs => .pure ?_
      exact redircmds_rel hc hrs

end Parametric

/-- `parseline` on the characters of a line and on its tokens. -/
theorem parseline_sim (hs : 0 ∉ s) (fuel : Nat) :
    Sim (At s) (CmdRel (Spells s)) (parseline (pointers (chars s) s.length) fuel)
      (parseline tokens fuel) :=
  (parse_sim ⟨fun _ htoks => peek_sim s htoks, gettoken_sim hs⟩ fuel).1

end Xv6.Proofs
