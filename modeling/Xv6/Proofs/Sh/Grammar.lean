import Xv6.User.Sh
import Xv6.Lib.Wp

/-!
# `Xv6.Proofs.Sh.Grammar`: the grammar of command lines

`Lex` cuts a line into tokens, and `Derives` is the grammar

    line  ::=  pipe '&'* [';' line]
    pipe  ::=  exec ['|' pipe]
    exec  ::=  '(' line ')' redir*  |  redir* (word redir*)*
    redir ::=  ('<' | '>' | '>>') word

with the tree that it gives to a list of tokens.

The parsing functions of the shell run on a list of tokens as well (`tokens`), and here they are
compared with the grammar. With fuel for the number of tokens they return a phrase with its tree or
panic (`parse_sound`). On a phrase of the grammar, followed by something that ends it, they return
its tree (`Derives.accepts`).
-/

set_option autoImplicit false

namespace Xv6.Proofs

open Lib Sh List

variable {c : Char} {fuel n : Nat} {toks : List Char} {α : Type}

/-! ### Tokens -/

abbrev Text := List UInt8

inductive Token where
  | word (w : Text)
  | lt
  | gt
  | append
  | bar
  | amp
  | semi
  | lpar
  | rpar
  deriving DecidableEq

variable {rest used : List Token} {t : Token}

/-- The character that a token begins with, if it is a symbol. -/
def Token.symbol : Token → Option Char
  | .word _ => none
  | .lt => some '<'
  | .gt | .append => some '>'
  | .bar => some '|'
  | .amp => some '&'
  | .semi => some ';'
  | .lpar => some '('
  | .rpar => some ')'

/-- What `gettoken` returns for a token. -/
def Token.type : Token → UInt8
  | .word _ => code 'a'
  | .lt => code '<'
  | .gt => code '>'
  | .append => code '+'
  | .bar => code '|'
  | .amp => code '&'
  | .semi => code ';'
  | .lpar => code '('
  | .rpar => code ')'

def Token.text : Token → Text
  | .word w => w
  | _ => []

/-- The tokens of a line, with any whitespace between them. Words are as long as possible, and so
is `>>`. -/
inductive Lex : Text → List Token → Prop
  | nil : Lex [] []
  | space {c : UInt8} {s : Text} {ts : List Token} (hc : strchr whitespace c = true)
      (h : Lex s ts) : Lex (c :: s) ts
  | symbol {t : Token} {c : Char} {s : Text} {ts : List Token} (hc : t.symbol = some c)
      (hgt : c ≠ '>') (h : Lex s ts) : Lex (code c :: s) (t :: ts)
  | append {s : Text} {ts : List Token} (h : Lex s ts) :
    Lex (code '>' :: code '>' :: s) (.append :: ts)
  | gt {s : Text} {ts : List Token} (hgt : s.head? ≠ some (code '>')) (h : Lex s ts) :
    Lex (code '>' :: s) (.gt :: ts)
  | word {w s : Text} {ts : List Token} (hne : w ≠ []) (hw : ∀ c ∈ w, wordChar c = true)
      (hmax : ∀ c, s.head? = some c → wordChar c = false) (h : Lex s ts) :
    Lex (w ++ s) (.word w :: ts)

/-! ### Phrases -/

/-- The mode and the descriptor of a redirection. -/
def redirection : Token → Option (Nat × Nat)
  | .lt => some (Sh.O_RDONLY, 0)
  | .gt => some (Sh.O_WRONLY ||| Sh.O_CREATE ||| Sh.O_TRUNC, 1)
  | .append => some (Sh.O_WRONLY ||| Sh.O_CREATE, 1)
  | _ => none

/-- `redir*` -/
inductive IsRedirs : List Token → List (Redir Text) → Prop
  | nil : IsRedirs [] []
  | cons {t : Token} {mode fd : Nat} {f : Text} {ts : List Token} {rs : List (Redir Text)}
      (ht : redirection t = some (mode, fd)) (h : IsRedirs ts rs) :
    IsRedirs (t :: .word f :: ts) (⟨f, mode, fd⟩ :: rs)

/-- `(word redir*)*` -/
inductive IsArgs : List Token → List Text → List (Redir Text) → Prop
  | nil : IsArgs [] [] []
  | cons {w : Text} {ts ts' : List Token} {ws : List Text} {rs rs' : List (Redir Text)}
      (hr : IsRedirs ts rs) (h : IsArgs ts' ws rs') :
    IsArgs (.word w :: (ts ++ ts')) (w :: ws) (rs ++ rs')

/-- Each `&` wraps the command once. -/
def backs : Nat → Cmd Text → Cmd Text
  | 0, c => c
  | n + 1, c => backs n (.back c)

/-- The nonterminals that stand for commands. -/
inductive Phrase where
  | line
  | pipe
  | exec

/-- The grammar, with the tree of each phrase. -/
inductive Derives : Phrase → List Token → Cmd Text → Prop
  | line {ts : List Token} {c : Cmd Text} (n : Nat) (h : Derives .pipe ts c) :
    Derives .line (ts ++ List.replicate n .amp) (backs n c)
  | semi {ts ts' : List Token} {c c' : Cmd Text} (n : Nat) (h : Derives .pipe ts c)
      (h' : Derives .line ts' c') :
    Derives .line (ts ++ (List.replicate n .amp ++ .semi :: ts')) (.list (backs n c) c')
  | pipe {ts : List Token} {c : Cmd Text} (h : Derives .exec ts c) : Derives .pipe ts c
  | bar {ts ts' : List Token} {c c' : Cmd Text} (h : Derives .exec ts c)
      (h' : Derives .pipe ts' c') : Derives .pipe (ts ++ .bar :: ts') (.pipe c c')
  | block {ts ts' : List Token} {c : Cmd Text} {rs : List (Redir Text)} (h : Derives .line ts c)
      (hr : IsRedirs ts' rs) : Derives .exec (.lpar :: (ts ++ .rpar :: ts')) (redircmds c rs)
  | simple {ts ts' : List Token} {ws : List Text} {rs rs' : List (Redir Text)}
      (hr : IsRedirs ts rs) (h : IsArgs ts' ws rs') (hmax : ws.length ≤ MAXARGS - 1) :
    Derives .exec (ts ++ ts') (redircmds (.exec ws) (rs ++ rs'))

/-- The grammar gives the tree `c` to the line `s`. -/
def Parses (s : Text) (c : Cmd Text) : Prop := ∃ ts, Lex s ts ∧ Derives .line ts c

/-! ### Parsing tokens -/

/-- The next token begins with one of these symbols. -/
def nextIs (toks : List Char) : List Token → Bool
  | [] => false
  | t :: _ => t.symbol.any (· ∈ toks)

/-- The scanner that works on tokens. -/
def tokens : Scanner (List Token) Text where
  peek toks := fun ts => .ok (nextIs toks ts, ts)
  gettoken := fun ts => .ok <|
    match ts with
    | [] => ((0, []), [])
    | t :: ts => ((t.type, t.text), ts)

section Wp

variable {E : Stop → Prop} {ts : List Token}

@[simp] theorem wp_tokens_peek (toks : List Char) (Q : Bool → List Token → Prop) :
    wp (tokens.peek toks) Q E ts ↔ Q (nextIs toks ts) ts := Iff.rfl

@[simp] theorem wp_tokens_gettoken_cons (t : Token) (Q : UInt8 × Text → List Token → Prop) :
    wp tokens.gettoken Q E (t :: ts) ↔ Q (t.type, t.text) ts := Iff.rfl

end Wp

theorem type_eq_word_iff (t : Token) : t.type = code 'a' ↔ ∃ w, t = .word w := by
  cases t <;> simp [Token.type] <;> decide

theorem type_ne_zero (t : Token) : t.type ≠ 0 := by
  cases t <;> simp [Token.type] <;> decide

/-- After a successful `peek` there is a token to take, with one of the symbols. -/
theorem nextIs_cons {ts : List Token} (hnext : nextIs toks ts = true) :
    ∃ t ts' c, ts = t :: ts' ∧ t.symbol = some c ∧ c ∈ toks := by
  cases ts with
  | nil => cases hnext
  | cons t ts =>
    obtain ⟨c, hc, hmem⟩ := (Option.any_eq_true _ _).mp hnext
    exact ⟨t, ts, c, rfl, hc, of_decide_eq_true hmem⟩

/-- Only `>` and `>>` begin with the same symbol. -/
theorem symbol_inj {t' : Token} (ht : t.symbol = some c) (ht' : t'.symbol = some c) (hc : c ≠ '>') :
    t = t' := by
  cases t <;> cases ht <;> cases t' <;> cases ht' <;> first | rfl | exact absurd rfl hc

theorem nextIs_single {ts : List Token} (ht : t.symbol = some c) (hc : c ≠ '>')
    (hnext : nextIs [c] ts = true) : ∃ ts', ts = t :: ts' := by
  obtain ⟨t', ts', d, rfl, hd, hmem⟩ := nextIs_cons hnext
  obtain rfl := mem_singleton.mp hmem
  exact ⟨ts', by rw [symbol_inj hd ht hc]⟩

theorem redirection_of_symbol (hc : t.symbol = some c) (hmem : c ∈ ['<', '>']) :
    ∃ mode fd, redirection t = some (mode, fd) := by
  cases t with
  | lt | gt | append => exact ⟨_, _, rfl⟩
  | word w => cases hc
  | bar | amp | semi | lpar | rpar =>
    cases hc
    exact absurd hmem (by decide)

theorem redirOf_type {mode fd : Nat} (ht : redirection t = some (mode, fd)) (f : Text) :
    redirOf t.type f = [⟨f, mode, fd⟩] := by
  cases t with
  | lt | gt | append =>
    cases ht
    rfl
  | word w => cases ht
  | bar | amp | semi | lpar | rpar => cases ht

/-! ### What the parser returns -/

/-- `Q`, with what was taken off the front of `ts`. -/
def TookOff {α : Type} (ts : List Token) (Q : List Token → α → Prop) (a : α) (rest : List Token) :
    Prop :=
  ∃ used, ts = used ++ rest ∧ Q used a

/-- From any tokens not longer than `n`, `x` returns `Q` of what it took, or panics. -/
def Sound {α : Type} (x : StateT (List Token) (Except Stop) α) (n : Nat)
    (Q : List Token → α → Prop) : Prop :=
  ∀ ts, ts.length ≤ n → wp x (TookOff ts Q) (· ≠ .fuel) ts

/-- `parseredirs` returns redirections that spell what it has read. -/
theorem parseredirs_sound (fuel : Nat) : Sound (parseredirs tokens (fuel + 1)) fuel IsRedirs := by
  induction fuel with
  | zero =>
    intro ts hlen
    obtain rfl := eq_nil_of_length_eq_zero (Nat.le_zero.mp hlen)
    exact ⟨[], rfl, .nil⟩
  | succ fuel ih =>
    intro ts hlen
    unfold parseredirs
    rw [wp_bind, wp_tokens_peek]
    refine wp_ite (fun hnext => ?_) fun _ => ⟨[], rfl, .nil⟩
    obtain ⟨t, ts, c, rfl, hc, hmem⟩ := nextIs_cons hnext
    obtain ⟨mode, fd, ht⟩ := redirection_of_symbol hc hmem
    rw [wp_bind, wp_tokens_gettoken_cons, wp_bind]
    cases ts with
    | nil => exact fun h => by cases h
    | cons t' ts =>
      rw [wp_tokens_gettoken_cons]
      refine wp_ite (fun _ h => by cases h) fun htype => ?_
      obtain ⟨f, rfl⟩ := (type_eq_word_iff t').mp (not_not.mp htype)
      rw [wp_bind]
      refine wp_post (ih ts (by simp at hlen; omega)) fun rs rest hrest => ?_
      obtain ⟨used, rfl, hused⟩ := hrest
      refine ⟨t :: .word f :: used, rfl, ?_⟩
      rw [redirOf_type ht]
      exact .cons ht hused

/-- What the loop of `parseexec` adds to the arguments and redirections that are there. -/
def AddsArgs (c : Simple Text) (used : List Token) (c' : Simple Text) : Prop :=
  ∃ ws rs, IsArgs used ws rs ∧ c'.argv = c.argv ++ ws ∧ c'.redirs = c.redirs ++ rs ∧
    c'.argv.length ≤ MAXARGS - 1

theorem addsArgs_nil {c : Simple Text} (hc : c.argv.length ≤ MAXARGS - 1) : AddsArgs c [] c :=
  ⟨[], [], .nil, by simp, by simp, hc⟩

/-- The loop of `parseexec` adds the words and redirections that it has read. -/
theorem parseargs_sound (fuel : Nat) {c : Simple Text} (hc : c.argv.length ≤ MAXARGS - 1) :
    Sound (parseargs tokens (fuel + 1) c) fuel (AddsArgs c) := by
  induction fuel generalizing c with
  | zero =>
    intro ts hlen
    obtain rfl := eq_nil_of_length_eq_zero (Nat.le_zero.mp hlen)
    exact ⟨[], rfl, addsArgs_nil hc⟩
  | succ fuel ih =>
    intro ts hlen
    unfold parseargs
    rw [wp_bind, wp_tokens_peek]
    refine wp_ite (fun _ => ⟨[], rfl, addsArgs_nil hc⟩) fun _ => ?_
    rw [wp_bind]
    cases ts with
    | nil => exact ⟨[], rfl, addsArgs_nil hc⟩
    | cons t ts =>
      rw [wp_tokens_gettoken_cons]
      refine wp_ite (fun htype => absurd htype (type_ne_zero t)) fun _ => ?_
      refine wp_ite (fun _ h => by cases h) fun htype => ?_
      obtain ⟨w, rfl⟩ := (type_eq_word_iff t).mp (not_not.mp htype)
      refine wp_ite (fun _ h => by cases h) fun hargs => ?_
      rw [wp_bind]
      have hlen' : ts.length ≤ fuel := by simpa using hlen
      refine wp_post (parseredirs_sound fuel ts hlen') fun rs rest hrest => ?_
      obtain ⟨used, rfl, hused⟩ := hrest
      have hlen'' : rest.length ≤ fuel := by simp at hlen'; omega
      have hroom := Nat.le_sub_one_of_lt (Nat.lt_of_not_le hargs)
      refine wp_post (ih hroom rest hlen'') fun c' rest' h => ?_
      obtain ⟨used', rfl, ws, rs', hused', hargv, hredirs, hmax⟩ := h
      refine ⟨.word w :: (used ++ used'), by simp, w :: ws, rs ++ rs', .cons hused hused', ?_, ?_,
        hmax⟩
      · simpa [Token.text] using hargv
      · simpa using hredirs

/-- The loop of `parseline` adds one `BACK` for each `&`. -/
theorem parsebacks_sound (fuel : Nat) (cmd : Cmd Text) :
    Sound (parsebacks tokens (fuel + 1) cmd) fuel
      fun used c => ∃ n, used = List.replicate n .amp ∧ c = backs n cmd := by
  induction fuel generalizing cmd with
  | zero =>
    intro ts hlen
    obtain rfl := eq_nil_of_length_eq_zero (Nat.le_zero.mp hlen)
    exact ⟨[], rfl, 0, rfl, rfl⟩
  | succ fuel ih =>
    intro ts hlen
    unfold parsebacks
    rw [wp_bind, wp_tokens_peek]
    refine wp_ite (fun hnext => ?_) fun _ => ⟨[], rfl, 0, rfl, rfl⟩
    obtain ⟨ts, rfl⟩ := nextIs_single (t := .amp) rfl (by decide) hnext
    rw [wp_bind, wp_tokens_gettoken_cons]
    refine wp_post (ih (.back cmd) ts (by simpa using hlen)) fun c rest hrest => ?_
    obtain ⟨used, rfl, n, rfl, rfl⟩ := hrest
    exact ⟨.amp :: List.replicate n .amp, rfl, n + 1, rfl, rfl⟩

/-- The parsing function of a nonterminal. -/
def Phrase.parser : Phrase → Nat → StateT (List Token) (Except Stop) (Cmd Text)
  | .line => parseline tokens
  | .pipe => parsepipe tokens
  | .exec => parseexec tokens

/-- Fuel that is enough for a nonterminal on `n` tokens: the four functions may call each other once
before a token is taken. -/
def Phrase.cost : Phrase → Nat → Nat
  | .line, n => 4 * n + 4
  | .pipe, n => 4 * n + 3
  | .exec, n => 4 * n + 2

/-- `parseblock` returns a command in parentheses, with its redirections. -/
theorem parseblock_sound (hfuel : 4 * n ≤ fuel)
    (hline : ∀ m, m + 1 ≤ n → Sound (parseline tokens fuel) m (Derives .line)) :
    Sound (parseblock tokens (fuel + 1)) n (Derives .exec) := by
  intro ts hlen
  unfold parseblock
  rw [wp_bind, wp_tokens_peek]
  refine wp_ite (fun hnext => ?_) fun _ h => by cases h
  obtain ⟨ts, rfl⟩ := nextIs_single (t := .lpar) rfl (by decide) hnext
  rw [wp_bind, wp_tokens_gettoken_cons, wp_bind]
  refine wp_post (hline ts.length (by simpa using hlen) ts (Nat.le_refl _)) fun c rest hrest => ?_
  obtain ⟨used, rfl, hused⟩ := hrest
  rw [wp_bind, wp_tokens_peek]
  refine wp_ite (fun hnext => ?_) fun _ h => by cases h
  obtain ⟨ts, rfl⟩ := nextIs_single (t := .rpar) rfl (by decide) hnext
  rw [wp_bind, wp_tokens_gettoken_cons, wp_bind]
  have hlen' : ts.length + 2 ≤ n := by simp at hlen; omega
  obtain ⟨fuel, rfl⟩ : ∃ k, fuel = k + 1 := ⟨fuel - 1, by omega⟩
  refine wp_post (parseredirs_sound fuel ts (by omega)) fun rs rest hrest => ?_
  obtain ⟨used', rfl, hused'⟩ := hrest
  exact ⟨.lpar :: (used ++ .rpar :: used'), by simp, .block hused hused'⟩

/-- `parseexec` returns a block or a simple command. -/
theorem parseexec_sound (hfuel : n + 1 ≤ fuel)
    (hblock : Sound (parseblock tokens fuel) n (Derives .exec)) :
    Sound (parseexec tokens (fuel + 1)) n (Derives .exec) := by
  intro ts hlen
  unfold parseexec
  rw [wp_bind, wp_tokens_peek]
  refine wp_ite (fun _ => hblock ts hlen) fun _ => ?_
  obtain ⟨fuel, rfl⟩ : ∃ k, fuel = k + 1 := ⟨fuel - 1, by omega⟩
  rw [wp_bind]
  refine wp_post (parseredirs_sound fuel ts (by omega)) fun rs rest hrest => ?_
  obtain ⟨used, rfl, hused⟩ := hrest
  rw [wp_bind]
  have hlen' : rest.length ≤ fuel := by simp at hlen; omega
  refine wp_post (parseargs_sound fuel (by simp) rest hlen') fun c rest' hrest' => ?_
  obtain ⟨used', rfl, ws, rs', hused', hargv, hredirs, hmax⟩ := hrest'
  refine ⟨used ++ used', by simp, ?_⟩
  rw [hargv, hredirs] at *
  exact .simple hused hused' hmax

/-- `parsepipe` returns a pipeline. -/
theorem parsepipe_sound (hexec : Sound (parseexec tokens fuel) n (Derives .exec))
    (hpipe : ∀ m, m + 1 ≤ n → Sound (parsepipe tokens fuel) m (Derives .pipe)) :
    Sound (parsepipe tokens (fuel + 1)) n (Derives .pipe) := by
  intro ts hlen
  unfold parsepipe
  rw [wp_bind]
  refine wp_post (hexec ts hlen) fun c rest hrest => ?_
  obtain ⟨used, rfl, hused⟩ := hrest
  rw [wp_bind, wp_tokens_peek]
  refine wp_ite (fun hnext => ?_) fun _ => ⟨used, rfl, .pipe hused⟩
  obtain ⟨ts, rfl⟩ := nextIs_single (t := .bar) rfl (by decide) hnext
  rw [wp_bind, wp_tokens_gettoken_cons, wp_bind]
  have hlen' : ts.length + 1 ≤ n := by simp at hlen; omega
  refine wp_post (hpipe ts.length hlen' ts (Nat.le_refl _)) fun c' rest hrest => ?_
  obtain ⟨used', rfl, hused'⟩ := hrest
  exact ⟨used ++ .bar :: used', by simp, .bar hused hused'⟩

/-- `parseline` returns a list of pipelines. -/
theorem parseline_sound (hfuel : n + 1 ≤ fuel)
    (hpipe : Sound (parsepipe tokens fuel) n (Derives .pipe))
    (hline : ∀ m, m + 1 ≤ n → Sound (parseline tokens fuel) m (Derives .line)) :
    Sound (parseline tokens (fuel + 1)) n (Derives .line) := by
  intro ts hlen
  unfold parseline
  rw [wp_bind]
  refine wp_post (hpipe ts hlen) fun c rest hrest => ?_
  obtain ⟨used, rfl, hused⟩ := hrest
  obtain ⟨k, hk⟩ : ∃ k, fuel = k + 1 := ⟨fuel - 1, by omega⟩
  have hbacks := parsebacks_sound k c rest (by simp at hlen; omega)
  rw [← hk] at hbacks
  rw [wp_bind]
  refine wp_post hbacks fun c' rest' hrest' => ?_
  obtain ⟨_, rfl, m, rfl, rfl⟩ := hrest'
  rw [wp_bind, wp_tokens_peek]
  refine wp_ite (fun hnext => ?_) fun _ => ⟨used ++ List.replicate m .amp, by simp, .line m hused⟩
  obtain ⟨ts, rfl⟩ := nextIs_single (t := .semi) rfl (by decide) hnext
  rw [wp_bind, wp_tokens_gettoken_cons, wp_bind]
  have hlen' : ts.length + 1 ≤ n := by simp at hlen; omega
  refine wp_post (hline ts.length hlen' ts (Nat.le_refl _)) fun c' rest hrest => ?_
  obtain ⟨used', rfl, hused'⟩ := hrest
  exact ⟨used ++ (List.replicate m .amp ++ .semi :: used'), by simp, .semi m hused hused'⟩

/-- With enough fuel, each parsing function returns a phrase of its nonterminal or panics. -/
theorem parse_sound (fuel : Nat) :
    (∀ (p : Phrase) (n : Nat), p.cost n ≤ fuel → Sound (p.parser fuel) n (Derives p)) ∧
      ∀ n, 4 * n + 1 ≤ fuel → Sound (parseblock tokens fuel) n (Derives .exec) := by
  induction fuel with
  | zero =>
    refine ⟨fun p n hcost => ?_, fun n hcost => by omega⟩
    cases p <;> simp only [Phrase.cost] at hcost <;> omega
  | succ fuel ih =>
    obtain ⟨hparser, hblock⟩ := ih
    have hline : ∀ n, 4 * n ≤ fuel → ∀ m, m + 1 ≤ n →
        Sound (parseline tokens fuel) m (Derives .line) :=
      fun n hn m hm => hparser .line m (by simp only [Phrase.cost]; omega)
    refine ⟨fun p n hcost => ?_, fun n hcost => parseblock_sound (by omega) (hline n (by omega))⟩
    cases p with
    | line =>
      simp only [Phrase.cost] at hcost
      exact parseline_sound (by omega) (hparser .pipe n (by simp only [Phrase.cost]; omega))
        (hline n (by omega))
    | pipe =>
      simp only [Phrase.cost] at hcost
      exact parsepipe_sound (hparser .exec n (by simp only [Phrase.cost]; omega))
        fun m hm => hparser .pipe m (by simp only [Phrase.cost]; omega)
    | exec =>
      simp only [Phrase.cost] at hcost
      exact parseexec_sound (by omega) (hblock n (by omega))

/-! ### What the parser accepts -/

/-- The tokens end here, or go on with one of these symbols. -/
def Ends (toks : List Char) (ts : List Token) : Prop := ts = [] ∨ nextIs toks ts = true

theorem Ends.nextIs_eq_false {toks' : List Char} {ts : List Token} (h : Ends toks ts)
    (hdisj : ∀ c ∈ toks, c ∉ toks') : nextIs toks' ts = false := by
  rcases h with rfl | h
  · rfl
  · obtain ⟨t, ts, c, rfl, hc, hmem⟩ := nextIs_cons h
    simp [nextIs, hc, hdisj c hmem]

theorem Ends.mono {toks' : List Char} {ts : List Token} (h : Ends toks ts) (hsub : toks ⊆ toks') :
    Ends toks' ts := by
  rcases h with rfl | h
  · exact .inl rfl
  · obtain ⟨t, ts, c, rfl, hc, hmem⟩ := nextIs_cons h
    exact .inr (by simp [nextIs, hc, hsub hmem])

/-- On `used` followed by `rest`, `x` returns `a` and leaves `rest`, if it has the fuel. -/
def Accepts {α : Type} (x : StateT (List Token) (Except Stop) α) (used rest : List Token) (a : α) :
    Prop :=
  wp x (fun a' rest' => a' = a ∧ rest' = rest) (· = .fuel) (used ++ rest)

/-- The first part of a sequence accepts what comes first. -/
theorem Accepts.bind {β : Type} {x : StateT (List Token) (Except Stop) α}
    {f : α → StateT (List Token) (Except Stop) β} {Q : β → List Token → Prop} {a : α}
    (hx : Accepts x used rest a) (hf : wp (f a) Q (· = .fuel) rest) :
    wp (x >>= f) Q (· = .fuel) (used ++ rest) := by
  rw [wp_bind]
  refine wp_post hx fun a' rest' h => ?_
  obtain ⟨rfl, rfl⟩ := h
  exact hf

/-- `parseredirs` accepts every list of redirections, if none follows it. -/
theorem IsRedirs.accepts {rs : List (Redir Text)} (h : IsRedirs used rs) (fuel : Nat)
    (hrest : nextIs ['<', '>'] rest = false) : Accepts (parseredirs tokens fuel) used rest rs := by
  induction h generalizing fuel with
  | nil =>
    cases fuel with
    | zero => rfl
    | succ fuel =>
      unfold Accepts parseredirs
      rw [wp_bind, wp_tokens_peek, nil_append, hrest]
      exact ⟨rfl, rfl⟩
  | @cons t mode fd f ts rs ht h ih =>
    cases fuel with
    | zero => rfl
    | succ fuel =>
      unfold Accepts parseredirs
      have hnext : nextIs ['<', '>'] (t :: .word f :: (ts ++ rest)) = true := by
        cases t <;> first | rfl | cases ht
      rw [wp_bind, wp_tokens_peek, cons_append, cons_append, if_pos hnext, wp_bind,
        wp_tokens_gettoken_cons, wp_bind, wp_tokens_gettoken_cons]
      refine wp_ite (fun hne => absurd rfl hne) fun _ => ?_
      refine (ih fuel).bind ?_
      rw [redirOf_type ht]
      exact ⟨rfl, rfl⟩

/-- Arguments begin with a word. -/
theorem IsArgs.nextIs_eq_false {ws : List Text} {rs : List (Redir Text)} (h : IsArgs used ws rs)
    (hrest : nextIs toks rest = false) : nextIs toks (used ++ rest) = false := by
  cases h with
  | nil => exact hrest
  | cons hr h => rfl

/-- The loop of `parseexec` accepts every list of arguments, if they are not too many. -/
theorem IsArgs.accepts {used : List Token} {ws : List Text} {rs : List (Redir Text)}
    (h : IsArgs used ws rs) (fuel : Nat) {rest : List Token}
    (hrest : Ends ['|', ')', '&', ';'] rest) (c : Simple Text)
    (hmax : (c.argv ++ ws).length ≤ MAXARGS - 1) :
    Accepts (parseargs tokens fuel c) used rest ⟨c.argv ++ ws, c.redirs ++ rs⟩ := by
  induction h generalizing fuel c with
  | nil =>
    cases fuel with
    | zero => rfl
    | succ fuel =>
      unfold Accepts parseargs
      rw [wp_bind, wp_tokens_peek, nil_append, append_nil, append_nil]
      refine wp_ite (fun _ => ⟨rfl, rfl⟩) fun hnext => ?_
      -- the tokens end here, and `gettoken` returns 0
      obtain rfl := hrest.resolve_right hnext
      exact ⟨rfl, rfl⟩
  | @cons w ts ts' ws rs rs' hr h ih =>
    cases fuel with
    | zero => rfl
    | succ fuel =>
      unfold Accepts parseargs
      rw [wp_bind, wp_tokens_peek, cons_append]
      refine wp_ite (fun hnext => by cases hnext) fun _ => ?_
      rw [wp_bind, wp_tokens_gettoken_cons, append_assoc]
      refine wp_ite (fun htype => absurd htype (type_ne_zero (.word w))) fun _ => ?_
      refine wp_ite (fun hne => absurd rfl hne) fun _ => ?_
      have hlen : (c.argv ++ [w] ++ ws).length ≤ MAXARGS - 1 := by simpa using hmax
      refine wp_ite (fun hargs => ?_) fun _ => ?_
      · have hargs : MAXARGS ≤ (c.argv ++ [w]).length := hargs
        have : MAXARGS = 10 := rfl
        rw [length_append] at hlen
        omega
      · refine (hr.accepts fuel (h.nextIs_eq_false (hrest.nextIs_eq_false (by simp)))).bind ?_
        have hacc := ih fuel ⟨c.argv ++ [w], c.redirs ++ rs⟩ hlen
        simpa [Accepts, Token.text] using hacc

/-- The loop of `parseline` accepts every number of `&`. -/
theorem backs_accepts (n fuel : Nat) (cmd : Cmd Text) (hrest : nextIs ['&'] rest = false) :
    Accepts (parsebacks tokens fuel cmd) (List.replicate n .amp) rest (backs n cmd) := by
  induction n generalizing fuel cmd with
  | zero =>
    cases fuel with
    | zero => rfl
    | succ fuel =>
      unfold Accepts parsebacks
      rw [wp_bind, wp_tokens_peek, replicate_zero, nil_append, hrest]
      exact ⟨rfl, rfl⟩
  | succ n ih =>
    cases fuel with
    | zero => rfl
    | succ fuel => exact ih fuel (.back cmd)

/-- The symbols that may follow a phrase. -/
def Phrase.follow : Phrase → List Char
  | .line => [')']
  | .pipe => [')', '&', ';']
  | .exec => ['|', ')', '&', ';']

/-- The parsing functions accept every phrase, if something follows that may follow it. -/
theorem Derives.accepts {p : Phrase} {c : Cmd Text} (h : Derives p used c) (fuel : Nat)
    (hrest : Ends p.follow rest) : Accepts (p.parser fuel) used rest c := by
  induction h generalizing fuel rest with
  | @line ts c n h ih =>
    cases fuel with
    | zero => rfl
    | succ fuel =>
      show wp (parseline tokens (fuel + 1)) _ _ _
      unfold parseline
      rw [append_assoc]
      refine (ih fuel ?_).bind ?_
      · cases n with
        | zero => exact hrest.mono (by decide)
        | succ n => exact .inr rfl
      refine (backs_accepts n fuel c (hrest.nextIs_eq_false (by simp [Phrase.follow]))).bind ?_
      rw [wp_bind, wp_tokens_peek, hrest.nextIs_eq_false (by simp [Phrase.follow])]
      exact ⟨rfl, rfl⟩
  | @semi ts ts' c c' n h h' ih ih' =>
    cases fuel with
    | zero => rfl
    | succ fuel =>
      show wp (parseline tokens (fuel + 1)) _ _ _
      unfold parseline
      rw [append_assoc, append_assoc]
      refine (ih fuel ?_).bind ?_
      · cases n with
        | zero => exact .inr rfl
        | succ n => exact .inr rfl
      refine (backs_accepts n fuel c rfl).bind ?_
      rw [wp_bind, wp_tokens_peek, cons_append]
      refine wp_ite (fun _ => ?_) fun hnext => absurd rfl hnext
      rw [wp_bind, wp_tokens_gettoken_cons]
      exact (ih' fuel hrest).bind ⟨rfl, rfl⟩
  | pipe h ih =>
    cases fuel with
    | zero => rfl
    | succ fuel =>
      show wp (parsepipe tokens (fuel + 1)) _ _ _
      unfold parsepipe
      refine (ih fuel (hrest.mono (by decide))).bind ?_
      rw [wp_bind, wp_tokens_peek, hrest.nextIs_eq_false (by simp [Phrase.follow])]
      exact ⟨rfl, rfl⟩
  | bar h h' ih ih' =>
    cases fuel with
    | zero => rfl
    | succ fuel =>
      show wp (parsepipe tokens (fuel + 1)) _ _ _
      unfold parsepipe
      rw [append_assoc]
      refine (ih fuel (.inr rfl)).bind ?_
      rw [wp_bind, wp_tokens_peek, cons_append]
      refine wp_ite (fun _ => ?_) fun hnext => absurd rfl hnext
      rw [wp_bind, wp_tokens_gettoken_cons]
      exact (ih' fuel hrest).bind ⟨rfl, rfl⟩
  | block h hr ih =>
    cases fuel with
    | zero => rfl
    | succ fuel =>
      show wp (parseexec tokens (fuel + 1)) _ _ _
      unfold parseexec
      rw [wp_bind, wp_tokens_peek, cons_append]
      refine wp_ite (fun _ => ?_) fun hnext => absurd rfl hnext
      cases fuel with
      | zero => rfl
      | succ fuel =>
        unfold parseblock
        rw [wp_bind, wp_tokens_peek]
        refine wp_ite (fun _ => ?_) fun hnext => absurd rfl hnext
        rw [wp_bind, wp_tokens_gettoken_cons, append_assoc]
        refine (ih fuel (.inr rfl)).bind ?_
        rw [wp_bind, wp_tokens_peek, cons_append]
        refine wp_ite (fun _ => ?_) fun hnext => absurd rfl hnext
        rw [wp_bind, wp_tokens_gettoken_cons]
        exact (hr.accepts fuel (hrest.nextIs_eq_false (by simp [Phrase.follow]))).bind ⟨rfl, rfl⟩
  | @simple ts ts' ws rs rs' hr h hmax =>
    cases fuel with
    | zero => rfl
    | succ fuel =>
      show wp (parseexec tokens (fuel + 1)) _ _ _
      unfold parseexec
      have hargs : nextIs ['<', '>'] (ts' ++ rest) = false :=
        h.nextIs_eq_false (hrest.nextIs_eq_false (by simp [Phrase.follow]))
      have hnext : nextIs ['('] (ts ++ (ts' ++ rest)) = false := by
        cases hr with
        | nil => exact h.nextIs_eq_false (hrest.nextIs_eq_false (by simp [Phrase.follow]))
        | @cons t _ _ _ _ _ ht _ => cases t <;> first | rfl | cases ht
      rw [wp_bind, wp_tokens_peek, append_assoc, hnext]
      refine (hr.accepts fuel hargs).bind ?_
      exact (h.accepts fuel hrest ⟨[], rs⟩ hmax).bind ⟨rfl, rfl⟩

end Xv6.Proofs
