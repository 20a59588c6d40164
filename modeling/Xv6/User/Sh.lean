import Mathlib.Logic.Function.Basic

/-!
# `Xv6.User.Sh`: the parser of the shell

`gettoken`, `peek`, the five parsing functions, `nulterminate` and `parsecmd` of `sh.c`.

The parsing functions touch the command line only through `peek` and `gettoken`, so they are written
over a `Scanner`: `pointers` is the scanner of the source, whose state is the pointer `*ps` into the
line. `malloc` does not fail. The functions call each other without a bound, so here they take a
fuel argument; `Stop.fuel` is not a behaviour of the shell.

While `parseexec` collects arguments in the `execcmd`, redirections are wrapped around it. The loop
keeps the two apart (`Simple`) and puts them together in the end.
-/

set_option autoImplicit false

namespace Xv6.Sh

def MAXARGS : Nat := 10

def O_RDONLY : Nat := 0x000
def O_WRONLY : Nat := 0x001
def O_CREATE : Nat := 0x200
def O_TRUNC : Nat := 0x400

/-- A character of the command line. -/
def code (c : Char) : UInt8 := UInt8.ofNat c.toNat

/-- `strchr(cs, c) != 0` -/
def strchr (cs : List Char) (c : UInt8) : Bool := cs.any fun d => code d = c

def whitespace : List Char := [' ', '\t', '\r', '\n', '\x0b']

def symbols : List Char := ['<', '|', '>', '&', ';', '(', ')']

/-- Why parsing ends without a command. -/
inductive Stop where
  | fuel
  | panic (msg : String)
  deriving DecidableEq

/-- Parsed command representation; `W` is how a word is represented. -/
inductive Cmd (W : Type) where
  | exec (argv : List W)
  | redir (cmd : Cmd W) (file : W) (mode fd : Nat)
  | pipe (left right : Cmd W)
  | list (left right : Cmd W)
  | back (cmd : Cmd W)
  deriving DecidableEq

/-! ### Tokens -/

/-- A word by its first character and the one after its last. -/
structure Span where
  q : Nat
  eq : Nat
  deriving DecidableEq

/-- `while(s < es && test(*s)) s++`, with `n = es - s`. -/
def skip (test : UInt8 → Bool) (buf : Nat → UInt8) : (n s : Nat) → Nat
  | 0, s => s
  | n + 1, s => if test (buf s) then skip test buf n (s + 1) else s

/-- A character that a word is made of. -/
def wordChar (c : UInt8) : Bool := !strchr whitespace c && !strchr symbols c

/-- The type of the token at `s`, and where the token ends. -/
def tokenAt (buf : Nat → UInt8) (es s : Nat) : UInt8 × Nat :=
  if buf s = 0 then (buf s, s)
  else if strchr ['|', '(', ')', ';', '&', '<'] (buf s) then (buf s, s + 1)
  else if buf s = code '>' then
    if buf (s + 1) = code '>' then (code '+', s + 2) else (buf s, s + 1)
  else (code 'a', skip wordChar buf (es - s) s)

def gettoken (buf : Nat → UInt8) (es ps : Nat) : (UInt8 × Span) × Nat :=
  let s := skip (strchr whitespace) buf (es - ps) ps
  let t := tokenAt buf es s
  ((t.1, ⟨s, t.2⟩), skip (strchr whitespace) buf (es - t.2) t.2)

def peek (buf : Nat → UInt8) (es : Nat) (toks : List Char) (ps : Nat) : Bool × Nat :=
  let s := skip (strchr whitespace) buf (es - ps) ps
  (buf s ≠ 0 && strchr toks (buf s), s)

/-- What the parsing functions need: is the next token one of these, and take the next token. -/
structure Scanner (σ W : Type) where
  peek : List Char → StateT σ (Except Stop) Bool
  gettoken : StateT σ (Except Stop) (UInt8 × W)

/-- The scanner of the source. The state is `*ps`. -/
def pointers (buf : Nat → UInt8) (es : Nat) : Scanner Nat Span where
  peek toks := fun ps => .ok (peek buf es toks ps)
  gettoken := fun ps => .ok (gettoken buf es ps)

/-! ### Parsing -/

section Parse

variable {σ W : Type} (sc : Scanner σ W)

def panic {α : Type} (msg : String) : StateT σ (Except Stop) α := fun _ => .error (.panic msg)

def outOfFuel {α : Type} : StateT σ (Except Stop) α := fun _ => .error .fuel

/-- A redirection: the file, the mode and the descriptor. -/
structure Redir (W : Type) where
  file : W
  mode : Nat
  fd : Nat
  deriving DecidableEq

/-- Redirections around a command, the last one outermost. -/
def redircmds (cmd : Cmd W) (rs : List (Redir W)) : Cmd W :=
  rs.foldl (fun cmd r => .redir cmd r.file r.mode r.fd) cmd

/-- What `redircmd` is called with for a token; any other token adds nothing. -/
def redirOf (tok : UInt8) (file : W) : List (Redir W) :=
  if tok = code '<' then [⟨file, O_RDONLY, 0⟩]
  else if tok = code '>' then [⟨file, O_WRONLY ||| O_CREATE ||| O_TRUNC, 1⟩]
  else if tok = code '+' then [⟨file, O_WRONLY ||| O_CREATE, 1⟩]
  else []

/-- `parseredirs`, as the list of the redirections it wraps around its command. -/
def parseredirs : Nat → StateT σ (Except Stop) (List (Redir W))
  | 0 => outOfFuel
  | fuel + 1 => do
    if ← sc.peek ['<', '>'] then
      let tok ← sc.gettoken
      let file ← sc.gettoken
      if file.1 ≠ code 'a' then panic "missing file for redirection"
      else
        let rs ← parseredirs fuel
        return redirOf tok.1 file.2 ++ rs
    else return []

/-- An `execcmd` in the making, and the redirections around it. -/
structure Simple (W : Type) where
  argv : List W
  redirs : List (Redir W)

/-- The loop of `parseexec`. -/
def parseargs : Nat → Simple W → StateT σ (Except Stop) (Simple W)
  | 0, _ => outOfFuel
  | fuel + 1, c => do
    if ← sc.peek ['|', ')', '&', ';'] then return c
    else
      let tok ← sc.gettoken
      if tok.1 = 0 then return c
      else if tok.1 ≠ code 'a' then panic "syntax"
      else
        let argv := c.argv ++ [tok.2]
        if MAXARGS ≤ argv.length then panic "too many args"
        else
          let rs ← parseredirs sc fuel
          parseargs fuel { argv := argv, redirs := c.redirs ++ rs }

/-- The loop of `parseline`. -/
def parsebacks : Nat → Cmd W → StateT σ (Except Stop) (Cmd W)
  | 0, _ => outOfFuel
  | fuel + 1, cmd => do
    if ← sc.peek ['&'] then
      let _ ← sc.gettoken
      parsebacks fuel (.back cmd)
    else return cmd

mutual

def parseline : Nat → StateT σ (Except Stop) (Cmd W)
  | 0 => outOfFuel
  | fuel + 1 => do
    let cmd ← parsepipe fuel
    let cmd ← parsebacks sc fuel cmd
    if ← sc.peek [';'] then
      let _ ← sc.gettoken
      let rest ← parseline fuel
      return .list cmd rest
    else return cmd

def parsepipe : Nat → StateT σ (Except Stop) (Cmd W)
  | 0 => outOfFuel
  | fuel + 1 => do
    let cmd ← parseexec fuel
    if ← sc.peek ['|'] then
      let _ ← sc.gettoken
      let rest ← parsepipe fuel
      return .pipe cmd rest
    else return cmd

def parseexec : Nat → StateT σ (Except Stop) (Cmd W)
  | 0 => outOfFuel
  | fuel + 1 => do
    if ← sc.peek ['('] then parseblock fuel
    else
      let rs ← parseredirs sc fuel
      let c ← parseargs sc fuel { argv := [], redirs := rs }
      return redircmds (.exec c.argv) c.redirs

def parseblock : Nat → StateT σ (Except Stop) (Cmd W)
  | 0 => outOfFuel
  | fuel + 1 => do
    if ← sc.peek ['('] then
      let _ ← sc.gettoken
      let cmd ← parseline fuel
      if ← sc.peek [')'] then
        let _ ← sc.gettoken
        let rs ← parseredirs sc fuel
        return redircmds cmd rs
      else panic "syntax - missing )"
    else panic "parseblock"

end

end Parse

/-! ### The whole line -/

/-- NUL-terminate all the counted strings. -/
def nulterminate : Cmd Span → (Nat → UInt8) → Nat → UInt8
  | .exec argv, buf => argv.foldl (fun buf w => Function.update buf w.eq 0) buf
  | .redir cmd file _ _, buf => Function.update (nulterminate cmd buf) file.eq 0
  | .pipe left right, buf | .list left right, buf => nulterminate right (nulterminate left buf)
  | .back cmd, buf => nulterminate cmd buf

/-- `parsecmd` on a line in memory. The result is the command, and the memory afterwards. -/
def parsecmd (fuel : Nat) (line : List UInt8) : Except Stop (Cmd Span × (Nat → UInt8)) :=
  let buf : Nat → UInt8 := fun i => line.getD i 0
  let es := line.length
  match parseline (pointers buf es) fuel 0 with
  | .error e => .error e
  | .ok (cmd, s) =>
    if (peek buf es [] s).2 ≠ es then .error (.panic "syntax")
    else .ok (cmd, nulterminate cmd buf)

end Xv6.Sh
