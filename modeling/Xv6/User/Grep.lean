import Mathlib.Init

/-!
# `Xv6.User.Grep`: the regular expressions and the loop of `grep`

`match`, `matchhere` and `matchstar` of `grep.c`. A string is the list of its bytes up to the
terminating NUL, so `re[0] == '\0'` is the test for the empty list.

In `grep`, a text is the part of `buf` that is in use, from `p` or from the start up to `buf[m]`.
The file is the list of the bytes that are left in it, and `want` says how many of them `read` would
like to return. It returns at least one, if one is left and at least one was asked for.
-/

set_option autoImplicit false

namespace Xv6.Grep

/-- A character of a regular expression. -/
def code (c : Char) : UInt8 := UInt8.ofNat c.toNat

def caret : UInt8 := code '^'
def dollar : UInt8 := code '$'
def star : UInt8 := code '*'
def dot : UInt8 := code '.'

mutual

/-- Search for re at beginning of text. -/
def matchhere (re text : List UInt8) : Bool :=
  match re with
  | [] => true
  | c :: re =>
    if re.head? = some star then matchstar c re.tail text
    else if c = dollar ∧ re = [] then text = []
    else match text with
      | [] => false
      | b :: text => if c = dot ∨ c = b then matchhere re text else false
termination_by (re.length, text.length, 0)
decreasing_by
  all_goals simp only [List.length_cons, List.length_tail]
  · exact Prod.Lex.left _ _ (by omega)
  · exact Prod.Lex.left _ _ (by omega)

/-- Search for c*re at beginning of text: a * matches zero or more instances. -/
def matchstar (c : UInt8) (re text : List UInt8) : Bool :=
  if matchhere re text then true
  else match text with
    | [] => false
    | b :: text => if b = c ∨ c = dot then matchstar c re text else false
termination_by (re.length, text.length, 1)
decreasing_by
  · exact Prod.Lex.right _ (Prod.Lex.right _ Nat.zero_lt_one)
  · exact Prod.Lex.right _ (Prod.Lex.left _ _ (Nat.lt_succ_self _))

end

/-- The loop of `match`; must look at empty string. -/
def matchLoop (re : List UInt8) : (text : List UInt8) → Bool
  | [] => matchhere re []
  | b :: text => if matchhere re (b :: text) then true else matchLoop re text

/-- `match` of the source. -/
def matchRe (re text : List UInt8) : Bool :=
  if re.head? = some caret then matchhere re.tail text else matchLoop re text

def lineFeed : UInt8 := code '\n'

/-- `strchr(s, c)`: the bytes before the first `c`, and those after it. -/
def strchr (c : UInt8) : (s : List UInt8) → Option (List UInt8 × List UInt8)
  | [] => none
  | b :: s =>
    if b = 0 then none
    else if b = c then some ([], s)
    else (strchr c s).map fun r => (b :: r.1, r.2)

/-- The inner loop of `grep`: what is passed to `write`, and the text that is left. A round takes a
newline, so `rounds` is at most the length of the text. -/
def lineLoop (pattern : List UInt8) :
    (rounds : Nat) → (text : List UInt8) → List (List UInt8) × List UInt8
  | 0, text => ([], text)
  | rounds + 1, text =>
    match strchr lineFeed text with
    | none => ([], text)
    | some (line, text) =>
      let r := lineLoop pattern rounds text
      (if matchRe pattern line then (line ++ [lineFeed]) :: r.1 else r.1, r.2)

/-- `sizeof(buf)` -/
def BUFSIZE : Nat := 1024

def readCount (want request left : Nat) : Nat := min (max 1 want) (min request left)

/-- The outer loop of `grep`, which holds the first bytes of a line at the start of `buf`. -/
def grepLoop (pattern : List UInt8) (want : Nat → Nat) :
    (rounds : Nat) → (held file : List UInt8) → List (List UInt8)
  | 0, _, _ => []
  | rounds + 1, held, file =>
    let n := readCount (want rounds) (BUFSIZE - held.length - 1) file.length
    if n = 0 then []
    else
      let r := lineLoop pattern (held.length + n) (held ++ file.take n)
      r.1 ++ grepLoop pattern want rounds r.2 (file.drop n)

/-- `grep`: the calls of `write`. Every round but the last one reads a byte. -/
def grep (pattern : List UInt8) (want : Nat → Nat) (file : List UInt8) : List (List UInt8) :=
  grepLoop pattern want (file.length + 1) [] file

end Xv6.Grep
