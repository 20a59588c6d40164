import Xv6.User.Grep
import Mathlib.Computability.Language

/-!
# `Xv6.Proofs.Grep.Matcher`: what the matcher of `grep` accepts

A regular expression is read as a list of items (`items`), and every item is a language; the items
one after the other are the product of their languages. A final `$` is the empty word, and it asks
for a match that reaches the end of the text.

`matchstar_iff` and `matchhere_iff` say which texts begin with a match. A round of `matchstar` takes
one more byte from the text, so the first is by induction on the text; `matchhere` takes one item
from the expression, and the items that are left are shorter.
-/

set_option autoImplicit false

namespace Xv6.Proofs.Grep

open Xv6.Grep List

/-- An item of a regular expression. -/
inductive Item where
  | star (c : UInt8)
  | eol
  | any
  | lit (c : UInt8)
  deriving DecidableEq

/-- A character that is not followed by `*`. -/
def single (c : UInt8) : Item := if c = dot then .any else .lit c

/-- The items of a regular expression. -/
def items : List UInt8 → List Item
  | [] => []
  | [c] => if c = dollar then [.eol] else [single c]
  | c :: d :: re => if d = Xv6.Grep.star then .star c :: items re else single c :: items (d :: re)

/-- The words of an item. -/
def Item.lang : Item → Language UInt8
  | .star c => {w | ∀ b ∈ w, b = c ∨ c = dot}
  | .eol => 1
  | .any => {w | ∃ b, w = [b]}
  | .lit c => {[c]}

/-- The words of the items one after the other. -/
def lang (l : List Item) : Language UInt8 := (l.map Item.lang).prod

/-- A prefix of the text is a word of the items: the whole text if the items end in `$`. -/
def MatchesHere (l : List Item) (text : List UInt8) : Prop :=
  ∃ word rest, text = word ++ rest ∧ word ∈ lang l ∧ (l.getLast? = some .eol → rest = [])

theorem matchesHere_nil (text : List UInt8) : MatchesHere [] text :=
  ⟨[], text, rfl, rfl, fun h => absurd h.symm (Option.some_ne_none _)⟩

/-- The first item takes a word, and the other items match what comes then. -/
theorem matchesHere_cons {i : Item} {l : List Item} {text : List UInt8} (hi : i ≠ .eol) :
    MatchesHere (i :: l) text ↔
      ∃ word rest, text = word ++ rest ∧ word ∈ i.lang ∧ MatchesHere l rest := by
  have hlast : (i :: l).getLast? = some .eol ↔ l.getLast? = some .eol := by
    cases l with
    | nil => simp [hi]
    | cons j l => rw [getLast?_cons_cons]
  constructor
  · rintro ⟨word, rest, rfl, hword, hend⟩
    rw [lang, map_cons, prod_cons, Language.mem_mul] at hword
    obtain ⟨u, hu, v, hv, rfl⟩ := hword
    exact ⟨u, v ++ rest, append_assoc u v rest, hu, v, rest, rfl, hv,
      fun h => hend (hlast.mpr h)⟩
  · rintro ⟨u, -, rfl, hu, v, rest, rfl, hv, hend⟩
    refine ⟨u ++ v, rest, (append_assoc u v rest).symm, ?_, fun h => hend (hlast.mp h)⟩
    rw [lang, map_cons, prod_cons, Language.mem_mul]
    exact ⟨u, hu, v, hv, rfl⟩

/-- A final `$` matches at the end of the text only. -/
theorem matchesHere_eol (text : List UInt8) : MatchesHere [.eol] text ↔ text = [] := by
  constructor
  · rintro ⟨word, rest, rfl, hword, hend⟩
    have hnil : word = [] := by
      rwa [lang, map_singleton, prod_singleton] at hword
    rw [hnil, hend rfl]
    rfl
  · rintro rfl
    refine ⟨[], [], rfl, ?_, fun _ => rfl⟩
    rw [lang, map_singleton, prod_singleton]
    rfl

theorem single_ne_eol (c : UInt8) : single c ≠ .eol := by
  unfold single
  split <;> exact fun h => by cases h

theorem mem_lang_single {c : UInt8} {word : List UInt8} :
    word ∈ (single c).lang ↔ ∃ b, word = [b] ∧ (c = dot ∨ c = b) := by
  unfold single
  split
  · rename_i hdot
    exact exists_congr fun b => (and_iff_left (.inl hdot)).symm
  · rename_i hdot
    constructor
    · exact fun h => ⟨c, h, .inr rfl⟩
    · rintro ⟨b, rfl, h | rfl⟩
      · exact absurd h hdot
      · rfl

/-- `matchstar` tries every number of bytes that the item can take. -/
theorem matchstar_iff (c : UInt8) (re text : List UInt8) : matchstar c re text = true ↔
    ∃ word rest, text = word ++ rest ∧ word ∈ (Item.star c).lang ∧ matchhere re rest = true := by
  induction text with
  | nil =>
    rw [matchstar]
    constructor
    · intro h
      refine ⟨[], [], rfl, fun b hb => absurd hb not_mem_nil, ?_⟩
      simpa using h
    · rintro ⟨word, rest, heq, -, hrest⟩
      obtain ⟨rfl, rfl⟩ := append_eq_nil_iff.mp heq.symm
      rw [if_pos hrest]
  | cons b text ih =>
    rw [matchstar]
    constructor
    · intro h
      split at h
      · rename_i hhere
        exact ⟨[], b :: text, rfl, fun b hb => absurd hb not_mem_nil, hhere⟩
      · -- one more byte is taken
        split at h
        · rename_i hb
          obtain ⟨word, rest, rfl, hword, hrest⟩ := ih.mp h
          refine ⟨b :: word, rest, rfl, fun d hd => ?_, hrest⟩
          rcases mem_cons.mp hd with rfl | hd
          · exact hb
          · exact hword d hd
        · cases h
    · rintro ⟨word, rest, heq, hword, hrest⟩
      cases word with
      | nil =>
        rw [nil_append] at heq
        rw [heq, if_pos hrest]
      | cons d word =>
        obtain ⟨rfl, rfl⟩ := List.cons.inj heq
        split
        · rfl
        · rw [if_pos (hword b mem_cons_self)]
          exact ih.mpr ⟨word, rest, rfl, fun d hd => hword d (mem_cons_of_mem b hd), hrest⟩

/-- A character that is not followed by `*` takes one byte. -/
theorem matchesHere_single {c : UInt8} {l : List Item} {text : List UInt8} :
    MatchesHere (single c :: l) text ↔
      ∃ b rest, text = b :: rest ∧ (c = dot ∨ c = b) ∧ MatchesHere l rest := by
  rw [matchesHere_cons (single_ne_eol c)]
  constructor
  · rintro ⟨word, rest, rfl, hword, hrest⟩
    obtain ⟨b, rfl, hb⟩ := mem_lang_single.mp hword
    exact ⟨b, rest, rfl, hb, hrest⟩
  · rintro ⟨b, rest, rfl, hb, hrest⟩
    exact ⟨[b], rest, rfl, mem_lang_single.mpr ⟨b, rfl, hb⟩, hrest⟩

/-- The last branch of `matchhere`. -/
theorem matchhere_single {c : UInt8} {re text : List UInt8} (hstar : re.head? ≠ some star)
    (heol : ¬ (c = dollar ∧ re = [])) : matchhere (c :: re) text = true ↔
      ∃ b rest, text = b :: rest ∧ (c = dot ∨ c = b) ∧ matchhere re rest = true := by
  rw [matchhere.eq_def]
  dsimp only
  rw [if_neg hstar, if_neg heol]
  cases text with
  | nil => simp
  | cons b text =>
    dsimp only
    constructor
    · intro h
      split at h
      · rename_i hb
        exact ⟨b, text, rfl, hb, h⟩
      · cases h
    · rintro ⟨b', rest, heq, hb, h⟩
      obtain ⟨rfl, rfl⟩ := List.cons.inj heq
      rw [if_pos hb]
      exact h

/-- `matchhere` is right for the expression as a list of items. -/
theorem matchhere_iff (re : List UInt8) :
    ∀ text, matchhere re text = true ↔ MatchesHere (items re) text := by
  induction re using items.induct with
  | case1 =>
    intro text
    rw [matchhere]
    exact iff_of_true rfl (matchesHere_nil text)
  | case2 =>
    intro text
    rw [items, if_pos rfl, matchesHere_eol, matchhere.eq_def]
    dsimp only
    rw [if_neg (by simp), if_pos ⟨rfl, rfl⟩, decide_eq_true_iff]
  | case3 c hc =>
    intro text
    rw [items, if_neg hc, matchesHere_single,
      matchhere_single (by simp) fun h => hc h.1]
    refine exists_congr fun b => exists_congr fun rest => ?_
    rw [matchhere]
    simp [matchesHere_nil]
  | case4 c re ih =>
    intro text
    rw [items, if_pos rfl, matchhere.eq_def]
    dsimp only
    rw [head?_cons, if_pos rfl, tail_cons, matchstar_iff,
      matchesHere_cons fun h => by cases h]
    refine exists_congr fun word => exists_congr fun rest => ?_
    rw [ih rest]
  | case5 c d re hd ih =>
    intro text
    rw [items, if_neg hd, matchesHere_single,
      matchhere_single (by simpa using hd) fun h => by cases h.2]
    refine exists_congr fun b => exists_congr fun rest => ?_
    rw [ih rest]

/-- `match` tries every place of the text. -/
theorem matchLoop_iff (re text : List UInt8) : matchLoop re text = true ↔
    ∃ before rest, text = before ++ rest ∧ matchhere re rest = true := by
  induction text with
  | nil =>
    rw [matchLoop]
    constructor
    · exact fun h => ⟨[], [], rfl, h⟩
    · rintro ⟨before, rest, heq, h⟩
      obtain ⟨rfl, rfl⟩ := append_eq_nil_iff.mp heq.symm
      exact h
  | cons b text ih =>
    rw [matchLoop]
    constructor
    · intro h
      split at h
      · rename_i hhere
        exact ⟨[], b :: text, rfl, hhere⟩
      · obtain ⟨before, rest, rfl, hrest⟩ := ih.mp h
        exact ⟨b :: before, rest, rfl, hrest⟩
    · rintro ⟨before, rest, heq, hrest⟩
      cases before with
      | nil =>
        rw [nil_append] at heq
        rw [heq, if_pos hrest]
      | cons d before =>
        obtain ⟨rfl, rfl⟩ := List.cons.inj heq
        split
        · rfl
        · exact ih.mpr ⟨before, rest, rfl, hrest⟩

/-- The expression without the leading `^`. -/
def body (re : List UInt8) : List UInt8 := if re.head? = some caret then re.tail else re

/-- The text has a part that is a word of the items: at its beginning if the expression starts with
`^`, and up to its end if the expression ends in `$`. -/
def Matches (re text : List UInt8) : Prop :=
  ∃ before word rest, text = before ++ word ++ rest ∧ word ∈ lang (items (body re)) ∧
    (re.head? = some caret → before = []) ∧
    ((items (body re)).getLast? = some .eol → rest = [])

/-- The matcher of `grep` is correct. -/
theorem matchRe_iff (re text : List UInt8) : matchRe re text = true ↔ Matches re text := by
  unfold matchRe Matches body
  split
  · rename_i hcaret
    rw [matchhere_iff]
    constructor
    · rintro ⟨word, rest, rfl, hword, hend⟩
      exact ⟨[], word, rest, rfl, hword, fun _ => rfl, hend⟩
    · rintro ⟨before, word, rest, rfl, hword, hbegin, hend⟩
      rw [hbegin hcaret]
      exact ⟨word, rest, rfl, hword, hend⟩
  · rename_i hcaret
    rw [matchLoop_iff]
    constructor
    · rintro ⟨before, text, rfl, h⟩
      obtain ⟨word, rest, rfl, hword, hend⟩ := (matchhere_iff _ _).mp h
      exact ⟨before, word, rest, (append_assoc _ _ _).symm, hword,
        fun h => absurd h hcaret, hend⟩
    · rintro ⟨before, word, rest, rfl, hword, -, hend⟩
      exact ⟨before, word ++ rest, append_assoc _ _ _,
        (matchhere_iff _ _).mpr ⟨word, rest, rfl, hword, hend⟩⟩

end Xv6.Proofs.Grep
