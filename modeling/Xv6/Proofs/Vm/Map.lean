import Xv6.Proofs.Vm.Pages

/-!
# `Xv6.Proofs.Vm.Map`: a page table is a finite map

Any sequence of `mappages`, `uvmunmap`, `uvmclear` and `walk` on a table that `uvmcreate` made is
matched by the same operations on a map from page numbers to leaves (`table_refines_map`). Between
two calls the rest of the kernel may do what it likes with the memory outside the table, and the
pages that `kalloc` hands out next are any pages that the table does not use.

The table need not be complete here: a `walk` that runs out of pages leaves a chain of fewer than
four tables behind. Nor need a leaf name a page of RAM. `TableAt` therefore keeps the words of the
last table as they are, where `Chain` keeps entries.

Three things that a caller can do break the correspondence, and `TableCall.Fair` excludes them. A
range of `uvmunmap` that ends beyond `2 ^ 64` wraps around and is empty (`unmap_wraps`). Flags with
page-number bits change the page. And `uvmunmap` with `do_free` frees what the entry says, even if
that is one of the tables.
-/

set_option autoImplicit false

namespace Xv6.Proofs

open Lib List
open Function (update update_of_ne update_self)

variable {i : Nat} {mem : Bytes}

/-! ### The abstract map -/

/-- A mapped page: the address it was mapped to, and its flags. -/
structure Leaf where
  pa : Nat
  flags : Pte

abbrev TableMap := Nat → Option Leaf

/-- The word of an entry. -/
def wordOf : Option Leaf → Pte
  | none => 0
  | some l => PA2PTE l.pa ||| l.flags

/-- Map `n` pages from number `i` on, to consecutive pages from `pa` on. -/
def TableMap.add (m : TableMap) (i n pa : Nat) (flags : Pte) : TableMap := fun j =>
  if i ≤ j ∧ j < i + n then some ⟨pa + (j - i) * PGSIZE, flags⟩ else m j

def TableMap.remove (m : TableMap) (i n : Nat) : TableMap := fun j =>
  if i ≤ j ∧ j < i + n then none else m j

/-- Take page `i` away from the user. -/
def TableMap.guard (m : TableMap) (i : Nat) : TableMap :=
  Function.update m i ((m i).map fun l => { l with flags := l.flags &&& ~~~PTE_PLV })

/-! ### Calls -/

inductive TableCall where
  | mappages (va size pa : Nat) (perm : Pte)
  | uvmunmap (va npages : Nat) (do_free : Bool)
  | uvmclear (va : Nat)
  | walk (va : Nat) (alloc : Bool)

variable {m : TableMap} {trace : List (TableCall × Int)}

/-- The call on the table `pagetable`, with the result of `mappages`. -/
def TableCall.exec (pagetable : Nat) : TableCall → VmM Int
  | .mappages va size pa perm => Xv6.mappages pagetable va size pa perm
  | .uvmunmap va npages do_free => do
    Xv6.uvmunmap pagetable va npages do_free
    return 0
  | .uvmclear va => do
    Xv6.uvmclear pagetable va
    return 0
  | .walk va alloc => do
    let _ ← Xv6.walk pagetable va alloc
    return 0

/-- The number of pages of `[PGROUNDDOWN(va), PGROUNDDOWN(va + size - 1)]`. -/
def rangePages (va size : Nat) : Nat := (va + size - 1) % 2 ^ 64 / PGSIZE + 1 - va / PGSIZE

/-- What a call with result `r` does to the map. -/
def TableCall.Maps (r : Int) (m m' : TableMap) : TableCall → Prop
  | .mappages va size pa perm =>
    (r = 0 ∧ m' = m.add (va / PGSIZE) (rangePages va size) pa (perm ||| PTE_V)) ∨
    (r = -1 ∧ ∃ k ≤ rangePages va size, m' = m.add (va / PGSIZE) k pa (perm ||| PTE_V))
  | .uvmunmap va npages _ => m' = m.remove (va / PGSIZE) npages
  | .uvmclear va => m' = m.guard (va / PGSIZE)
  | .walk _ _ => m' = m

/-- What a call must not do. -/
def TableCall.Fair (pagetable : Nat) (ph : Phys) : TableCall → Prop
  | .mappages _ _ _ perm => perm &&& PAMASK = 0
  | .uvmunmap va npages do_free => va + npages * PGSIZE < 2 ^ 64 ∧
      (do_free = true → ∀ k < npages,
        dmwin (PTE2PA (entryAt ph pagetable (va + k * PGSIZE))) ∉ tablePages ph.mem 3 pagetable)
  | _ => True

/-- The pages that `kalloc` returns are pages of RAM, different from each other and from the pages
`pgs` in use. -/
def Fresh (ph : Phys) (pgs : List Nat) : Prop :=
  ph.freelist.Nodup ∧ ∀ pg ∈ ph.freelist, IsPage pg ∧ pg ∉ pgs

/-- What happens between two calls: the pages of the table stay as they are. -/
structure Between (pagetable : Nat) (ph ph' : Phys) : Prop where
  kept : ∀ pg ∈ tablePages ph.mem 3 pagetable, ∀ a, InPage ramPages pg a → ph'.mem a = ph.mem a
  fresh : Fresh ph' (tablePages ph.mem 3 pagetable)

/-- Calls on a table from `uvmcreate` on, with their results. None panics, and each is `ok`. -/
inductive TableRun (ok : Nat → Phys → TableCall → Prop) (pagetable : Nat) :
    List (TableCall × Int) → Phys → Prop
  | create {ph ph' : Phys} (hfresh : Fresh ph [])
      (hrun : uvmcreate.run ph = .ok (some pagetable, ph')) : TableRun ok pagetable [] ph'
  | call {trace : List (TableCall × Int)} {ph ph₁ ph₂ : Phys} {c : TableCall} {r : Int}
      (hbefore : TableRun ok pagetable trace ph) (henv : Between pagetable ph ph₁)
      (hok : ok pagetable ph₁ c) (hrun : (c.exec pagetable).run ph₁ = .ok (r, ph₂)) :
      TableRun ok pagetable (trace ++ [(c, r)]) ph₂

/-- The same calls on the map. -/
inductive MapRun : List (TableCall × Int) → TableMap → Prop
  | create : MapRun [] fun _ => none
  | call {trace : List (TableCall × Int)} {m m' : TableMap} {c : TableCall} {r : Int}
      (hbefore : MapRun trace m) (hstep : c.Maps r m m') : MapRun (trace ++ [(c, r)]) m'

/-! ### Tables in memory -/

/-- A chain of tables. Each but the last has one entry, for the next; the last has the words `w`. -/
def WordChain (mem : Bytes) (w : Nat → Pte) : List Nat → Prop
  | [] => False
  | [pg] => Words mem pg w
  | pg :: next :: rest => Words mem pg (onlyDir next) ∧ WordChain mem w (next :: rest)

/-- Memory holds a table, perhaps without some of its directories. -/
structure TableAt (mem : Bytes) (pgs : List Nat) (w : Nat → Pte) : Prop where
  words : WordChain mem w pgs
  pages : ∀ pg ∈ pgs, IsPage pg
  nodup : pgs.Nodup
  length : pgs.length ≤ 4
  short : pgs.length < 4 → w = fun _ => 0

/-- A table depends on the bytes of its own pages. -/
theorem WordChain.congr {mem' : Bytes} {w : Nat → Pte} :
    ∀ {pgs : List Nat}, WordChain mem w pgs →
      (∀ pg ∈ pgs, ∀ a, InPage ramPages pg a → mem' a = mem a) → WordChain mem' w pgs
  | [_], h, hmem => Words.congr h (hmem _ (by simp))
  | _ :: _ :: _, h, hmem =>
    ⟨Words.congr h.1 (hmem _ (by simp)), WordChain.congr h.2 fun pg hpg =>
      hmem pg (List.mem_cons_of_mem _ hpg)⟩

theorem TableAt.congr {mem' : Bytes} {pgs : List Nat} {w : Nat → Pte} (h : TableAt mem pgs w)
    (hmem : ∀ pg ∈ pgs, ∀ a, InPage ramPages pg a → mem' a = mem a) : TableAt mem' pgs w :=
  { h with words := h.words.congr hmem }

theorem emptyChain_iff : ∀ {pgs : List Nat},
    EmptyChain mem pgs ↔ WordChain mem (fun _ => 0) pgs
  | [] => Iff.rfl
  | [_] => Iff.rfl
  | _ :: _ :: _ => and_congr_right fun _ => emptyChain_iff

/-- The pages that a walk over the table visits. -/
theorem tablePages_wordChain {w : Nat → Pte} {rest : List Nat} :
    ∀ {level pg : Nat}, WordChain mem w (pg :: rest) → (∀ q ∈ rest, IsPage q) →
      rest.length ≤ level → (rest.length < level → w = fun _ => 0) →
      tablePages mem level pg = pg :: rest := by
  induction rest with
  | nil =>
    intro level pg hw _ _ hshort
    cases level with
    | zero => rfl
    | succ level =>
      obtain rfl := hshort (Nat.succ_pos _)
      rw [tablePages, flatMap_eq_nil_iff.mpr]
      intro i hi
      rw [hw i (mem_range.mp hi)]
      show (if (0 : Pte) &&& PTE_V ≠ 0 then _ else _) = _
      exact if_neg (by decide)
  | cons next rest ih =>
    intro level pg hw hpages hlen hshort
    cases level with
    | zero => exact absurd hlen (by simp)
    | succ level =>
      rw [tablePages_dir level hw.1 (hpages next mem_cons_self),
        ih hw.2 (fun q hq => hpages q (mem_cons_of_mem _ hq)) (by simpa using hlen)
          fun hlt => hshort (by simpa using hlt)]

theorem TableAt.tablePages {root : Nat} {rest : List Nat} {w : Nat → Pte}
    (h : TableAt mem (root :: rest) w) : tablePages mem 3 root = root :: rest := by
  have hlen := h.length
  rw [length_cons] at hlen
  exact tablePages_wordChain h.words (fun q hq => h.pages q (mem_cons_of_mem _ hq))
    (by omega) fun hlt => h.short (by rw [length_cons]; omega)

/-! ### `walk` -/

section Walk

variable {ph : Phys} {va : Nat} {w : Nat → Pte}

/-- With all tables there, `walk` finds the word. -/
theorem walkLevels_full (hva : va < MAXVA) (alloc : Bool) {rest : List Nat} :
    ∀ {pg : Nat}, WordChain ph.mem w (pg :: rest) → (∀ q ∈ rest, IsPage q) →
      (walkLevels va alloc rest.length pg).run ph
        = .ok (some (rest.getLastD pg + 8 * (va / PGSIZE)), ph) := by
  induction rest with
  | nil =>
    intro pg _ _
    rw [length_nil, walkLevels, px_zero hva]
    rfl
  | cons next rest ih =>
    intro pg hw hpages
    rw [length_cons, walkLevels_dir hva hw.1 (hpages next mem_cons_self),
      ih hw.2 fun q hq => hpages q (mem_cons_of_mem _ hq), getLastD_cons]

/-- With a table missing, it finds nothing unless it may allocate. -/
theorem walkLevels_missing (hva : va < MAXVA) {rest : List Nat} :
    ∀ {level pg : Nat}, WordChain ph.mem (fun _ => 0) (pg :: rest) → (∀ q ∈ rest, IsPage q) →
      rest.length < level → (walkLevels va false level pg).run ph = .ok (none, ph) := by
  induction rest with
  | nil =>
    intro level pg hw _ hlt
    obtain ⟨l, rfl⟩ : ∃ l, level = l + 1 := ⟨level - 1, by simp at hlt; omega⟩
    rw [walkLevels, run_bind_ok (readPte_run _ _), px_succ hva, hw 0 (by decide),
      if_neg (by decide), if_neg (by decide)]
    rfl
  | cons next rest ih =>
    intro level pg hw hpages hlt
    obtain ⟨l, rfl⟩ : ∃ l, level = l + 1 := ⟨level - 1, by simp at hlt; omega⟩
    rw [walkLevels_dir hva hw.1 (hpages next mem_cons_self)]
    exact ih hw.2 (fun q hq => hpages q (mem_cons_of_mem _ hq)) (by simpa using hlt)

/-- It allocates what is missing, from the last table on, as far as there are pages. -/
theorem walkLevels_extend (hva : va < MAXVA) {rest : List Nat} :
    ∀ {level pg : Nat}, WordChain ph.mem (fun _ => 0) (pg :: rest) → rest.length ≤ level →
      Owns ramPages ph (pg :: rest) →
      ∃ r ph' new, (walkLevels va true level pg).run ph = .ok (r, ph') ∧
        WordChain ph'.mem (fun _ => 0) (pg :: (rest ++ new)) ∧
        Moves ramPages ph (pg :: rest) ph' (pg :: (rest ++ new)) ∧
        ((r = none ∧ (rest ++ new).length < level) ∨
          (r = some ((rest ++ new).getLastD pg + 8 * (va / PGSIZE)) ∧
            (rest ++ new).length = level)) := by
  induction rest with
  | nil =>
    intro level pg hw _ ho
    obtain ⟨r, ph', new, hrun, hchain, hm, hcase⟩ := walkLevels_build hva level hw ho
    refine ⟨r, ph', new, hrun, emptyChain_iff.mp hchain, hm, ?_⟩
    rcases hcase with ⟨hr, hlt, -⟩ | ⟨hr, hlen⟩
    · exact Or.inl ⟨hr, hlt⟩
    · exact Or.inr ⟨hr, hlen⟩
  | cons next rest ih =>
    intro level pg hw hlen ho
    obtain ⟨l, rfl⟩ : ∃ l, level = l + 1 := ⟨level - 1, by simp at hlen; omega⟩
    have hnext : IsPage next := ho.own_valid (by simp)
    have ho' : Owns ramPages ph ((next :: rest) ++ [pg]) :=
      ho.perm (perm_append_singleton _ _)
    obtain ⟨r, ph', new, hrun, hchain, hm, hcase⟩ := ih hw.2 (by simpa using hlen) ho'.of_append
    refine ⟨r, ph', new, ?_, ⟨?_, hchain⟩, hm.cons pg, ?_⟩
    · rw [walkLevels_dir hva hw.1 hnext, hrun]
    · exact hw.1.congr fun a ha => hm.kept ho' mem_cons_self ha
    · rcases hcase with ⟨hr, hlt⟩ | ⟨hr, heq⟩
      · exact Or.inl ⟨hr, Nat.succ_lt_succ hlt⟩
      · refine Or.inr ⟨?_, congrArg (· + 1) heq⟩
        rw [hr, cons_append, getLastD_cons]

end Walk

section Table

variable {ph : Phys} {root : Nat} {rest : List Nat} {w : Nat → Pte}

/-- The address of the word for page `i`, once all tables are there. -/
def wordAddr (root : Nat) (rest : List Nat) (i : Nat) : Nat := rest.getLastD root + 8 * i

theorem TableAt.rest_pages (h : TableAt mem (root :: rest) w) :
    ∀ q ∈ rest, IsPage q := fun q hq => h.pages q (mem_cons_of_mem _ hq)

theorem TableAt.walk_full (h : TableAt ph.mem (root :: rest) w) (hfull : rest.length = 3)
    {va : Nat} (hva : va < MAXVA) (alloc : Bool) :
    (walk root va alloc).run ph = .ok (some (wordAddr root rest (va / PGSIZE)), ph) := by
  unfold walk
  rw [if_neg (by omega), ← hfull, walkLevels_full hva alloc h.words h.rest_pages]
  rfl

theorem TableAt.walk_missing (h : TableAt ph.mem (root :: rest) w) (hshort : rest.length < 3)
    {va : Nat} (hva : va < MAXVA) : (walk root va false).run ph = .ok (none, ph) := by
  unfold walk
  obtain rfl := h.short (by rw [length_cons]; omega)
  rw [if_neg (by omega), walkLevels_missing hva h.words h.rest_pages hshort]

/-- The words of the last table, read and written. -/
theorem WordChain.last {rest : List Nat} :
    ∀ {pg : Nat}, WordChain mem w (pg :: rest) → Words mem (rest.getLastD pg) w := by
  induction rest with
  | nil => exact fun h => h
  | cons next rest ih =>
    intro pg h
    rw [getLastD_cons]
    exact ih h.2

theorem TableAt.word (h : TableAt mem (root :: rest) w) (hi : i < 512) :
    pteAt mem (wordAddr root rest i) = w i := h.words.last i hi

/-- A word of the last page is written. -/
theorem WordChain.write (hi : i < 512) (v : Pte) {rest : List Nat} :
    ∀ {pg : Nat}, WordChain mem w (pg :: rest) → (pg :: rest).Nodup →
      (∀ q ∈ pg :: rest, IsPage q) →
      WordChain (putLE mem (wordAddr pg rest i) 8 v.toNat) (update w i v)
        (pg :: rest) := by
  induction rest with
  | nil => exact fun h _ _ => Words.write h i v
  | cons next rest ih =>
    intro pg h hnodup hpages
    have hlast : (next :: rest).getLastD pg = rest.getLastD next := getLastD_cons
    have hrec := ih h.2 (nodup_cons.mp hnodup).2 fun q hq =>
      hpages q (mem_cons_of_mem _ hq)
    unfold wordAddr at hrec ⊢
    rw [hlast]
    refine ⟨h.1.congr fun a ha => putLE_outside hi fun hin => ?_, hrec⟩
    -- the word is in the last table, which is not this one
    have hmem : rest.getLastD next ∈ next :: rest := getLastD_mem_cons
    have heq := inPage_unique (K := ramPages) (hpages pg mem_cons_self)
      (hpages _ (mem_cons_of_mem _ hmem)) ha hin
    exact (nodup_cons.mp hnodup).1 (heq ▸ hmem)

theorem TableAt.write (h : TableAt mem (root :: rest) w) (hfull : rest.length = 3) (hi : i < 512)
    (v : Pte) :
    TableAt (putLE mem (wordAddr root rest i) 8 v.toNat) (root :: rest) (update w i v) :=
  { h with
    words := h.words.write hi v h.nodup h.pages
    short := fun hlt => absurd hlt (by rw [length_cons]; omega) }

/-- What `walk` and reading the entry find. -/
theorem TableAt.entryAt (h : TableAt ph.mem (root :: rest) w) {va : Nat} (hva : va < MAXVA) :
    entryAt ph root va = w (va / PGSIZE) := by
  unfold Proofs.entryAt
  by_cases hfull : rest.length = 3
  · rw [h.walk_full hfull hva]
    exact h.word (index_lt hva)
  · have hlen := h.length
    rw [length_cons] at hlen
    rw [h.walk_missing (by omega) hva, h.short (by rw [length_cons]; omega)]

/-- `walk` that may allocate. -/
theorem TableAt.walk_alloc (h : TableAt ph.mem (root :: rest) w)
    (ho : Owns ramPages ph (root :: rest)) {va : Nat} (hva : va < MAXVA) :
    ∃ r ph' new, (walk root va true).run ph = .ok (r, ph') ∧
      TableAt ph'.mem (root :: (rest ++ new)) w ∧
      (r = none ∨ (r = some (wordAddr root (rest ++ new) (va / PGSIZE)) ∧
        (rest ++ new).length = 3)) := by
  by_cases hfull : rest.length = 3
  · refine ⟨_, ph, [], h.walk_full hfull hva true, ?_, Or.inr ?_⟩
    · rwa [append_nil]
    · rw [append_nil]
      exact ⟨rfl, hfull⟩
  · have hlen := h.length
    rw [length_cons] at hlen
    obtain rfl := h.short (by rw [length_cons]; omega)
    obtain ⟨r, ph', new, hrun, hchain, hm, hcase⟩ :=
      walkLevels_extend hva h.words (show rest.length ≤ 3 by omega) ho
    have ho' := ho.moves hm
    have hle : (rest ++ new).length ≤ 3 := by
      rcases hcase with ⟨-, hlt⟩ | ⟨-, heq⟩
      · exact Nat.le_of_lt hlt
      · exact Nat.le_of_eq heq
    refine ⟨r, ph', new, ?_, ⟨hchain, fun pg hpg => ho'.own_valid hpg,
      (nodup_append.mp ho'.nodup).2.1, Nat.succ_le_succ hle, fun _ => rfl⟩, ?_⟩
    · unfold walk
      rw [if_neg (by omega), hrun]
    · rcases hcase with ⟨hr, -⟩ | ⟨hr, heq⟩
      · exact Or.inl hr
      · exact Or.inr ⟨hr, heq⟩

end Table

/-! ### The words that the calls write -/

/-- The words after `n` pages are mapped from number `i` on. -/
def addWords (w : Nat → Pte) (i n pa : Nat) (perm : Pte) : Nat → Pte := fun j =>
  if i ≤ j ∧ j < i + n then PA2PTE (pa + (j - i) * PGSIZE) ||| perm ||| PTE_V else w j

/-- The words after `n` pages are unmapped from number `i` on. -/
def removeWords (w : Nat → Pte) (i n : Nat) : Nat → Pte := fun j =>
  if i ≤ j ∧ j < i + n then 0 else w j

/-- The first of the words, and the others. -/
theorem addWords_succ (w : Nat → Pte) (i n pa : Nat) (perm : Pte) :
    addWords (update w i (PA2PTE pa ||| perm ||| PTE_V)) (i + 1) n (pa + PGSIZE) perm
      = addWords w i (n + 1) pa perm := by
  funext j
  unfold addWords
  by_cases hj : j = i
  · rw [hj, if_neg (by omega), if_pos (by omega), update_self, Nat.sub_self, Nat.zero_mul,
      Nat.add_zero]
  · rw [update_of_ne hj]
    by_cases hin : i + 1 ≤ j ∧ j < i + 1 + n
    · have hpa : pa + PGSIZE + (j - (i + 1)) * PGSIZE = pa + (j - i) * PGSIZE := by
        obtain ⟨k, rfl⟩ : ∃ k, j = i + 1 + k := ⟨j - (i + 1), by omega⟩
        rw [Nat.add_sub_cancel_left, show i + 1 + k - i = k + 1 by omega, Nat.succ_mul]
        omega
      rw [if_pos hin, if_pos (by omega), hpa]
    · rw [if_neg hin, if_neg (by omega)]

theorem removeWords_succ (w : Nat → Pte) (i n : Nat) :
    removeWords (update w i 0) (i + 1) n = removeWords w i (n + 1) := by
  funext j
  unfold removeWords
  by_cases hj : j = i
  · rw [hj, if_neg (by omega), if_pos (by omega), update_self]
  · rw [update_of_ne hj]
    exact if_congr (by omega) rfl rfl

section Calls

variable {root : Nat} {rest : List Nat}

theorem page_lt_maxva : i * PGSIZE < MAXVA ↔ i < 256 := by
  unfold PGSIZE MAXVA
  omega

/-- `walk` panics beyond `MAXVA`. -/
theorem walk_panics {ph : Phys} {va : Nat} (h : ¬ va < MAXVA) (alloc : Bool) :
    (walk root va alloc).run ph = .error .walk := by
  unfold walk
  rw [if_pos (by omega)]
  rfl

/-- The loop of `mappages` in a table with all its directories: if it returns, it has mapped
every page from number `i` to number `l`. -/
theorem mappagesLoop_full (hfull : rest.length = 3) (perm : Pte) (l rounds : Nat) :
    ∀ {ph : Phys} {w : Nat → Pte} {i pa : Nat}, TableAt ph.mem (root :: rest) w →
      wp (mappagesLoop root (l * PGSIZE) perm rounds (i * PGSIZE) pa)
        (fun r ph' => r = 0 ∧ i ≤ l ∧ l < 256 ∧
          TableAt ph'.mem (root :: rest) (addWords w i (l + 1 - i) pa perm))
        (fun _ => True) ph := by
  induction rounds with
  | zero => exact fun _ => trivial
  | succ rounds ih =>
    intro ph w i pa h
    rw [mappagesLoop, wp_bind]
    by_cases hva : i * PGSIZE < MAXVA
    swap
    · exact wp_of_error (walk_panics hva true) trivial
    have hi := page_lt_maxva.mp hva
    have hidx : i * PGSIZE / PGSIZE = i := Nat.mul_div_cancel i (by decide)
    refine wp_of_ok (h.walk_full hfull hva true) ?_
    rw [hidx]
    dsimp only
    rw [wp_bind]
    refine wp_of_ok (readPte_run _ _) ?_
    split
    · exact trivial
    rw [wp_bind]
    refine wp_of_ok (writePte_run _ _ _) ?_
    have hw := h.write hfull (show i < 512 by omega) (PA2PTE pa ||| perm ||| PTE_V)
    by_cases hlast : i * PGSIZE = l * PGSIZE
    · obtain rfl : i = l := Nat.mul_right_cancel (by decide) hlast
      rw [if_pos rfl]
      refine ⟨rfl, Nat.le_refl i, hi, ?_⟩
      have hone : addWords w i (i + 1 - i) pa perm
          = update w i (PA2PTE pa ||| perm ||| PTE_V) := by
        rw [show i + 1 - i = 0 + 1 by omega, ← addWords_succ]
        funext j
        exact if_neg (by omega)
      rw [hone]
      exact hw
    · rw [if_neg hlast, ← Nat.succ_mul]
      refine wp_post (ih hw) ?_
      rintro r ph' ⟨hr, hle, hlt, htable⟩
      refine ⟨hr, by omega, hlt, ?_⟩
      rw [addWords_succ, show l + 1 - (i + 1) + 1 = l + 1 - i by omega] at htable
      exact htable

/-- Freeing another page keeps the table. -/
theorem TableAt.kfree {ph : Phys} {w : Nat → Pte} (h : TableAt ph.mem (root :: rest) w) {pg : Nat}
    (hnot : pg ∉ root :: rest) :
    wp (kfree pg) (fun _ ph' => TableAt ph'.mem (root :: rest) w) (fun _ => True) ph := by
  by_cases hpg : IsPage pg
  · refine wp_of_ok (kfree_run hpg) (h.congr fun q hq a ha => fill_outside fun hin => hnot ?_)
    exact inPage_unique (K := ramPages) hpg (h.pages q hq) hin ha ▸ hq
  · refine wp_of_error (e := .kfree) ?_ trivial
    unfold Xv6.kfree
    unfold IsPage at hpg
    rw [if_pos (by omega)]
    rfl

/-- The loop of `uvmunmap`. It reaches its end only if all pages were mapped. -/
theorem uvmunmapLoop_full (do_free : Bool) (rounds : Nat) :
    ∀ {ph : Phys} {w : Nat → Pte} {i n : Nat}, TableAt ph.mem (root :: rest) w →
      (do_free = true → ∀ k < n, dmwin (PTE2PA (w (i + k))) ∉ root :: rest) →
      wp (uvmunmapLoop root ((i + n) * PGSIZE) do_free rounds (i * PGSIZE))
        (fun _ ph' => TableAt ph'.mem (root :: rest) (removeWords w i n)) (fun _ => True) ph := by
  induction rounds with
  | zero => exact fun _ _ => trivial
  | succ rounds ih =>
    intro ph w i n h hfree
    rw [uvmunmapLoop]
    cases n with
    | zero =>
      rw [if_neg (by rw [Nat.add_zero]; exact lt_irrefl _)]
      have hnone : removeWords w i 0 = w := funext fun j => if_neg (by omega)
      rw [wp_pure, hnone]
      exact h
    | succ n =>
      rw [if_pos (Nat.mul_lt_mul_of_pos_right (by omega) (by decide)), wp_bind]
      by_cases hva : i * PGSIZE < MAXVA
      swap
      · exact wp_of_error (walk_panics hva false) trivial
      have hi := page_lt_maxva.mp hva
      have hidx : i * PGSIZE / PGSIZE = i := Nat.mul_div_cancel i (by decide)
      by_cases hfull : rest.length = 3
      swap
      · have hlen := h.length
        rw [length_cons] at hlen
        exact wp_of_ok (h.walk_missing (by omega) hva) trivial
      refine wp_of_ok (h.walk_full hfull hva false) ?_
      rw [hidx]
      dsimp only
      rw [wp_bind]
      refine wp_of_ok (readPte_run _ _) ?_
      rw [h.word (show i < 512 by omega)]
      split
      · exact trivial
      split
      · exact trivial
      -- the page is freed, which keeps the table, and then the word is cleared
      have hstep : ∀ ph₁ : Phys, TableAt ph₁.mem (root :: rest) w →
          wp (do
              writePte (wordAddr root rest i) 0
              uvmunmapLoop root ((i + (n + 1)) * PGSIZE) do_free rounds (i * PGSIZE + PGSIZE))
            (fun _ ph' => TableAt ph'.mem (root :: rest) (removeWords w i (n + 1)))
            (fun _ => True) ph₁ := by
        intro ph₁ h₁
        rw [wp_bind]
        refine wp_of_ok (writePte_run _ _ _) ?_
        rw [← removeWords_succ, ← Nat.succ_mul, show i + (n + 1) = i + 1 + n by omega]
        refine ih (h₁.write hfull (by omega) 0) fun hdo k hk => ?_
        rw [update_of_ne (by omega), show i + 1 + k = i + (k + 1) by omega]
        exact hfree hdo (k + 1) (by omega)
      cases do_free with
      | false => exact hstep ph h
      | true =>
        rw [if_pos rfl, wp_bind]
        exact wp_post (h.kfree (hfree rfl 0 (Nat.succ_pos n))) fun _ ph₁ h₁ => hstep ph₁ h₁

/-- `uvmclear` panics if the table of the page is missing, and else clears two bits. -/
theorem TableAt.uvmclear {ph : Phys} {w : Nat → Pte} (h : TableAt ph.mem (root :: rest) w)
    (va : Nat) :
    wp (uvmclear root va)
      (fun _ ph' => TableAt ph'.mem (root :: rest)
        (update w (va / PGSIZE) (w (va / PGSIZE) &&& ~~~PTE_PLV))) (fun _ => True) ph := by
  unfold Xv6.uvmclear
  rw [wp_bind]
  by_cases hva : va < MAXVA
  swap
  · exact wp_of_error (walk_panics hva false) trivial
  by_cases hfull : rest.length = 3
  · refine wp_of_ok (h.walk_full hfull hva false) ?_
    dsimp only
    rw [wp_bind]
    refine wp_of_ok (readPte_run _ _) (wp_of_ok (writePte_run _ _ _) ?_)
    rw [h.word (index_lt hva)]
    exact h.write hfull (index_lt hva) _
  · have hlen := h.length
    rw [length_cons] at hlen
    exact wp_of_ok (h.walk_missing (by omega) hva) trivial

/-- `mappages` runs out of pages at its first `walk` or not at all: all addresses below `MAXVA`
share one table of leaves. -/
theorem TableAt.mappages {ph : Phys} {w : Nat → Pte} (h : TableAt ph.mem (root :: rest) w)
    (ho : Owns ramPages ph (root :: rest)) (va size pa : Nat) (perm : Pte) :
    wp (mappages root va size pa perm)
      (fun r ph' => ∃ rest',
        (r = -1 ∧ TableAt ph'.mem (root :: rest') w) ∨
        (r = 0 ∧ va / PGSIZE + rangePages va size ≤ 256 ∧
          TableAt ph'.mem (root :: rest') (addWords w (va / PGSIZE) (rangePages va size) pa perm)))
      (fun _ => True) ph := by
  unfold Xv6.mappages PGROUNDDOWN
  split
  · exact trivial
  rw [nvpages]
  generalize hl : (va + size - 1) % 2 ^ 64 / PGSIZE = l
  generalize hi : va / PGSIZE = i
  have hrange : rangePages va size = l + 1 - i := by
    unfold rangePages
    rw [hl, hi]
  rw [hrange]
  by_cases hva : i * PGSIZE < MAXVA
  swap
  · rw [mappagesLoop, wp_bind]
    exact wp_of_error (walk_panics hva true) trivial
  obtain ⟨r, ph₁, new, hwalk, h₁, hcase⟩ := h.walk_alloc ho hva
  rcases hcase with rfl | ⟨rfl, hfull⟩
  · rw [mappagesLoop, wp_bind]
    exact wp_of_ok hwalk ⟨rest ++ new, Or.inl ⟨rfl, h₁⟩⟩
  · -- with its tables built, the first round goes on as it would have gone in that memory
    have hsame : (mappagesLoop root (l * PGSIZE) perm (256 + 1) (i * PGSIZE) pa).run ph
        = (mappagesLoop root (l * PGSIZE) perm (256 + 1) (i * PGSIZE) pa).run ph₁ := by
      rw [mappagesLoop, run_bind_ok hwalk, run_bind_ok (h₁.walk_full hfull hva true)]
    unfold wp
    rw [hsame]
    refine wp_post (mappagesLoop_full hfull perm l (256 + 1) h₁) ?_
    rintro r ph' ⟨hr, hle, hlt, htable⟩
    exact ⟨rest ++ new, Or.inr ⟨hr, by omega, htable⟩⟩

end Calls

/-! ### Refinement -/

/-- What every map of a run satisfies: its pages are below `MAXVA`, and its flags have no bits of
the page number. -/
structure TableMap.Ok (m : TableMap) : Prop where
  below : ∀ {i : Nat} {l : Leaf}, m i = some l → i < MAXVA / PGSIZE
  flags : ∀ {i : Nat} {l : Leaf}, m i = some l → l.flags &&& PAMASK = 0

/-- The entries that `mappages` adds. -/
theorem TableMap.Ok.add (h : m.Ok) {n pa : Nat} {flags : Pte} (hin : i + n ≤ MAXVA / PGSIZE)
    (hflags : flags &&& PAMASK = 0) : (m.add i n pa flags).Ok := by
  have hcases : ∀ {j : Nat} {l : Leaf}, m.add i n pa flags j = some l →
      (j < MAXVA / PGSIZE ∧ l.flags = flags) ∨ m j = some l := by
    intro j l hj
    unfold TableMap.add at hj
    split at hj
    · obtain rfl := Option.some.inj hj
      exact Or.inl ⟨by omega, rfl⟩
    · exact Or.inr hj
  constructor
  · intro j l hj
    exact (hcases hj).elim (·.1) h.below
  · intro j l hj
    rcases hcases hj with ⟨-, hl⟩ | hl
    · rw [hl, hflags]
    · exact h.flags hl

theorem TableMap.Ok.remove (h : m.Ok) (i n : Nat) : (m.remove i n).Ok := by
  have hcases : ∀ {j : Nat} {l : Leaf}, m.remove i n j = some l → m j = some l := by
    intro j l hj
    unfold TableMap.remove at hj
    split at hj
    · cases hj
    · exact hj
  exact ⟨fun hj => h.below (hcases hj), fun hj => h.flags (hcases hj)⟩

theorem TableMap.Ok.guard (h : m.Ok) (i : Nat) : (m.guard i).Ok := by
  have hcases : ∀ {j : Nat} {l : Leaf}, m.guard i j = some l →
      ∃ l', m j = some l' ∧ (l = l' ∨ l.flags = l'.flags &&& ~~~PTE_PLV) := by
    intro j l hj
    unfold TableMap.guard at hj
    by_cases heq : j = i
    · subst heq
      rw [update_self] at hj
      obtain ⟨l', hl', rfl⟩ := Option.map_eq_some_iff.mp hj
      exact ⟨l', hl', Or.inr rfl⟩
    · rw [update_of_ne heq] at hj
      exact ⟨l, hj, Or.inl rfl⟩
  constructor
  · intro j l hj
    obtain ⟨l', hl', -⟩ := hcases hj
    exact h.below hl'
  · intro j l hj
    obtain ⟨l', hl', rfl | hl⟩ := hcases hj
    · exact h.flags hl'
    · rw [hl, BitVec.and_assoc, BitVec.and_comm _ PAMASK, ← BitVec.and_assoc, h.flags hl']
      exact BitVec.zero_and

theorem wordOf_add (m : TableMap) (i n pa : Nat) (perm : Pte) :
    (fun j => wordOf (m.add i n pa (perm ||| PTE_V) j))
      = addWords (fun j => wordOf (m j)) i n pa perm := by
  funext j
  unfold TableMap.add addWords
  split
  · exact (BitVec.or_assoc _ _ _).symm
  · rfl

theorem wordOf_remove (m : TableMap) (i n : Nat) :
    (fun j => wordOf (m.remove i n j)) = removeWords (fun j => wordOf (m j)) i n := by
  funext j
  unfold TableMap.remove removeWords
  split <;> rfl

/-- The bits of `PTE_PLV` are no bits of the page number. -/
theorem wordOf_clear (l : Option Leaf) :
    wordOf (l.map fun l => { l with flags := l.flags &&& ~~~PTE_PLV })
      = wordOf l &&& ~~~PTE_PLV := by
  cases l with
  | none => exact (BitVec.zero_and).symm
  | some l =>
    show PA2PTE l.pa ||| (l.flags &&& ~~~PTE_PLV) = (PA2PTE l.pa ||| l.flags) &&& ~~~PTE_PLV
    have hpa : PA2PTE l.pa &&& ~~~PTE_PLV = PA2PTE l.pa := by
      unfold PA2PTE
      rw [BitVec.and_assoc, show PAMASK &&& ~~~PTE_PLV = PAMASK by decide]
    rw [BitVec.and_or_distrib_right, hpa]

theorem wordOf_guard (m : TableMap) (i : Nat) :
    (fun j => wordOf (m.guard i j))
      = update (fun j => wordOf (m j)) i (wordOf (m i) &&& ~~~PTE_PLV) := by
  funext j
  unfold TableMap.guard
  by_cases hj : j = i
  · subst hj
    rw [update_self, update_self, wordOf_clear]
  · rw [update_of_ne hj, update_of_ne hj]

theorem TableMap.add_zero (m : TableMap) (i pa : Nat) (flags : Pte) : m.add i 0 pa flags = m :=
  funext fun _ => if_neg (by omega)

/-- The table at `root` holds the map. -/
def HoldsMap (ph : Phys) (root : Nat) (m : TableMap) : Prop :=
  ∃ rest, TableAt ph.mem (root :: rest) fun i => wordOf (m i)

/-- What a walk finds in the table is what the map says. -/
theorem HoldsMap.entryAt {ph : Phys} {root : Nat} (h : HoldsMap ph root m) (hm : m.Ok) (va : Nat) :
    entryAt ph root va = wordOf (m (va / PGSIZE)) := by
  obtain ⟨rest, ht⟩ := h
  by_cases hva : va < MAXVA
  · exact ht.entryAt hva
  · -- beyond `MAXVA` there is no entry on either side
    have hnone : m (va / PGSIZE) = none := by
      by_contra hsome
      obtain ⟨l, hl⟩ := Option.ne_none_iff_exists'.mp hsome
      have hbelow := hm.below hl
      unfold MAXVA PGSIZE at *
      omega
    unfold Proofs.entryAt
    rw [walk_panics hva, hnone]
    rfl

/-- One call on the table is one operation on the map. -/
theorem TableCall.refines {ph : Phys} {root : Nat} (h : HoldsMap ph root m) (hm : m.Ok)
    (hfresh : Fresh ph (tablePages ph.mem 3 root)) {c : TableCall} (hfair : c.Fair root ph) :
    wp (c.exec root) (fun r ph' => ∃ m', c.Maps r m m' ∧ m'.Ok ∧ HoldsMap ph' root m')
      (fun _ => True) ph := by
  obtain ⟨rest, ht⟩ := h
  have ho : Owns ramPages ph (root :: rest) := by
    rw [ht.tablePages] at hfresh
    refine ⟨nodup_append.mpr ⟨hfresh.1, ht.nodup, ?_⟩, ?_⟩
    · rintro pg hpg q hq rfl
      exact (hfresh.2 pg hpg).2 hq
    · intro pg hpg
      exact (mem_append.mp hpg).elim (fun hf => (hfresh.2 pg hf).1) (ht.pages pg)
  cases c with
  | mappages va size pa perm =>
    refine wp_post (ht.mappages ho va size pa perm) ?_
    rintro r ph' ⟨rest', ⟨hr, ht'⟩ | ⟨hr, hin, ht'⟩⟩
    · refine ⟨m, Or.inr ⟨hr, 0, Nat.zero_le _, ?_⟩, hm, rest', ht'⟩
      rw [TableMap.add_zero]
    · refine ⟨_, Or.inl ⟨hr, rfl⟩, hm.add hin ?_, rest', ?_⟩
      · rw [BitVec.and_or_distrib_right, show perm &&& PAMASK = 0 from hfair]
        decide
      · rw [wordOf_add]
        exact ht'
  | uvmunmap va npages do_free =>
    obtain ⟨hwrap, hfree⟩ := hfair
    unfold TableCall.exec Xv6.uvmunmap
    rw [wp_bind]
    split
    · exact trivial
    rename_i halign
    obtain ⟨i, rfl⟩ : ∃ i, va = i * PGSIZE :=
      ⟨va / PGSIZE, (Nat.div_mul_cancel (Nat.dvd_of_mod_eq_zero (not_not.mp halign))).symm⟩
    have hidx : i * PGSIZE / PGSIZE = i := Nat.mul_div_cancel i (by decide)
    rw [Nat.mod_eq_of_lt hwrap, ← Nat.add_mul]
    refine wp_post (uvmunmapLoop_full do_free NVPAGES ht fun hdo k hk => ?_) ?_
    · have hk' := hfree hdo k hk
      rw [ht.tablePages, HoldsMap.entryAt ⟨rest, ht⟩ hm, ← Nat.add_mul,
        Nat.mul_div_cancel _ (by decide)] at hk'
      exact hk'
    · intro _ ph' ht'
      refine ⟨_, rfl, hm.remove _ npages, rest, ?_⟩
      rw [hidx, wordOf_remove]
      exact ht'
  | uvmclear va =>
    unfold TableCall.exec
    rw [wp_bind]
    refine wp_post (ht.uvmclear va) ?_
    intro _ ph' ht'
    refine ⟨_, rfl, hm.guard _, rest, ?_⟩
    rw [wordOf_guard]
    exact ht'
  | walk va alloc =>
    unfold TableCall.exec
    rw [wp_bind]
    by_cases hva : va < MAXVA
    swap
    · exact wp_of_error (walk_panics hva alloc) trivial
    cases alloc with
    | true =>
      obtain ⟨r, ph₁, new, hwalk, h₁, -⟩ := ht.walk_alloc ho hva
      exact wp_of_ok hwalk ⟨m, rfl, hm, rest ++ new, h₁⟩
    | false =>
      by_cases hfull : rest.length = 3
      · exact wp_of_ok (ht.walk_full hfull hva false) ⟨m, rfl, hm, rest, ht⟩
      · have hlen := ht.length
        rw [length_cons] at hlen
        exact wp_of_ok (ht.walk_missing (by omega) hva) ⟨m, rfl, hm, rest, ht⟩

/-- Between the calls on a table, others do not change it. -/
theorem Between.holdsMap {ph ph' : Phys} {root : Nat} (h : Between root ph ph')
    (hmap : HoldsMap ph root m) : HoldsMap ph' root m ∧ Fresh ph' (tablePages ph'.mem 3 root) := by
  obtain ⟨rest, ht⟩ := hmap
  have hkept := h.kept
  have hfresh := h.fresh
  rw [ht.tablePages] at hkept hfresh
  have ht' := ht.congr hkept
  refine ⟨⟨rest, ht'⟩, ?_⟩
  rw [ht'.tablePages]
  exact hfresh

/-- A new table holds the empty map. -/
theorem uvmcreate_holdsMap {ph ph' : Phys} {root : Nat} (hfresh : Fresh ph [])
    (hrun : uvmcreate.run ph = .ok (some root, ph')) : HoldsMap ph' root fun _ => none := by
  cases hlist : ph.freelist with
  | nil =>
    unfold uvmcreate at hrun
    rw [run_bind_ok (kalloc_none hlist)] at hrun
    cases hrun
  | cons pg free =>
    unfold uvmcreate at hrun
    rw [run_bind_ok (kalloc_some hlist)] at hrun
    dsimp only at hrun
    rw [run_bind_ok (memset_run _ _ _ _)] at hrun
    cases hrun
    refine ⟨[], words_fill_zero _ _, fun q hq => ?_, by simp, by simp, fun _ => rfl⟩
    obtain rfl := mem_singleton.mp hq
    exact (hfresh.2 q (by rw [hlist]; exact mem_cons_self)).1

/-- Every run on the table is a run on the map, with the same results. -/
theorem TableRun.mapRun {root : Nat} {ph : Phys} (h : TableRun TableCall.Fair root trace ph) :
    ∃ m, MapRun trace m ∧ m.Ok ∧ HoldsMap ph root m := by
  induction h with
  | create hfresh hrun =>
    exact ⟨_, .create, ⟨nofun, nofun⟩, uvmcreate_holdsMap hfresh hrun⟩
  | call _ henv hok hrun ih =>
    obtain ⟨m, hmaps, hm, hheld⟩ := ih
    obtain ⟨hheld₁, hfresh₁⟩ := henv.holdsMap hheld
    obtain ⟨m', hstep, hm', hheld'⟩ := wp_ok (TableCall.refines hheld₁ hm hfresh₁ hok) hrun
    exact ⟨m', .call hmaps hstep, hm', hheld'⟩

/-! ### A run with one page -/

theorem TableRun.mono {ok ok' : Nat → Phys → TableCall → Prop} {root : Nat} {ph : Phys}
    (hok : ∀ {pt ph c}, ok pt ph c → ok' pt ph c) (h : TableRun ok root trace ph) :
    TableRun ok' root trace ph := by
  induction h with
  | create hfresh hrun => exact .create hfresh hrun
  | call _ henv hc hrun ih => exact .call ih henv (hok hc) hrun

/-- The page at `RAMBASE`, mapped for the user at address 0. -/
def mapFirst : TableCall := .mappages 0 PGSIZE RAMBASE PTE_USER

/-- With three pages left, a new table maps a page. -/
theorem mapFirst_run {root : Nat} {ph : Phys} (h : TableRun TableCall.Fair root [] ph)
    (hwords : Words ph.mem root fun _ => 0) (ho : Owns ramPages ph [root])
    (hfree : 3 ≤ ph.freelist.length) :
    ∃ d ph', TableRun TableCall.Fair d.root [(mapFirst, 0)] ph' ∧
      Chain ph'.mem d (update (fun _ => none) 0 (some ⟨RAMBASE, PTE_USER⟩)) := by
  have htable : TableAt ph.mem [root] fun _ => 0 :=
    ⟨hwords, fun pg hpg => ho.own_valid hpg, nodup_singleton root, by simp, fun _ => rfl⟩
  obtain ⟨hnodup, -, hdisj⟩ := nodup_append.mp ho.nodup
  have henv : Between root ph ph := by
    refine ⟨fun _ _ _ _ => rfl, ?_⟩
    rw [htable.tablePages]
    exact ⟨hnodup, fun pg hpg => ⟨ho.valid pg (mem_append_left _ hpg),
      fun hmem => hdisj pg hpg pg hmem rfl⟩⟩
  have hentry : Entry.Ok ⟨RAMBASE, PTE_USER⟩ :=
    ⟨⟨by unfold IsPage; decide, by decide⟩, by decide⟩
  obtain ⟨r, ph', hmap, ⟨-, hempty, pgs, hlen, -, hm⟩ | ⟨rfl, d, rfl, hc, -⟩⟩ :=
    mappages_fresh hwords ho (show 0 < MAXVA by decide) rfl hentry
  · -- four pages are enough for the four tables
    have hcount := hm.perm.length_eq
    rw [hempty, nil_append, length_append, length_cons, length_singleton]
      at hcount
    omega
  · exact ⟨d, ph', .call h henv (show PTE_USER &&& PAMASK = 0 by decide) hmap, hc⟩

/-- A run that maps the first page. -/
theorem mapFirst_table : ∃ d ph, TableRun TableCall.Fair d.root [(mapFirst, 0)] ph ∧
    Chain ph.mem d (update (fun _ => none) 0 (some ⟨RAMBASE, PTE_USER⟩)) := by
  obtain ⟨root, free, hlist, hlen⟩ : ∃ root free,
      (List.range 4).map (fun k => RAMBASE + k * PGSIZE) = root :: free ∧ free.length = 3 :=
    ⟨_, _, rfl, rfl⟩
  have hvalid : ∀ pg ∈ root :: free, IsPage pg := by
    rw [← hlist]
    intro pg hpg
    obtain ⟨k, hk, rfl⟩ := mem_map.mp hpg
    have hk' := mem_range.mp hk
    unfold IsPage RAMSTOP RAMBASE PGSIZE
    omega
  have hnodup : (root :: free).Nodup := by
    rw [← hlist]
    decide
  have hfree : (PageHeap.mk (fun _ => 0 : Bytes) (root :: free)).freelist = root :: free := rfl
  have hrun : uvmcreate.run ⟨fun _ => 0, root :: free⟩ = _ := run_bind_ok (kalloc_some hfree)
  exact mapFirst_run (.create ⟨hnodup, fun pg hpg =>
      ⟨hvalid pg hpg, not_mem_nil⟩⟩ hrun) (words_fill_zero _ _)
    ⟨(perm_append_singleton root free).nodup_iff.mpr hnodup, fun pg hpg => hvalid pg
      ((perm_append_singleton root free).mem_iff.mp hpg)⟩ (Nat.le_of_eq hlen.symm)

/-! ### The theorem -/

/-- Page tables refine a finite map: what `walk` and reading the entry find after the calls of
`trace` is what the map holds after the same operations, and the page number of an entry is that of
the page that was mapped. -/
theorem table_refines_map {root : Nat} {trace : List (TableCall × Int)} {ph : Phys}
    (h : TableRun TableCall.Fair root trace ph) :
    ∃ m, MapRun trace m ∧ (∀ i, m i ≠ none → i < MAXVA / PGSIZE) ∧
      (∀ va < MAXVA, entryAt ph root va = wordOf (m (va / PGSIZE))) ∧
      ∀ va l, m (va / PGSIZE) = some l → IsPage l.pa →
        dmwin (PTE2PA (entryAt ph root va)) = l.pa := by
  obtain ⟨m, hmaps, hm, hheld⟩ := h.mapRun
  refine ⟨m, hmaps, ?_, fun va _ => hheld.entryAt hm va, ?_⟩
  · intro i hi
    obtain ⟨l, hl⟩ := Option.ne_none_iff_exists'.mp hi
    exact hm.below hl
  · intro va l hl hpage
    rw [hheld.entryAt hm, hl, wordOf, PTE2PA, pte_and_pamask (hm.flags hl), pa2pte_toNat hpage,
      dmwin_phys_zero hpage]

/-- The page after it is mapped too, and then the first one is unmapped. -/
def mapAndUnmap : List (TableCall × Int) :=
  [(mapFirst, 0)] ++ [(.mappages PGSIZE PGSIZE (RAMBASE + PGSIZE) PTE_USER, 0)] ++
    [(.uvmunmap 0 1 false, 0)]

/-- Between two calls of a run the kernel may take all free pages. -/
theorem exists_between (root : Nat) (mem : Bytes) (free : List Nat) :
    ∃ ph', Between root ⟨mem, free⟩ ph' ∧ ph'.mem = mem :=
  ⟨⟨mem, []⟩, ⟨fun _ _ _ _ => rfl, nodup_nil, fun _ hpg => absurd hpg not_mem_nil⟩, rfl⟩

/-- A run that maps two pages and unmaps the first. -/
theorem mapAndUnmap_table : ∃ root ph, TableRun TableCall.Fair root mapAndUnmap ph := by
  obtain ⟨d, ph, h, hc⟩ := mapFirst_table
  obtain ⟨ph₀, henv₀, hmem₀⟩ := exists_between d.root ph.mem ph.freelist
  rw [← hmem₀] at hc
  have hmap : (mappages d.root PGSIZE PGSIZE (RAMBASE + PGSIZE) PTE_USER).run ph₀ = _ :=
    hc.toTables.mappages_run (show PGSIZE < MAXVA by decide) (by decide) PTE_USER rfl
  have hc₁ := hc.write (show PGSIZE / PGSIZE < 512 by decide)
    (o := some ⟨RAMBASE + PGSIZE, PTE_USER⟩) (by
      rintro _ ⟨⟩
      exact ⟨⟨by unfold IsPage; decide, by decide⟩, by decide⟩)
  obtain ⟨ph₁, henv₁, hmem₁⟩ := exists_between d.root
    (putLE ph₀.mem (d.p0 + 8 * (PGSIZE / PGSIZE)) 8 (Entry.pte ⟨RAMBASE + PGSIZE, PTE_USER⟩).toNat)
    ph₀.freelist
  rw [pteOf_some, ← hmem₁] at hc₁
  obtain ⟨ph₂, hunmap, -⟩ := uvmunmap_chain (i := 0) false hc₁
    (fun k e (he : [(⟨RAMBASE, PTE_USER⟩ : Entry)][k]? = some e) => by
      cases k <;> cases he
      rfl) (by decide) nofun
  exact ⟨d.root, ph₂, .call (.call h henv₀ (show PTE_USER &&& PAMASK = 0 by decide) hmap)
    henv₁ ⟨by decide, nofun⟩ (run_bind_ok hunmap)⟩

/-- The run that maps two pages and unmaps the first. -/
theorem table_refines_map_mapAndUnmap :
    ∃ root ph, TableRun TableCall.Fair root mapAndUnmap ph ∧
      ∃ m, MapRun mapAndUnmap m ∧ (∀ i, m i ≠ none → i < MAXVA / PGSIZE) ∧
        (∀ va < MAXVA, entryAt ph root va = wordOf (m (va / PGSIZE))) ∧
        ∀ va l, m (va / PGSIZE) = some l → IsPage l.pa →
          dmwin (PTE2PA (entryAt ph root va)) = l.pa := by
  obtain ⟨root, ph, h⟩ := mapAndUnmap_table
  exact ⟨root, ph, h, table_refines_map h⟩

/-- `npages * PGSIZE` is `2 ^ 64`: the loop of `uvmunmap` ends where it starts. -/
def unmapAll : TableCall := .uvmunmap 0 (2 ^ 52) false

theorem unmapAll_run (root : Nat) (ph : Phys) : (unmapAll.exec root).run ph = .ok (0, ph) := by
  have hstop : (0 + 2 ^ 52 * PGSIZE) % 2 ^ 64 = 0 := by decide
  have hloop : (uvmunmap root 0 (2 ^ 52) false).run ph = .ok ((), ph) := by
    unfold uvmunmap
    rw [if_neg (by decide), hstop, nvpages, uvmunmapLoop, if_neg (by decide)]
    rfl
  unfold unmapAll TableCall.exec
  rw [run_bind_ok hloop]
  rfl

theorem MapRun.last {c : TableCall} {r : Int} (h : MapRun (trace ++ [(c, r)]) m) :
    ∃ m₀, c.Maps r m₀ m := by
  generalize htrace : trace ++ [(c, r)] = trace' at h
  cases h with
  | create => exact absurd htrace (by simp)
  | call _ hstep =>
    cases (append_inj' htrace rfl).2
    exact ⟨_, hstep⟩

/-- The call that should remove `2 ^ 52` pages returns, and the page is still there. -/
theorem unmap_wraps :
    ∃ root trace ph, TableRun (fun _ _ _ => True) root trace ph ∧
      ¬ ∃ m, MapRun trace m ∧ ∀ va < MAXVA, entryAt ph root va = wordOf (m (va / PGSIZE)) := by
  obtain ⟨d, ph, h, hc⟩ := mapFirst_table
  obtain ⟨ph', henv, hmem⟩ := exists_between d.root ph.mem ph.freelist
  rw [← hmem] at hc
  have hentry : entryAt ph' d.root 0 ≠ 0 := by
    rw [hc.toTables.entryAt_va (by decide)]
    exact show Entry.pte ⟨RAMBASE, PTE_USER⟩ ≠ 0 by decide
  refine ⟨d.root, [(mapFirst, 0)] ++ [(unmapAll, 0)], ph',
    .call (h.mono fun _ => trivial) henv trivial (unmapAll_run d.root _), ?_⟩
  -- the second removes nothing, and by the map it removes everything
  rintro ⟨m', hmaps', hread⟩
  obtain ⟨m₁, rfl⟩ := hmaps'.last
  apply hentry
  rw [hread 0 (by decide)]
  unfold TableMap.remove
  rw [if_pos (by decide)]
  rfl

end Xv6.Proofs
