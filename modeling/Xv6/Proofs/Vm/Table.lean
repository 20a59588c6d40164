import Xv6.Lib.Wp
import Xv6.Proofs.Vm.Pte

/-!
# `Xv6.Proofs.Vm.Table`: page tables in memory

`MAXVA` is 1 MiB, so the indices of levels 3, 2 and 1 are 0 for every virtual address and a page
table is a chain of four pages (`Dirs`): each of the first three has one entry, for the next, and
the last one maps the pages. `Tables mem d m` says that memory holds such a table for the map `m`,
and `Chain mem d m` that every entry is a leaf besides, as it is in the table of a process. While a
table is built or torn down it is a shorter chain with nothing in the last page (`EmptyChain`).

For a complete table `walk` is a computation without effects (`Tables.walk_run`), and the other
functions change the map at one index. Only `uvmunmap` asks for leaves (`uvmunmap_tables`).
-/

set_option autoImplicit false

namespace Xv6.Proofs

open Lib List
open Function (update update_of_ne update_self)

variable {a i pa pg va : Nat} {mem mem' : Bytes} {rest : List Nat}

/-! ### Words of a page -/

theorem pteAt_congr (h : ∀ x, a ≤ x → x < a + 8 → mem' x = mem x) : pteAt mem' a = pteAt mem a := by
  unfold pteAt
  rw [getLE_congr h]

theorem pteAt_putLE_self (mem : Bytes) (a : Nat) (v : Pte) :
    pteAt (putLE mem a 8 v.toNat) a = v := by
  unfold pteAt
  have hlt : v.toNat < 256 ^ 8 := v.isLt
  rw [getLE_putLE_self, Nat.mod_eq_of_lt hlt, BitVec.ofNat_toNat, BitVec.setWidth_eq]

theorem pteAt_putLE_of_disjoint {b v : Nat} (h : b + 8 ≤ a ∨ a + 8 ≤ b) :
    pteAt (putLE mem a 8 v) b = pteAt mem b := by
  unfold pteAt
  rw [getLE_putLE_of_disjoint h]

/-- The 512 words of page `pg`. -/
def Words (mem : Bytes) (pg : Nat) (f : Nat → Pte) : Prop :=
  ∀ i, i < 512 → pteAt mem (pg + 8 * i) = f i

/-- The words depend on the page only. -/
theorem Words.congr {f : Nat → Pte} (h : Words mem pg f)
    (hmem : ∀ a, InPage ramPages pg a → mem' a = mem a) : Words mem' pg f := by
  intro i hi
  rw [← h i hi]
  refine pteAt_congr fun x hx hx' => hmem x ⟨by omega, ?_⟩
  show x < pg + 4096
  omega

theorem Words.write {f : Nat → Pte} (h : Words mem pg f) (i : Nat) (v : Pte) :
    Words (putLE mem (pg + 8 * i) 8 v.toNat) pg (update f i v) := by
  intro j hj
  by_cases hji : j = i
  · subst hji
    rw [pteAt_putLE_self, update_self]
  · rw [pteAt_putLE_of_disjoint (by omega), update_of_ne hji, h j hj]

/-- A write of a word stays in its page. -/
theorem putLE_outside {v : Nat} (hi : i < 512) (ha : ¬ InPage ramPages pg a) :
    putLE mem (pg + 8 * i) 8 v a = mem a := by
  refine putLE_apply_of_not_mem ?_
  unfold InPage at ha
  have hsize : ramPages.size = 4096 := rfl
  rw [hsize] at ha
  omega

/-- The words of a directory with one entry, for the table `page`. -/
def onlyDir (page i : Nat) : Pte := if i = 0 then dirPte page else 0

theorem readPte_run (ph : Phys) (a : Nat) : (readPte a).run ph = .ok (pteAt ph.mem a, ph) := rfl

theorem writePte_run (ph : Phys) (a : Nat) (v : Pte) :
    (writePte a v).run ph = .ok ((), ⟨putLE ph.mem a 8 v.toNat, ph.freelist⟩) := rfl

@[simp] theorem pteOf_none : pteOf none = 0 := rfl

@[simp] theorem pteOf_some (e : Entry) : pteOf (some e) = Entry.pte e := rfl

/-! ### `kalloc` and `kfree` -/

/-- Memory after `memset`. -/
def fill (mem : Bytes) (dst : Nat) (c : UInt8) (n : Nat) : Bytes :=
  fun a => if dst ≤ a ∧ a < dst + n then c else mem a

theorem fill_outside {c : UInt8} (ha : ¬ InPage ramPages pg a) : fill mem pg c PGSIZE a = mem a :=
  if_neg ha

/-- A page filled with zeros. -/
theorem words_fill_zero (mem : Bytes) (pg : Nat) :
    Words (fill mem pg 0 PGSIZE) pg fun _ => 0 := by
  intro i hi
  have hzero : getLE (fill mem pg 0 PGSIZE) (pg + 8 * i) 8 = getLE (fun _ => 0) (pg + 8 * i) 8 :=
    getLE_congr fun x hx hx' => if_pos ⟨by omega, by unfold PGSIZE; omega⟩
  unfold pteAt
  rw [hzero, getLE_zero]
  rfl

theorem kfree_run {ph : Phys} (h : IsPage pa) :
    (kfree pa).run ph = .ok ((), ⟨fill ph.mem pa 1 PGSIZE, pa :: ph.freelist⟩) := by
  unfold kfree
  rw [if_neg (by have := h.1; have := h.2.1; have := h.2.2; omega)]
  rfl

theorem kalloc_none {ph : Phys} (h : ph.freelist = []) : kalloc.run ph = .ok (none, ph) := by
  obtain ⟨mem, freelist⟩ := ph
  obtain rfl : freelist = [] := h
  rfl

theorem kalloc_some {ph : Phys} (h : ph.freelist = pg :: rest) :
    kalloc.run ph = .ok (some pg, ⟨fill ph.mem pg 5 PGSIZE, rest⟩) := by
  obtain ⟨mem, freelist⟩ := ph
  obtain rfl : freelist = pg :: rest := h
  rfl

/-- `kfree` gives back a page in use. -/
theorem moves_kfree {ph : Phys} {own : List Nat} :
    Moves ramPages ph (pg :: own) ⟨fill ph.mem pg 1 PGSIZE, pg :: ph.freelist⟩ own :=
  Moves.free fun _ ha => fill_outside ha

/-- `kalloc` takes a page. -/
theorem moves_kalloc {ph : Phys} (h : ph.freelist = pg :: rest) (own : List Nat) :
    Moves ramPages ph own ⟨fill ph.mem pg 5 PGSIZE, rest⟩ (pg :: own) :=
  Moves.alloc h fun _ ha => fill_outside ha

/-- `kalloc` followed by `memset(page, 0, PGSIZE)`. -/
theorem moves_kalloc_zero {ph : Phys} (h : ph.freelist = pg :: rest) (own : List Nat) :
    Moves ramPages ph own ⟨fill (fill ph.mem pg 5 PGSIZE) pg 0 PGSIZE, rest⟩ (pg :: own) :=
  Moves.alloc h fun _ ha => (fill_outside ha).trans (fill_outside ha)

/-! ### Complete chains -/

/-- The four pages of a page table. -/
structure Dirs where
  root : Nat
  p2 : Nat
  p1 : Nat
  p0 : Nat

def Dirs.list (d : Dirs) : List Nat := [d.root, d.p2, d.p1, d.p0]

/-- Which pages are mapped, by index. -/
abbrev PageMap := Nat → Option Entry

/-- Memory holds the page table `d` for the map `m`. -/
structure Tables (mem : Bytes) (d : Dirs) (m : PageMap) : Prop where
  root : Words mem d.root (onlyDir d.p2)
  p2 : Words mem d.p2 (onlyDir d.p1)
  p1 : Words mem d.p1 (onlyDir d.p0)
  p0 : Words mem d.p0 fun i => pteOf (m i)
  pages : ∀ pg ∈ d.list, IsPage pg
  nodup : d.list.Nodup
  valid : ∀ i e, m i = some e → Entry.Valid e

/-- Memory holds the page table `d` for the map `m`, and what it maps are leaves. -/
structure Chain (mem : Bytes) (d : Dirs) (m : PageMap) : Prop extends Tables mem d m where
  leaf : ∀ i e, m i = some e → Entry.Leaf e

theorem Chain.ok {d : Dirs} {m : PageMap} (h : Chain mem d m) (i : Nat) (e : Entry)
    (hm : m i = some e) : Entry.Ok e := ⟨h.valid i e hm, h.leaf i e hm⟩

/-- The table depends on its four pages only. -/
theorem Tables.congr {d : Dirs} {m : PageMap} (h : Tables mem d m)
    (hmem : ∀ pg ∈ d.list, ∀ a, InPage ramPages pg a → mem' a = mem a) : Tables mem' d m :=
  { h with
    root := h.root.congr (hmem _ (by simp [Dirs.list]))
    p2 := h.p2.congr (hmem _ (by simp [Dirs.list]))
    p1 := h.p1.congr (hmem _ (by simp [Dirs.list]))
    p0 := h.p0.congr (hmem _ (by simp [Dirs.list])) }

theorem Chain.congr {d : Dirs} {m : PageMap} (h : Chain mem d m)
    (hmem : ∀ pg ∈ d.list, ∀ a, InPage ramPages pg a → mem' a = mem a) : Chain mem' d m :=
  ⟨h.toTables.congr hmem, h.leaf⟩

/-- The table survives what happens to other pages. -/
theorem Chain.kept {ph ph' : Phys} {d : Dirs} {m : PageMap} {own own' : List Nat}
    (h : Chain ph.mem d m) (hm : Moves ramPages ph own ph' own')
    (ho : Owns ramPages ph (own ++ rest)) (hd : ∀ pg ∈ d.list, pg ∈ rest) : Chain ph'.mem d m :=
  h.congr fun pg hpg _ ha => hm.kept ho (hd pg hpg) ha

/-- Writes outside the four pages do not matter. -/
theorem Tables.other {d : Dirs} {m : PageMap} (h : Tables mem d m) {q : Nat} (hq : IsPage q)
    (hqd : q ∉ d.list) (hmem : ∀ a, ¬ InPage ramPages q a → mem' a = mem a) : Tables mem' d m := by
  refine h.congr fun pg hpg a ha => hmem a fun hqa => hqd ?_
  have heq : pg = q := inPage_unique (K := ramPages) (h.pages pg hpg) hq ha hqa
  exact heq ▸ hpg

theorem Chain.other {d : Dirs} {m : PageMap} (h : Chain mem d m) {q : Nat} (hq : IsPage q)
    (hqd : q ∉ d.list) (hmem : ∀ a, ¬ InPage ramPages q a → mem' a = mem a) : Chain mem' d m :=
  ⟨h.toTables.other hq hqd hmem, h.leaf⟩

/-- The map changes at one index when its word is written. -/
theorem Tables.write {d : Dirs} {m : PageMap} (h : Tables mem d m) (hi : i < 512)
    {o : Option Entry} (ho : ∀ e, o = some e → Entry.Valid e) :
    Tables (putLE mem (d.p0 + 8 * i) 8 (pteOf o).toNat) d (update m i o) := by
  have hnodup := h.nodup
  have hp0 : IsPage d.p0 := h.pages _ (by simp [Dirs.list])
  -- the other three tables are on other pages
  have hother : ∀ pg ∈ [d.root, d.p2, d.p1], ∀ f, Words mem pg f →
      Words (putLE mem (d.p0 + 8 * i) 8 (pteOf o).toNat) pg f := by
    intro pg hpg f hw
    refine hw.congr fun a ha => putLE_outside hi fun ha' => ?_
    have hpg' : IsPage pg := h.pages pg (by simp only [Dirs.list, mem_cons] at hpg ⊢; tauto)
    have heq : pg = d.p0 := inPage_unique (K := ramPages) hpg' hp0 ha ha'
    simp only [Dirs.list, nodup_cons, mem_cons, not_mem_nil, or_false,
      not_or] at hnodup hpg
    omega
  refine
    { root := hother _ (by simp) _ h.root
      p2 := hother _ (by simp) _ h.p2
      p1 := hother _ (by simp) _ h.p1
      p0 := ?_
      pages := h.pages
      nodup := h.nodup
      valid := ?_ }
  · have hw := h.p0.write i (pteOf o)
    intro j hj
    rw [hw j hj]
    show _ = pteOf (update m i o j)
    by_cases hji : j = i
    · subst hji
      rw [update_self, update_self]
    · rw [update_of_ne hji, update_of_ne hji]
  · intro j e he
    by_cases hji : j = i
    · subst hji
      rw [update_self] at he
      exact ho e he
    · rw [update_of_ne hji] at he
      exact h.valid j e he

/-- An entry of the last table is written. -/
theorem Chain.write {d : Dirs} {m : PageMap} (h : Chain mem d m) (hi : i < 512) {o : Option Entry}
    (ho : ∀ e, o = some e → Entry.Ok e) :
    Chain (putLE mem (d.p0 + 8 * i) 8 (pteOf o).toNat) d (update m i o) := by
  refine ⟨h.toTables.write hi fun e he => (ho e he).toValid, fun j e he => ?_⟩
  by_cases hji : j = i
  · subst hji
    rw [update_self] at he
    exact (ho e he).leaf
  · rw [update_of_ne hji] at he
    exact h.leaf j e he

/-! ### `walk` -/

theorem px_zero (h : va < MAXVA) : PX 0 va = va / PGSIZE := by
  unfold PX PGSIZE
  unfold MAXVA at h
  omega

theorem px_succ (h : va < MAXVA) (level : Nat) : PX (level + 1) va = 0 := by
  unfold PX
  unfold MAXVA at h
  have hpow : 2 ^ 20 ≤ 2 ^ (12 + 9 * (level + 1)) := Nat.pow_le_pow_right (by omega) (by omega)
  rw [Nat.div_eq_of_lt (by omega)]

/-- A directory with one entry leads to the next table. -/
theorem walkLevels_dir {ph : Phys} {level next : Nat} {alloc : Bool} (hva : va < MAXVA)
    (hw : Words ph.mem pg (onlyDir next)) (hnext : IsPage next) :
    (walkLevels va alloc (level + 1) pg).run ph = (walkLevels va alloc level next).run ph := by
  have hread : pteAt ph.mem (pg + 8 * PX (level + 1) va) = dirPte next := by
    rw [px_succ hva, hw 0 (by omega)]
    rfl
  rw [walkLevels, run_bind_ok (readPte_run _ _), hread, if_pos (dirPte_v next), dirPte_dmwin hnext]

/-- In a complete table `walk` finds the entry and changes nothing. -/
theorem Tables.walk_run {ph : Phys} {d : Dirs} {m : PageMap} (hc : Tables ph.mem d m)
    (hva : va < MAXVA) (alloc : Bool) :
    (walk d.root va alloc).run ph = .ok (some (d.p0 + 8 * (va / PGSIZE)), ph) := by
  unfold walk
  rw [if_neg (by omega), walkLevels_dir hva hc.root (hc.pages _ (by simp [Dirs.list])),
    walkLevels_dir hva hc.p2 (hc.pages _ (by simp [Dirs.list])),
    walkLevels_dir hva hc.p1 (hc.pages _ (by simp [Dirs.list]))]
  rw [walkLevels, px_zero hva]
  rfl

theorem index_lt (h : va < MAXVA) : va / PGSIZE < 512 := by
  unfold MAXVA at h
  unfold PGSIZE
  omega

/-- The word that `walk` finds. -/
theorem Tables.word {d : Dirs} {m : PageMap} (hc : Tables mem d m) (hva : va < MAXVA) :
    pteAt mem (d.p0 + 8 * (va / PGSIZE)) = pteOf (m (va / PGSIZE)) :=
  hc.p0 _ (index_lt hva)

/-- What is found by `walk` and reading the entry. There is none beyond `MAXVA` or where a table is
missing. -/
def entryAt (ph : Phys) (pagetable va : Nat) : Pte :=
  match (walk pagetable va false).run ph with
  | .ok (some a, _) => pteAt ph.mem a
  | _ => 0

theorem Tables.entryAt_va {ph : Phys} {d : Dirs} {m : PageMap} (hc : Tables ph.mem d m)
    (hva : va < MAXVA) : entryAt ph d.root va = pteOf (m (va / PGSIZE)) := by
  unfold entryAt
  rw [hc.walk_run hva]
  show pteAt ph.mem _ = _
  rw [hc.word hva]

theorem entryAt_chain {ph : Phys} {d : Dirs} {m : PageMap} (hc : Chain ph.mem d m)
    (hi : i < MAXVA / PGSIZE) : entryAt ph d.root (i * PGSIZE) = pteOf (m i) := by
  have hva : i * PGSIZE < MAXVA := by
    unfold MAXVA PGSIZE at *
    omega
  rw [hc.entryAt_va hva, Nat.mul_div_cancel i (by decide)]

/-- The physical address that `walkaddr` returns for an entry. -/
def userAddr : Option Entry → Nat
  | none => 0
  | some e => if e.flags &&& PTE_PLV = 0 then 0 else phys e.page

/-- `walkaddr` finds the page of a user address. -/
theorem walkaddr_chain {ph : Phys} {d : Dirs} {m : PageMap} (hc : Chain ph.mem d m) (va : Nat) :
    (walkaddr d.root va).run ph
      = .ok (if va < MAXVA then userAddr (m (va / PGSIZE)) else 0, ph) := by
  unfold walkaddr
  by_cases hva : va < MAXVA
  · rw [if_neg (by omega), if_pos hva, run_bind_ok (hc.walk_run hva false)]
    dsimp only
    rw [run_bind_ok (readPte_run _ _), hc.word hva]
    cases hm : m (va / PGSIZE) with
    | none => rfl
    | some e =>
      rw [pteOf_some, if_neg (Entry.pte_v e), Entry.pte_plv, (hc.ok _ e hm).pte2pa, userAddr]
      by_cases hplv : e.flags &&& PTE_PLV = 0
      · rw [if_pos hplv, if_pos hplv]
        rfl
      · rw [if_neg hplv, if_neg hplv]
        rfl
  · rw [if_pos (by omega), if_neg hva]
    rfl

/-! ### `mappages` of one page -/

/-- A page at a page boundary. -/
theorem pgrounddown_page (h : va % PGSIZE = 0) (hva : va < MAXVA) :
    PGROUNDDOWN va = va ∧ PGROUNDDOWN ((va + PGSIZE - 1) % 2 ^ 64) = va := by
  unfold PGROUNDDOWN
  unfold MAXVA at hva
  unfold PGSIZE at h ⊢
  omega

theorem nvpages : NVPAGES = 256 + 1 := rfl

theorem mappages_page {pagetable : Nat} {perm : Pte} (h : va % PGSIZE = 0) (hva : va < MAXVA) :
    mappages pagetable va PGSIZE pa perm
      = mappagesLoop pagetable va perm NVPAGES va pa := by
  unfold mappages
  rw [if_neg (by decide), (pgrounddown_page h hva).1, (pgrounddown_page h hva).2]

/-- `mappages` of one page writes its entry. -/
theorem Tables.mappages_run {ph : Phys} {d : Dirs} {m : PageMap} (hc : Tables ph.mem d m)
    (hva : va < MAXVA) (halign : va % PGSIZE = 0) (perm : Pte) (hm : m (va / PGSIZE) = none) :
    (mappages d.root va PGSIZE pa perm).run ph
      = .ok (0, ⟨putLE ph.mem (d.p0 + 8 * (va / PGSIZE)) 8 (PA2PTE pa ||| perm ||| PTE_V).toNat,
          ph.freelist⟩) := by
  rw [mappages_page halign hva, nvpages, mappagesLoop, run_bind_ok (hc.walk_run hva true)]
  dsimp only
  rw [run_bind_ok (readPte_run _ _), hc.word hva, hm, pteOf_none, if_neg (by decide),
    run_bind_ok (writePte_run _ _ _), if_pos rfl]
  rfl

/-- `mappages` panics if the page is mapped. -/
theorem Tables.mappages_remap {ph : Phys} {d : Dirs} {m : PageMap} (hc : Tables ph.mem d m)
    (hva : va < MAXVA) (halign : va % PGSIZE = 0) (perm : Pte) {e : Entry}
    (hm : m (va / PGSIZE) = some e) :
    (mappages d.root va PGSIZE pa perm).run ph = .error .remap := by
  rw [mappages_page halign hva, nvpages, mappagesLoop, run_bind_ok (hc.walk_run hva true)]
  dsimp only
  rw [run_bind_ok (readPte_run _ _), hc.word hva, hm, pteOf_some, if_pos (Entry.pte_v e)]
  rfl

/-! ### `uvmunmap` -/

/-- The map without the `n` pages from index `i` on. -/
def clear (m : PageMap) (i n : Nat) : PageMap := fun j => if i ≤ j ∧ j < i + n then none else m j

theorem clear_zero (m : PageMap) (i : Nat) : clear m i 0 = m := by
  funext j
  unfold clear
  rw [if_neg (by omega)]

theorem clear_succ (m : PageMap) (i n : Nat) :
    clear (update m i none) (i + 1) n = clear m i (n + 1) := by
  funext j
  unfold clear
  by_cases hj : j = i
  · subst hj
    rw [if_neg (by omega), if_pos (by omega), update_self]
  · rw [update_of_ne hj]
    exact if_congr (by omega) rfl rfl

/-- The pages that `uvmunmap` frees. -/
def freed (do_free : Bool) (es : List Entry) : List Nat :=
  if do_free then es.map Entry.page else []

theorem freed_cons (do_free : Bool) (e : Entry) (es : List Entry) :
    freed do_free (e :: es) = freed do_free [e] ++ freed do_free es := by
  cases do_free <;> rfl

section Unmap

variable {d : Dirs} {m : PageMap} {ph : Phys} {do_free : Bool} {e : Entry}

/-- What a round of `uvmunmap` does with the entry that it finds. -/
theorem Tables.uvmunmapLoop_eq (hc : Tables ph.mem d m) (do_free : Bool) {stop : Nat}
    (rounds : Nat) (hi : i < 256) (hstop : i * PGSIZE < stop) (hm : m i = some e) :
    (uvmunmapLoop d.root stop do_free (rounds + 1) (i * PGSIZE)).run ph
      = if PTE_FLAGS (Entry.pte e) = PTE_V then .error .unmapDir
        else (do
          if do_free then kfree e.page
          writePte (d.p0 + 8 * i) 0
          uvmunmapLoop d.root stop do_free rounds ((i + 1) * PGSIZE)).run ph := by
  have hva : i * PGSIZE < MAXVA := by
    unfold PGSIZE MAXVA
    omega
  have hidx : i * PGSIZE / PGSIZE = i := Nat.mul_div_cancel i (by decide)
  rw [uvmunmapLoop, if_pos hstop, run_bind_ok (hc.walk_run hva false)]
  dsimp only
  rw [run_bind_ok (readPte_run _ _), hc.word hva, hidx, hm, pteOf_some, if_neg (Entry.pte_v e),
    (hc.valid i e hm).dmwin, ← Nat.succ_mul]
  split <;> rfl

/-- One round: the entry at index `i` is cleared, and its page is freed if asked for. -/
theorem Tables.uvmunmapLoop_round (hc : Tables ph.mem d m) {stop : Nat} (rounds : Nat)
    (hi : i < 256) (hstop : i * PGSIZE < stop) (hm : m i = some e) (hleaf : Entry.Leaf e)
    (hpage : do_free = true → e.page ∉ d.list) :
    ∃ ph', (uvmunmapLoop d.root stop do_free (rounds + 1) (i * PGSIZE)).run ph
        = (uvmunmapLoop d.root stop do_free rounds ((i + 1) * PGSIZE)).run ph' ∧
      Tables ph'.mem d (update m i none) ∧
      Moves ramPages ph (d.list ++ freed do_free [e]) ph' d.list := by
  have hvalid := hc.valid i e hm
  have hp0 : d.p0 ∈ d.list := by simp [Dirs.list]
  rw [hc.uvmunmapLoop_eq do_free rounds hi hstop hm, if_neg (hvalid.flags_ne_iff.mpr hleaf)]
  cases do_free with
  | false =>
    refine ⟨_, rfl, hc.write (by omega) (o := none) nofun, ?_⟩
    rw [show freed false [e] = [] from rfl, append_nil]
    exact Moves.write hp0 fun a ha => putLE_outside (by omega) ha
  | true =>
    rw [if_pos rfl, run_bind_ok (kfree_run hvalid.page)]
    -- the freed page is not a page of the table
    have hc' : Tables (fill ph.mem e.page 1 PGSIZE) d m :=
      hc.other hvalid.page (hpage rfl) fun a ha => fill_outside ha
    refine ⟨_, rfl, hc'.write (by omega) (o := none) nofun, ?_⟩
    have hfree : Moves ramPages ph (d.list ++ [e.page])
        ⟨fill ph.mem e.page 1 PGSIZE, e.page :: ph.freelist⟩ d.list :=
      (Moves.of_perm (perm_append_singleton _ _).symm).trans moves_kfree
    exact hfree.trans (Moves.write hp0 fun a ha => putLE_outside (by omega) ha)

/-- All rounds: the pages of `es`, from index `i` on, are unmapped, up to one that is no leaf. -/
theorem Tables.uvmunmapLoop_spec (es : List Entry) :
    ∀ {ph : Phys} {m : PageMap} {i rounds : Nat}, Tables ph.mem d m →
      (∀ k e, es[k]? = some e → m (i + k) = some e) → i + es.length ≤ 256 →
      es.length < rounds → (do_free = true → Owns ramPages ph (d.list ++ es.map Entry.page)) →
      wp (uvmunmapLoop d.root ((i + es.length) * PGSIZE) do_free rounds (i * PGSIZE))
        (fun _ ph' => (∀ e ∈ es, Entry.Leaf e) ∧ Tables ph'.mem d (clear m i es.length) ∧
          Moves ramPages ph (d.list ++ freed do_free es) ph' d.list)
        (fun _ => ∃ e ∈ es, ¬ Entry.Leaf e) ph := by
  induction es with
  | nil =>
    intro ph m i rounds hc _ _ hr _
    obtain ⟨r, rfl⟩ : ∃ r, rounds = r + 1 := ⟨rounds - 1, by simp at hr; omega⟩
    rw [uvmunmapLoop, if_neg (by simp)]
    refine wp_of_ok rfl ⟨nofun, ?_, ?_⟩
    · rw [length_nil, clear_zero]
      exact hc
    · have hnil : freed do_free [] = [] := by cases do_free <;> rfl
      rw [hnil, append_nil]
      exact Moves.refl ph d.list
  | cons e es ih =>
    intro ph m i rounds hc hes hi hr ho
    obtain ⟨r, rfl⟩ : ∃ r, rounds = r + 1 := ⟨rounds - 1, by simp at hr; omega⟩
    have hlen : (e :: es).length = es.length + 1 := rfl
    have hstop : i * PGSIZE < (i + (e :: es).length) * PGSIZE :=
      Nat.mul_lt_mul_of_pos_right (by omega) (by decide)
    have hi' : i < 256 := by omega
    have hm := hes 0 e rfl
    by_cases hleaf : Entry.Leaf e
    swap
    · have hdir := not_not.mp ((hc.valid i e hm).flags_ne_iff.not.mpr hleaf)
      have hrun := hc.uvmunmapLoop_eq do_free r hi' hstop hm
      rw [if_pos hdir] at hrun
      exact wp_of_error hrun ⟨e, mem_cons_self, hleaf⟩
    have hpage : do_free = true → e.page ∉ d.list := by
      intro hf hmem
      have hnodup := (nodup_append.mp (ho hf).nodup).2.1
      exact (nodup_append.mp hnodup).2.2 _ hmem _ (by simp) rfl
    obtain ⟨ph₁, hrun, hc₁, hm₁⟩ := hc.uvmunmapLoop_round r hi' hstop hm hleaf hpage
    have hm₁' : Moves ramPages ph (d.list ++ freed do_free (e :: es)) ph₁
        (d.list ++ freed do_free es) := by
      rw [freed_cons, ← append_assoc]
      exact hm₁.frame _
    have hes' : ∀ k x, es[k]? = some x → update m i none (i + 1 + k) = some x := by
      intro k x hx
      rw [update_of_ne (by omega), Nat.add_assoc, Nat.add_comm 1 k]
      exact hes (k + 1) x hx
    have ho' : do_free = true → Owns ramPages ph₁ (d.list ++ es.map Entry.page) := by
      intro hf
      subst hf
      exact (ho rfl).moves hm₁'
    have hrec := ih hc₁ hes' (by omega) (show es.length < r by omega) ho'
    rw [Nat.add_right_comm i 1, Nat.add_assoc i, ← hlen] at hrec
    unfold wp at hrec ⊢
    rw [hrun]
    refine wp_mono hrec (fun _ ph' ⟨hleaves, hc', hm'⟩ => ?_) fun _ ⟨x, hx, hnot⟩ =>
      ⟨x, mem_cons_of_mem _ hx, hnot⟩
    refine ⟨forall_mem_cons.mpr ⟨hleaf, hleaves⟩, ?_, hm₁'.trans hm'⟩
    rw [hlen, ← clear_succ]
    exact hc'

/-- `uvmunmap` of the pages `es` from index `i` on. -/
theorem uvmunmap_tables (do_free : Bool) {es : List Entry} (hc : Tables ph.mem d m)
    (hes : ∀ k e, es[k]? = some e → m (i + k) = some e) (hi : i + es.length ≤ 256)
    (ho : do_free = true → Owns ramPages ph (d.list ++ es.map Entry.page)) :
    wp (uvmunmap d.root (i * PGSIZE) es.length do_free)
      (fun _ ph' => (∀ e ∈ es, Entry.Leaf e) ∧ Tables ph'.mem d (clear m i es.length) ∧
        Moves ramPages ph (d.list ++ freed do_free es) ph' d.list)
      (fun _ => ∃ e ∈ es, ¬ Entry.Leaf e) ph := by
  have hstop : (i * PGSIZE + es.length * PGSIZE) % 2 ^ 64 = (i + es.length) * PGSIZE := by
    unfold PGSIZE
    omega
  unfold uvmunmap
  rw [if_neg (by rw [Nat.mul_mod_left]; simp), hstop, nvpages]
  exact Tables.uvmunmapLoop_spec es hc hes hi (by omega) ho

/-- `uvmunmap` clears the entries, and frees the pages if it is told to. -/
theorem uvmunmap_chain (do_free : Bool) {es : List Entry} (hc : Chain ph.mem d m)
    (hes : ∀ k e, es[k]? = some e → m (i + k) = some e) (hi : i + es.length ≤ 256)
    (ho : do_free = true → Owns ramPages ph (d.list ++ es.map Entry.page)) :
    ∃ ph', (uvmunmap d.root (i * PGSIZE) es.length do_free).run ph = .ok ((), ph') ∧
      Chain ph'.mem d (clear m i es.length) ∧
      Moves ramPages ph (d.list ++ freed do_free es) ph' d.list := by
  have hleaf : ∀ e ∈ es, Entry.Leaf e := by
    intro e he
    obtain ⟨k, hk⟩ := mem_iff_getElem?.mp he
    exact hc.leaf _ e (hes k e hk)
  have hwp := uvmunmap_tables do_free hc.toTables hes hi ho
  obtain ⟨_, ph', hrun, -, ht, hm⟩ := wp_returns (wp_mono hwp (fun _ _ h => h)
    fun _ ⟨e, he, hnot⟩ => hnot (hleaf e he))
  refine ⟨ph', hrun, ⟨ht, fun j e he => hc.leaf j e ?_⟩, hm⟩
  unfold clear at he
  split at he
  · cases he
  · exact he

end Unmap

/-! ### Building and freeing a table -/

/-- A chain of directories with nothing in the last one. -/
def EmptyChain (mem : Bytes) : List Nat → Prop
  | [] => False
  | [pg] => Words mem pg fun _ => 0
  | pg :: next :: rest => Words mem pg (onlyDir next) ∧ EmptyChain mem (next :: rest)

/-- The loop of `freewalk` passes over entries that are 0. -/
theorem freewalk_skip (free : Nat → VmM Unit) (ph : Phys) {xs : List Nat}
    (h : ∀ i ∈ xs, pteAt ph.mem (pg + 8 * i) = 0) :
    (xs.forM (freewalkEntry free pg)).run ph = .ok ((), ph) := by
  induction xs with
  | nil => rfl
  | cons i xs ih =>
    have hhead : (freewalkEntry free pg i).run ph = .ok ((), ph) := by
      rw [freewalkEntry, run_bind_ok (readPte_run _ _), h i (by simp), if_neg (by decide),
        if_neg (by decide)]
      rfl
    rw [forM_eq_forM, forM_cons, run_bind_ok hhead]
    exact ih fun j hj => h j (mem_cons_of_mem _ hj)

/-- Entry 0 of a directory in a chain. -/
theorem freewalk_dir {ph ph' : Phys} {next : Nat} {free : Nat → VmM Unit}
    (hw : Words ph.mem pg (onlyDir next)) (hnext : IsPage next)
    (hrun : (free next).run ph = .ok ((), ph')) :
    (freewalkEntry free pg 0).run ph
      = .ok ((), ⟨putLE ph'.mem (pg + 8 * 0) 8 (0 : Pte).toNat, ph'.freelist⟩) := by
  have hhead : pteAt ph.mem (pg + 8 * 0) = dirPte next := by
    rw [hw 0 (by omega)]
    rfl
  rw [freewalkEntry, run_bind_ok (readPte_run _ _), hhead,
    if_pos ⟨dirPte_v next, dirPte_flags next⟩, dirPte_dmwin hnext, run_bind_ok hrun]
  rfl

/-- `freewalk` frees the pages of a chain with nothing in it. -/
theorem freewalk_spec (pgs : List Nat) :
    ∀ {ph : Phys} {depth pg : Nat}, EmptyChain ph.mem (pg :: pgs) → pgs.length < depth →
      Owns ramPages ph (pg :: pgs) →
      ∃ ph', (freewalk depth pg).run ph = .ok ((), ph') ∧ Moves ramPages ph (pg :: pgs) ph' [] := by
  induction pgs with
  | nil =>
    intro ph depth pg hc hdepth ho
    obtain ⟨depth, rfl⟩ : ∃ k, depth = k + 1 := ⟨depth - 1, by simp at hdepth; omega⟩
    have hpg : IsPage pg := ho.own_valid (by simp)
    refine ⟨_, ?_, moves_kfree⟩
    rw [freewalk, run_bind_ok (freewalk_skip _ _ fun i hi => hc i (mem_range.mp hi)),
      kfree_run hpg]
  | cons next rest ih =>
    intro ph depth pg hc hdepth ho
    obtain ⟨depth, rfl⟩ : ∃ k, depth = k + 1 := ⟨depth - 1, by simp at hdepth; omega⟩
    have hpg : IsPage pg := ho.own_valid (by simp)
    have hnext : IsPage next := ho.own_valid (by simp)
    have ho' : Owns ramPages ph ((next :: rest) ++ [pg]) :=
      ho.perm (perm_append_singleton _ _)
    -- entry 0 leads to the rest of the chain, which is freed
    obtain ⟨ph₁, hrun, hm₁⟩ := ih hc.2 (show rest.length < depth by simp at hdepth; omega)
      ho'.of_append
    have hw : Words ph₁.mem pg (onlyDir next) :=
      hc.1.congr fun a ha => hm₁.kept ho' (by simp) ha
    have hw' : Words (putLE ph₁.mem (pg + 8 * 0) 8 (0 : Pte).toNat) pg
        (update (onlyDir next) 0 0) := hw.write 0 0
    -- the other entries are 0
    have hskip : ∀ i ∈ List.range' 1 511,
        pteAt (putLE ph₁.mem (pg + 8 * 0) 8 (0 : Pte).toNat) (pg + 8 * i) = 0 := by
      intro i hi
      have hi' := mem_range'_1.mp hi
      rw [hw' i (by omega), update_of_ne (by omega)]
      unfold onlyDir
      rw [if_neg (by omega)]
    have hrange : List.range 512 = 0 :: List.range' 1 511 := range_eq_range'
    refine ⟨⟨fill (putLE ph₁.mem (pg + 8 * 0) 8 (0 : Pte).toNat) pg 1 PGSIZE,
      pg :: ph₁.freelist⟩, ?_, ?_⟩
    · have hloop := freewalk_skip (freewalk depth)
        ⟨putLE ph₁.mem (pg + 8 * 0) 8 (0 : Pte).toNat, ph₁.freelist⟩ hskip
      rw [freewalk, hrange, forM_eq_forM, forM_cons, bind_assoc,
        run_bind_ok (freewalk_dir hc.1 hnext hrun), ← forM_eq_forM, run_bind_ok hloop,
        kfree_run hpg]
    · have hm : Moves ramPages ph (pg :: next :: rest) ph₁ [pg] :=
        (Moves.of_perm (perm_append_singleton _ _)).trans (hm₁.frame [pg])
      have hwrite : Moves ramPages ph₁ [pg]
          ⟨putLE ph₁.mem (pg + 8 * 0) 8 (0 : Pte).toNat, ph₁.freelist⟩ [pg] :=
        Moves.write (by simp) fun a ha => putLE_outside (by omega) ha
      exact (hm.trans hwrite).trans moves_kfree

end Xv6.Proofs
