import Xv6.Kernel.Exec
import Xv6.Proofs.Vm.Table

/-!
# `Xv6.Proofs.Vm.Space`: user address spaces

The map of a user page table is `userMap tf es`: the pages `es` from address 0 on, and the
trapframe at `TRAPFRAME`. Each function of `vm.c` is described by what it does to `es` and to the
pages in use. A size `sz` takes `npages sz` pages.

`uvmalloc_exact` has the only panic: it is reached when the new pages run into the trapframe, and
memory lasts until then.
-/

set_option autoImplicit false

namespace Xv6.Proofs

open Lib List
open Function (update update_eq_self_iff update_of_ne update_self)

variable {mem : Bytes} {oldsz sz : Nat}

/-! ### A new page table -/

theorem chain_of_empty {r p2 p1 p0 : Nat} (h : EmptyChain mem [r, p2, p1, p0])
    (hpages : ∀ pg ∈ [r, p2, p1, p0], IsPage pg) (hnodup : [r, p2, p1, p0].Nodup) :
    Chain mem ⟨r, p2, p1, p0⟩ fun _ => none :=
  { root := h.1, p2 := h.2.1, p1 := h.2.2.1, p0 := h.2.2.2
    pages := hpages, nodup := hnodup, valid := nofun, leaf := nofun }

theorem Chain.empty {d : Dirs} (h : Chain mem d fun _ => none) :
    EmptyChain mem d.list := ⟨h.root, h.p2, h.p1, h.p0⟩

/-- `walk` with `alloc` in a table with nothing in it: it makes the missing tables, or it runs
out of pages. -/
theorem walkLevels_build {va : Nat} (hva : va < MAXVA) (level : Nat) :
    ∀ {ph : Phys} {pg : Nat}, Words ph.mem pg (fun _ => 0) → Owns ramPages ph [pg] →
      ∃ r ph' pgs, (walkLevels va true level pg).run ph = .ok (r, ph') ∧
        EmptyChain ph'.mem (pg :: pgs) ∧ Moves ramPages ph [pg] ph' (pg :: pgs) ∧
        ((r = none ∧ pgs.length < level ∧ ph'.freelist = []) ∨
          (r = some (pgs.getLastD pg + 8 * (va / PGSIZE)) ∧ pgs.length = level)) := by
  induction level with
  | zero =>
    intro ph pg hw _
    refine ⟨_, ph, [], ?_, hw, Moves.refl _ _, Or.inr ⟨rfl, rfl⟩⟩
    rw [walkLevels, px_zero hva]
    rfl
  | succ level ih =>
    intro ph pg hw ho
    have hread : pteAt ph.mem (pg + 8 * PX (level + 1) va) = 0 := by
      rw [px_succ hva]
      exact hw 0 (by omega)
    cases hfree : ph.freelist with
    | nil =>
      refine ⟨none, ph, [], ?_, hw, Moves.refl _ _, Or.inl ⟨rfl, by simp, hfree⟩⟩
      rw [walkLevels, run_bind_ok (readPte_run _ _), hread, if_neg (by decide), if_pos rfl,
        run_bind_ok (kalloc_none hfree)]
      rfl
    | cons next free =>
      -- the new table, and the entry for it
      have hm₁ := moves_kalloc_zero hfree [pg]
      have ho₁ := ho.moves hm₁
      have hne : next ≠ pg := by
        have := (nodup_append.mp ho₁.nodup).2.1
        simpa using this
      have hnext : IsPage next := ho₁.own_valid (by simp)
      have hpg : IsPage pg := ho₁.own_valid (by simp)
      set mem₁ := fill (fill ph.mem next 5 PGSIZE) next 0 PGSIZE with hmem₁
      set ph₂ : Phys := ⟨putLE mem₁ (pg + 8 * 0) 8 (dirPte next).toNat, free⟩ with hph₂
      have hm₂ : Moves ramPages ⟨mem₁, free⟩ [next, pg] ph₂ [next, pg] :=
        Moves.write (by simp : pg ∈ [next, pg]) fun a ha => putLE_outside (by omega) ha
      have hdisj : ∀ a, InPage ramPages next a → ¬ InPage ramPages pg a := fun a ha ha' =>
        hne (inPage_unique (K := ramPages) hnext hpg ha ha')
      have hwnext : Words ph₂.mem next fun _ => 0 :=
        (words_fill_zero _ next).congr fun a ha => putLE_outside (by omega) (hdisj a ha)
      have hwpg : Words mem₁ pg fun _ => 0 := by
        refine hw.congr fun a ha => ?_
        rw [hmem₁, fill_outside fun ha' => hdisj a ha' ha, fill_outside fun ha' => hdisj a ha' ha]
      have hwpg₂ : Words ph₂.mem pg (onlyDir next) := by
        intro i hi
        rw [hwpg.write 0 (dirPte next) i hi]
        by_cases h0 : i = 0
        · rw [h0, update_self]
          rfl
        · rw [update_of_ne h0, onlyDir, if_neg h0]
      have ho₂ : Owns ramPages ph₂ ([next] ++ [pg]) := ho₁.moves hm₂
      obtain ⟨r, ph', pgs, hrun, hchain, hm', hr⟩ := ih hwnext ho₂.of_append
      refine ⟨r, ph', next :: pgs, ?_, ⟨?_, hchain⟩, ?_, ?_⟩
      · rw [walkLevels, run_bind_ok (readPte_run _ _), hread, if_neg (by decide), if_pos rfl,
          run_bind_ok (kalloc_some hfree), px_succ hva]
        exact hrun
      · exact hwpg₂.congr fun a ha => hm'.kept ho₂ (by simp) ha
      · exact (hm₁.trans hm₂).trans ((hm'.frame [pg]).trans
          (Moves.of_perm (perm_append_singleton _ _).symm))
      · rcases hr with ⟨h1, h2, h3⟩ | ⟨h1, h2⟩
        · exact Or.inl ⟨h1, by simpa using h2, h3⟩
        · exact Or.inr ⟨by rw [h1, getLastD_cons], by simpa using h2⟩

/-- `mappages` of the first page of a table. -/
theorem mappages_fresh {ph : Phys} {root va pa : Nat} {perm : Pte}
    (hw : Words ph.mem root fun _ => 0) (ho : Owns ramPages ph [root]) (hva : va < MAXVA)
    (halign : va % PGSIZE = 0) (he : Entry.Ok ⟨pa, perm⟩) :
    ∃ r ph', (mappages root va PGSIZE pa perm).run ph = .ok (r, ph') ∧
      ((r = -1 ∧ ph'.freelist = [] ∧ ∃ pgs, pgs.length < 3 ∧ EmptyChain ph'.mem (root :: pgs) ∧
          Moves ramPages ph [root] ph' (root :: pgs)) ∨
        (r = 0 ∧ ∃ d : Dirs, d.root = root ∧
          Chain ph'.mem d (update (fun _ => none) (va / PGSIZE) (some ⟨pa, perm⟩)) ∧
          Moves ramPages ph [root] ph' d.list)) := by
  obtain ⟨r, ph', pgs, hrun, hchain, hm, hr⟩ := walkLevels_build hva 3 hw ho
  have hwalk : (walk root va true).run ph = .ok (r, ph') := by
    rw [walk, if_neg (by omega), hrun]
  rcases hr with ⟨rfl, hlen, hfree⟩ | ⟨rfl, hlen⟩
  · refine ⟨-1, ph', ?_, Or.inl ⟨rfl, hfree, pgs, hlen, hchain, hm⟩⟩
    rw [mappages_page halign hva, nvpages, mappagesLoop, run_bind_ok hwalk]
    rfl
  · obtain ⟨p2, p1, p0, rfl⟩ := length_eq_three.mp hlen
    have ho' := ho.moves hm
    have hc : Chain ph'.mem ⟨root, p2, p1, p0⟩ fun _ => none :=
      chain_of_empty hchain (fun pg hpg => ho'.own_valid hpg) (nodup_append.mp ho'.nodup).2.1
    have hword : pteAt ph'.mem (p0 + 8 * (va / PGSIZE)) = 0 := hc.word hva
    refine ⟨0, ⟨putLE ph'.mem (p0 + 8 * (va / PGSIZE)) 8 (Entry.pte ⟨pa, perm⟩).toNat,
      ph'.freelist⟩, ?_, Or.inr ⟨rfl, ⟨root, p2, p1, p0⟩, rfl,
      hc.write (index_lt hva) (o := some ⟨pa, perm⟩) ?_, hm.trans ?_⟩⟩
    · rw [mappages_page halign hva, nvpages, mappagesLoop, run_bind_ok hwalk]
      simp only [getLastD_cons, getLastD_nil]
      rw [run_bind_ok (readPte_run _ _), hword, if_neg (by decide),
        run_bind_ok (writePte_run _ _ _), if_pos trivial]
      rfl
    · rintro e ⟨⟩
      exact he
    · exact Moves.write (by simp [Dirs.list] : p0 ∈ Dirs.list ⟨root, p2, p1, p0⟩)
        fun a ha => putLE_outside (index_lt hva) ha

/-! ### The map of a user table -/

/-- The index of the trapframe's page. -/
def tfIndex : Nat := TRAPFRAME / PGSIZE

/-- The pages `es` from address 0 on, and the trapframe. -/
def userMap (tf : Option Entry) (es : List Entry) : PageMap := fun i =>
  if i = tfIndex then tf else es[i]?

/-- The number of pages that a size takes. -/
def npages (sz : Nat) : Nat := PGROUNDUP sz / PGSIZE

/-- The entry of the trapframe. -/
def tfEntry (trapframe : Nat) : Entry := ⟨trapframe, PTE_TRAPFRAME⟩

theorem tfEntry_ok {trapframe : Nat} (h : IsPage trapframe) : Entry.Ok (tfEntry trapframe) :=
  ⟨⟨h, show PTE_FLAGS PTE_TRAPFRAME = PTE_TRAPFRAME by decide⟩,
    show PTE_TRAPFRAME ||| PTE_V ≠ PTE_V by decide⟩

theorem userMap_nil (tf : Option Entry) :
    userMap tf [] = update (fun _ => none) tfIndex tf := by
  funext i
  unfold userMap
  by_cases h : i = tfIndex
  · rw [if_pos h, h, update_self]
  · rw [if_neg h, update_of_ne h]
    rfl

/-- The next page of the address space. -/
theorem userMap_append {tf : Option Entry} {es : List Entry} (h : es.length < tfIndex)
    (e : Entry) :
    update (userMap tf es) es.length (some e) = userMap tf (es ++ [e]) := by
  funext i
  unfold userMap
  by_cases hi : i = es.length
  · rw [hi, update_self, if_neg (by omega)]
    simp
  · rw [update_of_ne hi]
    split
    · rfl
    · rcases Nat.lt_or_gt_of_ne hi with hlt | hgt
      · rw [List.getElem?_append_left hlt]
      · rw [List.getElem?_eq_none (by omega), List.getElem?_eq_none (by simp; omega)]

/-- The pages from `k` on are unmapped. -/
theorem clear_userMap (tf : Option Entry) {es : List Entry} (h : es.length ≤ tfIndex) (k : Nat) :
    clear (userMap tf es) k (es.length - k) = userMap tf (es.take k) := by
  funext i
  unfold clear userMap
  rw [List.getElem?_take]
  by_cases hi : i = tfIndex
  · rw [if_neg (by omega), if_pos hi, if_pos hi]
  · rw [if_neg hi, if_neg hi]
    by_cases hk : i < k
    · rw [if_neg (by omega), if_pos hk]
    · rw [if_neg hk]
      split
      · rfl
      · exact List.getElem?_eq_none (by omega)

theorem clear_trapframe (tf : Option Entry) (es : List Entry) :
    clear (userMap tf es) tfIndex 1 = userMap none es := by
  funext i
  unfold clear userMap
  by_cases hi : i = tfIndex
  · rw [if_pos (by omega), if_pos hi]
  · rw [if_neg (by omega), if_neg hi, if_neg hi]

theorem userMap_empty : userMap none [] = fun _ => none := by
  rw [userMap_nil, update_eq_self_iff]

theorem userMap_get {tf : Option Entry} {es : List Entry} {i : Nat} (h : i < tfIndex) :
    userMap tf es i = es[i]? := if_neg (by omega)

theorem npages_eq (h : sz ≤ TRAPFRAME) : npages sz = (sz + 4095) / 4096 := by
  unfold npages PGROUNDUP PGSIZE
  unfold TRAPFRAME MAXVA PGSIZE at h
  omega

theorem npages_le (h : sz ≤ TRAPFRAME) : npages sz ≤ tfIndex := by
  rw [npages_eq h]
  unfold tfIndex
  unfold TRAPFRAME MAXVA PGSIZE at *
  omega

/-- A size takes enough pages. -/
theorem le_npages (h : sz ≤ TRAPFRAME) : sz ≤ npages sz * PGSIZE := by
  rw [npages_eq h]
  unfold PGSIZE
  omega

theorem npages_mul {k : Nat} (h : k ≤ tfIndex) : npages (k * PGSIZE) = k := by
  unfold tfIndex TRAPFRAME MAXVA at h
  unfold npages PGROUNDUP
  unfold PGSIZE at *
  omega

theorem npages_mono {a b : Nat} (hab : a ≤ b) (hb : b ≤ TRAPFRAME) : npages a ≤ npages b := by
  rw [npages_eq hb, npages_eq (by omega)]
  omega

theorem pgroundup_eq : PGROUNDUP sz = npages sz * PGSIZE := by
  unfold npages PGROUNDUP
  rw [Nat.mul_div_cancel _ (by decide)]

/-- The pages of a table and the pages that it maps. -/
def spacePages (d : Dirs) (es : List Entry) : List Nat := d.list ++ es.map Entry.page

/-! ### Making and freeing a user table -/

theorem memset_run (ph : Phys) (dst : Nat) (c : UInt8) (n : Nat) :
    (memset dst c n).run ph = .ok ((), ⟨fill ph.mem dst c n, ph.freelist⟩) := rfl

theorem store_run (ph : Phys) (dst : Nat) (bs : List UInt8) :
    (store dst bs).run ph = .ok ((), ⟨putBytes ph.mem dst bs, ph.freelist⟩) := rfl

theorem memmove_run (ph : Phys) (dst src n : Nat) :
    (memmove dst src n).run ph
      = .ok ((), ⟨putBytes ph.mem dst (getBytes ph.mem src n), ph.freelist⟩) := rfl

/-- `uvmfree` of a table that maps the pages `es` only. -/
theorem uvmfree_spec {ph : Phys} {d : Dirs} {es : List Entry}
    (hc : Chain ph.mem d (userMap none es)) (hlen : es.length = npages sz) (hsz : sz ≤ TRAPFRAME)
    (ho : Owns ramPages ph (spacePages d es)) :
    ∃ ph', (uvmfree d.root sz).run ph = .ok ((), ph') ∧
      Moves ramPages ph (spacePages d es) ph' [] := by
  have hle : es.length ≤ tfIndex := hlen ▸ npages_le hsz
  -- first the pages
  obtain ⟨ph₁, hrun₁, hc₁, hm₁⟩ : ∃ ph₁,
      (uvmfree d.root sz).run ph = (freewalk 4 d.root).run ph₁ ∧ Chain ph₁.mem d (fun _ => none) ∧
      Moves ramPages ph (spacePages d es) ph₁ d.list := by
    by_cases hpos : 0 < sz
    · have hes : ∀ k e, es[k]? = some e → userMap none es (0 + k) = some e := by
        intro k e hk
        have hklt := (List.getElem?_eq_some_iff.mp hk).1
        rw [Nat.zero_add, userMap_get (by omega), hk]
      have h256 : 0 + es.length ≤ 256 := by
        unfold tfIndex TRAPFRAME MAXVA PGSIZE at hle
        omega
      obtain ⟨ph₁, hrun, hchain, hmoves⟩ := uvmunmap_chain true hc hes h256 fun _ => ho
      refine ⟨ph₁, ?_, ?_, hmoves⟩
      · have hunmap : (uvmunmap d.root 0 (PGROUNDUP sz / PGSIZE) true).run ph = .ok ((), ph₁) := by
          rw [← hrun, hlen, Nat.zero_mul, npages]
        rw [uvmfree, if_pos hpos, run_bind_ok hunmap]
      · have hclear := clear_userMap none hle 0
        rw [Nat.sub_zero, take_zero, userMap_empty] at hclear
        rwa [hclear] at hchain
    · have hnil : es = [] := by
        have h0 : sz = 0 := by omega
        rw [h0] at hlen
        exact length_eq_zero_iff.mp hlen
      subst hnil
      rw [userMap_empty] at hc
      refine ⟨ph, by rw [uvmfree, if_neg hpos], hc, ?_⟩
      unfold spacePages
      rw [map_nil, append_nil]
      exact Moves.refl _ _
  -- then the tables
  obtain ⟨ph', hrun', hm'⟩ := freewalk_spec [d.p2, d.p1, d.p0] hc₁.empty
    (show [d.p2, d.p1, d.p0].length < 4 by simp) (ho.moves hm₁)
  exact ⟨ph', hrun₁.trans hrun', hm₁.trans hm'⟩

/-- `proc_freepagetable` frees everything but the trapframe. -/
theorem proc_freepagetable_spec {ph : Phys} {d : Dirs} {es : List Entry} {tf : Entry}
    (hc : Chain ph.mem d (userMap (some tf) es)) (hlen : es.length = npages sz)
    (hsz : sz ≤ TRAPFRAME) (ho : Owns ramPages ph (spacePages d es)) :
    ∃ ph', (proc_freepagetable d.root sz).run ph = .ok ((), ph') ∧
      Moves ramPages ph (spacePages d es) ph' [] := by
  have hle : es.length ≤ tfIndex := hlen ▸ npages_le hsz
  have hget : ∀ k e, [tf][k]? = some e → userMap (some tf) es (tfIndex + k) = some e := by
    intro k e hk
    match k with
    | 0 =>
      rw [Nat.add_zero, userMap, if_pos rfl]
      exact hk
  obtain ⟨ph₁, hrun₁, hc₁, hm₁⟩ :=
    uvmunmap_chain false hc hget (show tfIndex + 1 ≤ 256 by decide) nofun
  rw [length_singleton, clear_trapframe] at hc₁
  have hm₁' : Moves ramPages ph (spacePages d es) ph₁ (spacePages d es) := hm₁.frame _
  obtain ⟨ph', hrun', hm'⟩ := uvmfree_spec hc₁ hlen hsz (ho.moves hm₁')
  refine ⟨ph', ?_, hm₁'.trans hm'⟩
  have hunmap : (uvmunmap d.root TRAPFRAME 1 false).run ph = .ok ((), ph₁) := hrun₁
  rw [proc_freepagetable, run_bind_ok hunmap, hrun']

/-- `proc_pagetable` takes four pages, or it gives back what it took. -/
theorem proc_pagetable_spec {ph : Phys} {trapframe : Nat} (htf : IsPage trapframe)
    (ho : Owns ramPages ph []) :
    ∃ r ph', (proc_pagetable trapframe).run ph = .ok (r, ph') ∧
      ((r = none ∧ ph.freelist.length < 4 ∧ Moves ramPages ph [] ph' []) ∨
        ∃ d : Dirs, r = some d.root ∧ Chain ph'.mem d (userMap (some (tfEntry trapframe)) []) ∧
          Moves ramPages ph [] ph' d.list) := by
  cases hfree : ph.freelist with
  | nil =>
    have hcreate : uvmcreate.run ph = .ok (none, ph) := by
      rw [uvmcreate, run_bind_ok (kalloc_none hfree)]
      rfl
    refine ⟨none, ph, ?_, Or.inl ⟨rfl, by simp, Moves.refl ph []⟩⟩
    rw [proc_pagetable, run_bind_ok hcreate]
    rfl
  | cons root free =>
    have hm₁ := moves_kalloc_zero hfree []
    have ho₁ := ho.moves hm₁
    have hw : Words (PageHeap.mk (fill (fill ph.mem root 5 PGSIZE) root 0 PGSIZE) free).mem root
        fun _ => 0 := words_fill_zero _ root
    obtain ⟨r, ph₂, hrun₂, hcase⟩ := mappages_fresh hw ho₁ (show TRAPFRAME < MAXVA by decide)
      (by decide) (tfEntry_ok htf)
    have hcreate : uvmcreate.run ph
        = .ok (some root, ⟨fill (fill ph.mem root 5 PGSIZE) root 0 PGSIZE, free⟩) := by
      rw [uvmcreate, run_bind_ok (kalloc_some hfree)]
      rfl
    rcases hcase with ⟨rfl, hempty, pgs, hlen, hchain, hm₂⟩ | ⟨rfl, d, hroot, hc, hm₂⟩
    · -- the tables made so far are freed
      obtain ⟨ph', hrun', hm'⟩ := freewalk_spec pgs hchain (show pgs.length < 4 by omega)
        (ho₁.moves hm₂)
      have hm := (hm₁.trans hm₂).trans hm'
      refine ⟨none, ph', ?_, Or.inl ⟨rfl, ?_, hm⟩⟩
      · have hfreed : (uvmfree root 0).run ph₂ = .ok ((), ph') := by
          rw [uvmfree, if_neg (by decide)]
          exact hrun'
        rw [proc_pagetable, run_bind_ok hcreate]
        dsimp only
        rw [run_bind_ok hrun₂, if_pos (by decide), run_bind_ok hfreed]
        rfl
      · have := (hm₁.trans hm₂).length
        rw [hempty, hfree] at this
        simp at this ⊢
        omega
    · refine ⟨some root, ph₂, ?_, Or.inr ⟨d, by rw [hroot], ?_, hm₁.trans hm₂⟩⟩
      · rw [proc_pagetable, run_bind_ok hcreate]
        dsimp only
        rw [run_bind_ok hrun₂, if_neg (by decide)]
        rfl
      · rw [userMap_nil]
        exact hc

/-! ### Growing and shrinking -/

theorem tfIndex_eq : tfIndex = 255 := by decide

/-! ### What the pages hold -/

/-- The pages `es`, from address 0 on, hold the bytes `c`. -/
def PagesHold (mem : Bytes) (es : List Entry) (c : Bytes) : Prop :=
  ∀ i e, es[i]? = some e → ∀ o < PGSIZE, mem (e.page + o) = c (i * PGSIZE + o)

theorem PagesHold.congr {mem' : Bytes} {es : List Entry} {c : Bytes} (h : PagesHold mem es c)
    (hmem : ∀ e ∈ es, ∀ a, InPage ramPages e.page a → mem' a = mem a) : PagesHold mem' es c := by
  intro i e he o ho
  rw [hmem e (mem_of_getElem? he) _ ⟨Nat.le_add_right _ _, Nat.add_lt_add_left ho _⟩]
  exact h i e he o ho

/-- Pages that stay aside keep what they hold. -/
theorem PagesHold.kept {ph ph' : Phys} {es : List Entry} {c : Bytes} {own own' rest : List Nat}
    (h : PagesHold ph.mem es c) (hm : Moves ramPages ph own ph' own')
    (ho : Owns ramPages ph (own ++ rest)) (hes : ∀ e ∈ es, e.page ∈ rest) :
    PagesHold ph'.mem es c :=
  h.congr fun e he _ ha => hm.kept ho (hes e he) ha

theorem PagesHold.take {es : List Entry} {c : Bytes} (h : PagesHold mem es c) (k : Nat) :
    PagesHold mem (es.take k) c := by
  intro i e he
  rw [List.getElem?_take] at he
  split at he
  · exact h i e he
  · cases he

/-- More pages, which hold the bytes of `c` behind the first ones. -/
theorem PagesHold.append {es new : List Entry} {c : Bytes} (h : PagesHold mem es c)
    (hnew : PagesHold mem new fun a => c (es.length * PGSIZE + a)) :
    PagesHold mem (es ++ new) c := by
  intro i e he o ho
  by_cases hi : i < es.length
  · rw [List.getElem?_append_left hi] at he
    exact h i e he o ho
  · rw [List.getElem?_append_right (by omega)] at he
    rw [hnew _ e he o ho]
    show c (es.length * PGSIZE + ((i - es.length) * PGSIZE + o)) = _
    rw [← Nat.add_assoc, ← Nat.add_mul, Nat.add_sub_cancel' (by omega)]

/-- What the pages `es` hold, read from memory. -/
def bytesOf (mem : Bytes) (es : List Entry) : Bytes := fun a =>
  es[a / PGSIZE]?.elim 0 fun e => mem (e.page + a % PGSIZE)

theorem holds_bytesOf (mem : Bytes) (es : List Entry) : PagesHold mem es (bytesOf mem es) := by
  intro i e he o ho
  have hdiv : (i * PGSIZE + o) / PGSIZE = i := by
    unfold PGSIZE at *
    omega
  have hmod : (i * PGSIZE + o) % PGSIZE = o := by
    unfold PGSIZE at *
    omega
  rw [bytesOf, hdiv, hmod, he, Option.elim_some]

/-! ### Shrinking -/

/-- `uvmunmap` of the pages from index `k` on. It writes the tables and the pages that it frees. -/
theorem uvmunmap_drop {ph : Phys} {d : Dirs} {tf : Option Entry} {es : List Entry} {k : Nat}
    (hc : Chain ph.mem d (userMap tf es)) (hle : es.length ≤ tfIndex) (hk : k ≤ es.length)
    (ho : Owns ramPages ph (d.list ++ (es.drop k).map Entry.page)) :
    ∃ ph', (uvmunmap d.root (k * PGSIZE) (es.length - k) true).run ph = .ok ((), ph') ∧
      Chain ph'.mem d (userMap tf (es.take k)) ∧
      Moves ramPages ph (d.list ++ (es.drop k).map Entry.page) ph' d.list := by
  have hlen : (es.drop k).length = es.length - k := length_drop
  have hget : ∀ j e, (es.drop k)[j]? = some e → userMap tf es (k + j) = some e := by
    intro j e hj
    have hlt := (List.getElem?_eq_some_iff.mp hj).1
    rw [hlen] at hlt
    rw [List.getElem?_drop] at hj
    rw [userMap_get (by omega), hj]
  have h256 : k + (es.drop k).length ≤ 256 := by
    rw [tfIndex_eq] at hle
    omega
  obtain ⟨ph', hrun, hc', hm⟩ := uvmunmap_chain true hc hget h256 fun _ => ho
  rw [hlen] at hrun hc'
  rw [clear_userMap tf hle k] at hc'
  exact ⟨ph', hrun, hc', hm⟩

/-- The pages that `uvmdealloc` frees, and those that stay. -/
theorem spacePages_split (d : Dirs) (es : List Entry) (k : Nat) :
    (spacePages d es).Perm
      ((d.list ++ (es.drop k).map Entry.page) ++ (es.take k).map Entry.page) := by
  unfold spacePages
  conv_lhs => rw [← take_append_drop k es, map_append]
  rw [append_assoc]
  exact List.Perm.append_left _ perm_append_comm

/-- `uvmdealloc` frees the pages above the new size. -/
theorem uvmdealloc_exact {ph : Phys} {d : Dirs} {tf : Option Entry} {es : List Entry} (newsz : Nat)
    (hc : Chain ph.mem d (userMap tf es)) (hlen : es.length = npages oldsz)
    (hsz : oldsz ≤ TRAPFRAME) (ho : Owns ramPages ph
      (d.list ++ (es.drop (npages (min oldsz newsz))).map Entry.page)) :
    ∃ ph', (uvmdealloc d.root oldsz newsz).run ph = .ok (min oldsz newsz, ph') ∧
      Chain ph'.mem d (userMap tf (es.take (npages (min oldsz newsz)))) ∧
      Moves ramPages ph (d.list ++ (es.drop (npages (min oldsz newsz))).map Entry.page)
        ph' d.list := by
  -- nothing to free: both sizes take the same pages
  have hsame : ∀ r, npages (min oldsz newsz) = es.length →
      (uvmdealloc d.root oldsz newsz).run ph = .ok (r, ph) →
      r = min oldsz newsz → ∃ ph', (uvmdealloc d.root oldsz newsz).run ph
        = .ok (min oldsz newsz, ph') ∧
      Chain ph'.mem d (userMap tf (es.take (npages (min oldsz newsz)))) ∧
      Moves ramPages ph (d.list ++ (es.drop (npages (min oldsz newsz))).map Entry.page)
        ph' d.list := by
    rintro r hnp hrun rfl
    refine ⟨ph, hrun, ?_⟩
    rw [hnp, take_length, drop_length, map_nil, append_nil]
    exact ⟨hc, Moves.refl _ _⟩
  by_cases hge : oldsz ≤ newsz
  · have hmin : min oldsz newsz = oldsz := Nat.min_eq_left hge
    refine hsame oldsz (by rw [hmin, hlen]) ?_ hmin.symm
    rw [uvmdealloc, if_pos hge]
    rfl
  · have hmin : min oldsz newsz = newsz := Nat.min_eq_right (by omega)
    have hle : es.length ≤ tfIndex := hlen ▸ npages_le hsz
    have hk : npages newsz ≤ es.length := by
      rw [hlen]
      exact npages_mono (by omega) hsz
    by_cases hlt : PGROUNDUP newsz < PGROUNDUP oldsz
    · rw [hmin] at ho ⊢
      obtain ⟨ph', hrun, hc', hm⟩ := uvmunmap_drop hc hle hk ho
      refine ⟨ph', ?_, hc', hm⟩
      have hnp : (PGROUNDUP oldsz - PGROUNDUP newsz) / PGSIZE = es.length - npages newsz := by
        rw [pgroundup_eq, pgroundup_eq, ← Nat.sub_mul,
          Nat.mul_div_cancel _ (show 0 < PGSIZE by decide), hlen]
      rw [uvmdealloc, if_neg hge, if_pos hlt]
      dsimp only
      rw [hnp, pgroundup_eq, run_bind_ok hrun]
      rfl
    · have heq : npages newsz = es.length := by
        rw [pgroundup_eq, pgroundup_eq, ← hlen] at hlt
        have := Nat.le_of_mul_le_mul_right (Nat.le_of_not_lt hlt) (by decide)
        omega
      refine hsame newsz (by rw [hmin, heq]) ?_ hmin.symm
      rw [uvmdealloc, if_neg hge, if_neg hlt]
      rfl

/-! ### Growing -/

/-- The pages `new` have been added to `es`. -/
structure Added (d : Dirs) (tf : Entry) (es new : List Entry) (ph ph' : Phys) : Prop where
  chain : Chain ph'.mem d (userMap (some tf) (es ++ new))
  moves : Moves ramPages ph (spacePages d es) ph' (spacePages d (es ++ new))

/-- The table has got entries `new` after those of `es`, for pages that were free. Of the pages in
use, only the tables were written: whatever the pages `es` hold, they still hold it. -/
structure Placed (d : Dirs) (tf : Entry) (es new : List Entry) (ph ph' : Phys) : Prop where
  tables : Tables ph'.mem d (userMap (some tf) (es ++ new))
  moves : Moves ramPages ph d.list ph' (d.list ++ new.map Entry.page)

/-- The new entries are leaves, like the others, and their pages hold the bytes `c`. -/
structure Laid (d : Dirs) (tf : Entry) (es new : List Entry) (c : Bytes) (ph ph' : Phys) : Prop
    extends Placed d tf es new ph ph' where
  leaf : ∀ i e, userMap (some tf) (es ++ new) i = some e → Entry.Leaf e
  holds : PagesHold ph'.mem new c

section Placed

variable {d : Dirs} {tf : Entry} {es new : List Entry} {ph ph₁ : Phys}

theorem Placed.refl (hc : Tables ph.mem d (userMap (some tf) es)) : Placed d tf es [] ph ph := by
  refine ⟨?_, ?_⟩
  · rw [append_nil]
    exact hc
  · rw [map_nil, append_nil]
    exact Moves.refl _ _

variable (h : Placed d tf es new ph ph₁)
include h

theorem Placed.length : ph₁.freelist.length + new.length = ph.freelist.length := by
  have := h.moves.length
  rw [length_append, length_map] at this
  omega

/-- A page is taken and written: it is no page of the table and none of the new pages. -/
theorem Placed.taken (ho : Owns ramPages ph d.list) {pg : Nat} {free : List Nat}
    (hfree : ph₁.freelist = pg :: free) (hmem : ∀ a, ¬ InPage ramPages pg a → mem a = ph₁.mem a) :
    IsPage pg ∧ Tables mem d (userMap (some tf) (es ++ new)) ∧
      ∀ e ∈ new, ∀ a, InPage ramPages e.page a → mem a = ph₁.mem a := by
  have ho₂ := (ho.moves h.moves).moves (Moves.alloc hfree hmem)
  have hpg : IsPage pg := ho₂.own_valid mem_cons_self
  have hnot : pg ∉ d.list ++ new.map Entry.page :=
    (nodup_cons.mp (nodup_append.mp ho₂.nodup).2.1).1
  refine ⟨hpg, h.tables.other hpg (fun hin => hnot (mem_append_left _ hin)) hmem,
    fun e he a ha => hmem a fun hin => hnot ?_⟩
  have hpage : e.page ∈ d.list ++ new.map Entry.page :=
    mem_append_right _ (mem_map_of_mem he)
  have heq := inPage_unique (K := ramPages) (ho₂.own_valid (mem_cons_of_mem _ hpage)) hpg
    ha hin
  exact heq ▸ hpage

/-- The next page is mapped, with flags `f`. -/
theorem Placed.next (ho : Owns ramPages ph d.list) (hlt : (es ++ new).length < tfIndex) {pg : Nat}
    {free : List Nat} (hfree : ph₁.freelist = pg :: free)
    (hmem : ∀ a, ¬ InPage ramPages pg a → mem a = ph₁.mem a) {perm f : Pte}
    (hf : PTE_FLAGS f = f) (hperm : perm ||| PTE_V = f ||| PTE_V) :
    ∃ ph₂, (mappages d.root ((es ++ new).length * PGSIZE) PGSIZE pg perm).run ⟨mem, free⟩
        = .ok (0, ph₂) ∧ Placed d tf es (new ++ [⟨pg, f⟩]) ph ph₂ ∧
      (∀ e ∈ new, ∀ a, InPage ramPages e.page a → ph₂.mem a = ph₁.mem a) ∧
      ∀ a, InPage ramPages pg a → ph₂.mem a = mem a := by
  obtain ⟨hpg, hc, hsame⟩ := h.taken ho hfree hmem
  have hidx : (es ++ new).length * PGSIZE / PGSIZE = (es ++ new).length :=
    Nat.mul_div_cancel _ (by decide)
  have hva : (es ++ new).length * PGSIZE < MAXVA := by
    rw [tfIndex_eq] at hlt
    unfold MAXVA PGSIZE
    omega
  have hnone : userMap (some tf) (es ++ new) ((es ++ new).length * PGSIZE / PGSIZE) = none := by
    rw [hidx, userMap_get hlt]
    exact List.getElem?_eq_none (Nat.le_refl _)
  have hpte : PA2PTE pg ||| perm ||| PTE_V = Entry.pte ⟨pg, f⟩ := by
    rw [Entry.pte_eq, BitVec.or_assoc, hperm]
  have hp0 : d.p0 ∈ pg :: (d.list ++ new.map Entry.page) := by simp [Dirs.list]
  have hpages : (d.list ++ (new ++ [(⟨pg, f⟩ : Entry)]).map Entry.page).Perm
      (pg :: (d.list ++ new.map Entry.page)) := by
    rw [map_append, ← append_assoc]
    exact perm_append_singleton _ _
  have hm := h.moves.trans (Moves.alloc hfree hmem)
  have ho₂ := ho.moves hm
  -- the entry is written in the last table, which is not one of the pages
  have hword : ∀ q ∈ pg :: new.map Entry.page, ∀ a, InPage ramPages q a →
      ∀ v, putLE mem (d.p0 + 8 * (es ++ new).length) 8 v a = mem a := by
    intro q hq a ha v
    refine putLE_outside (by rw [tfIndex_eq] at hlt; omega) fun hin => ?_
    have hpage : q ∈ pg :: (d.list ++ new.map Entry.page) :=
      mem_cons.mpr ((mem_cons.mp hq).imp_right (mem_append_right _))
    have heq := inPage_unique (K := ramPages) (ho₂.own_valid hpage) (ho₂.own_valid hp0) ha hin
    have hnodup := (nodup_append.mp ho₂.nodup).2.1
    have hd : d.p0 ∈ d.list := by simp [Dirs.list]
    rcases mem_cons.mp hq with hfirst | hnew
    · exact (nodup_cons.mp hnodup).1 (mem_append_left _ (hfirst ▸ heq ▸ hd))
    · exact disjoint_of_nodup_append (nodup_cons.mp hnodup).2 (heq ▸ hd) hnew
  refine ⟨_, hc.mappages_run hva (Nat.mul_mod_left _ _) perm hnone, ⟨?_, ?_⟩, ?_, ?_⟩
  · have hw := hc.write (i := (es ++ new).length) (by rw [tfIndex_eq] at hlt; omega)
      (o := some ⟨pg, f⟩) (by rintro e ⟨⟩; exact ⟨hpg, hf⟩)
    rw [userMap_append hlt, append_assoc] at hw
    rw [hidx, hpte]
    exact hw
  · refine (hm.trans ?_).trans (Moves.of_perm hpages)
    exact Moves.write hp0 fun a ha => putLE_outside (index_lt hva) ha
  · intro e he a ha
    rw [hidx]
    exact (hword _ (mem_cons_of_mem _ (mem_map_of_mem he)) a ha _).trans (hsame e he a ha)
  · intro a ha
    rw [hidx]
    exact hword _ mem_cons_self a ha _

end Placed

section Laid

variable {d : Dirs} {tf : Entry} {es new : List Entry} {c : Bytes} {ph ph₁ : Phys}

theorem Laid.refl (hc : Chain ph.mem d (userMap (some tf) es)) (c : Bytes) :
    Laid d tf es [] c ph ph := by
  refine ⟨Placed.refl hc.toTables, ?_, nofun⟩
  rw [append_nil]
  exact hc.leaf

section

variable (h : Laid d tf es new c ph ph₁)
include h

theorem Laid.chain : Chain ph₁.mem d (userMap (some tf) (es ++ new)) := ⟨h.tables, h.leaf⟩

theorem Laid.added : Added d tf es new ph ph₁ := by
  refine ⟨h.chain, (h.moves.frame (es.map Entry.page)).trans (Moves.of_perm ?_)⟩
  unfold spacePages
  rw [map_append, append_assoc]
  exact List.Perm.append_left _ perm_append_comm

/-- The pages that were added are freed again. -/
theorem Laid.undo (ho : Owns ramPages ph d.list) (hle : (es ++ new).length ≤ tfIndex) :
    ∃ r ph', (uvmdealloc d.root ((es ++ new).length * PGSIZE) (es.length * PGSIZE)).run ph₁
        = .ok (r, ph') ∧ Chain ph'.mem d (userMap (some tf) es) ∧
      Moves ramPages ph d.list ph' d.list := by
  have hsz : (es ++ new).length * PGSIZE ≤ TRAPFRAME := by
    rw [tfIndex_eq] at hle
    unfold TRAPFRAME MAXVA PGSIZE
    omega
  have hmin : min ((es ++ new).length * PGSIZE) (es.length * PGSIZE) = es.length * PGSIZE :=
    Nat.min_eq_right (Nat.mul_le_mul_right _ (by simp))
  have hes : es.length ≤ tfIndex := by
    rw [length_append] at hle
    omega
  have hdrop : (es ++ new).drop (npages (min ((es ++ new).length * PGSIZE) (es.length * PGSIZE)))
      = new := by
    rw [hmin, npages_mul hes, drop_left]
  have ho₁ := ho.moves h.moves
  rw [← hdrop] at ho₁
  obtain ⟨ph', hrun, hc', hm'⟩ := uvmdealloc_exact (es.length * PGSIZE) h.chain
    (npages_mul hle).symm hsz ho₁
  rw [hdrop] at hm'
  rw [hmin, npages_mul hes, take_left] at hc'
  exact ⟨_, ph', hrun, hc', h.moves.trans hm'⟩

/-- The next page is mapped, as a leaf with flags `f`. -/
theorem Laid.next (ho : Owns ramPages ph d.list) (hlt : (es ++ new).length < tfIndex) {pg : Nat}
    {free : List Nat} (hfree : ph₁.freelist = pg :: free)
    (hmem : ∀ a, ¬ InPage ramPages pg a → mem a = ph₁.mem a)
    (hbytes : ∀ o < PGSIZE, mem (pg + o) = c (new.length * PGSIZE + o)) {perm f : Pte}
    (hf : PTE_FLAGS f = f ∧ f ||| PTE_V ≠ PTE_V) (hperm : perm ||| PTE_V = f ||| PTE_V) :
    ∃ ph₂, (mappages d.root ((es ++ new).length * PGSIZE) PGSIZE pg perm).run ⟨mem, free⟩
        = .ok (0, ph₂) ∧ Laid d tf es (new ++ [⟨pg, f⟩]) c ph ph₂ := by
  obtain ⟨ph₂, hrun, hplaced, hold, hpage⟩ := h.toPlaced.next ho hlt hfree hmem hf.1 hperm
  refine ⟨ph₂, hrun, hplaced, fun i e he => ?_, (h.holds.congr hold).append fun i e he o ho => ?_⟩
  · rw [← append_assoc, ← userMap_append hlt] at he
    by_cases hi : i = (es ++ new).length
    · rw [hi, update_self] at he
      obtain rfl := Option.some.inj he
      exact hf.2
    · rw [update_of_ne hi] at he
      exact h.leaf i e he
  · obtain ⟨rfl, rfl⟩ : i = 0 ∧ (⟨pg, f⟩ : Entry) = e := by
      cases i with
      | zero => exact ⟨rfl, Option.some.inj he⟩
      | succ i => cases he
    rw [hpage _ ⟨Nat.le_add_right _ _, Nat.add_lt_add_left ho _⟩, hbytes o ho, Nat.zero_mul,
      Nat.zero_add]

end

end Laid

/-- With `k` pages mapped, there are too few pages to get to size `newsz`, or to the trapframe. -/
def TooFew (ph : Phys) (k newsz : Nat) : Prop :=
  k + ph.freelist.length < if newsz ≤ TRAPFRAME then npages newsz else tfIndex + 1

/-- How `uvmalloc` returns: new pages are zero, and the pages `es` are left alone. -/
def UvmallocExact (d : Dirs) (tf : Entry) (es : List Entry) (newsz : Nat) (ph : Phys) (r : Nat)
    (ph' : Phys) : Prop :=
  (r = newsz ∧ newsz ≤ TRAPFRAME ∧ ∃ new, Laid d tf es new (fun _ => 0) ph ph' ∧
    (es ++ new).length = npages newsz ∧ ∀ e ∈ new, e.flags = PTE_USER) ∨
  (r = 0 ∧ Chain ph'.mem d (userMap (some tf) es) ∧ Moves ramPages ph d.list ph' d.list ∧
    TooFew ph es.length newsz)

/-- How `uvmalloc` panics: the pages last until the trapframe. -/
def UvmallocPanic (es : List Entry) (newsz : Nat) (ph : Phys) (e : Panic) : Prop :=
  e = .remap ∧ TRAPFRAME < newsz ∧ ¬ TooFew ph es.length newsz

/-- The loop of `uvmalloc` adds a page in each round, or takes all of them back. -/
theorem uvmallocLoop_exact {d : Dirs} {tf : Entry} {es : List Entry} (newsz : Nat) {ph : Phys}
    (ho : Owns ramPages ph d.list) (rounds : Nat) :
    ∀ {new : List Entry} {ph₁ : Phys}, Laid d tf es new (fun _ => 0) ph ph₁ →
      (∀ e ∈ new, e.flags = PTE_USER) → (es ++ new).length ≤ tfIndex →
      tfIndex < rounds + (es ++ new).length →
      (newsz ≤ TRAPFRAME → (es ++ new).length ≤ npages newsz) →
      wp (uvmallocLoop d.root (es.length * PGSIZE) newsz rounds ((es ++ new).length * PGSIZE))
        (UvmallocExact d tf es newsz ph) (UvmallocPanic es newsz ph) ph₁ := by
  induction rounds with
  | zero => intro new ph₁ _ _ hle hr _; omega
  | succ rounds ih =>
    intro new ph₁ h hflags hle hr hbelow
    have hcount := h.length
    have hlen : (es ++ new).length = es.length + new.length := length_append
    have htf : tfIndex * PGSIZE = TRAPFRAME := by decide
    unfold wp
    rw [uvmallocLoop]
    by_cases hlt : (es ++ new).length * PGSIZE < newsz
    · rw [if_pos hlt]
      -- one more page is needed
      have hneed : newsz ≤ TRAPFRAME → (es ++ new).length < npages newsz := by
        intro hn
        rw [npages_eq hn]
        unfold PGSIZE at hlt
        omega
      cases hfree : ph₁.freelist with
      | nil =>
        obtain ⟨r, ph', hrun, hc', hm'⟩ := h.undo ho hle
        rw [run_bind_ok (kalloc_none hfree)]
        dsimp only
        rw [run_bind_ok hrun]
        refine Or.inr ⟨rfl, hc', hm', ?_⟩
        rw [hfree, length_nil] at hcount
        unfold TooFew
        split
        · have := hneed ‹_›
          omega
        · omega
      | cons pg free =>
        have hmem : ∀ a, ¬ InPage ramPages pg a →
            fill (fill ph₁.mem pg 5 PGSIZE) pg 0 PGSIZE a = ph₁.mem a :=
          fun a ha => (fill_outside ha).trans (fill_outside ha)
        have hzero : ∀ o < PGSIZE, fill (fill ph₁.mem pg 5 PGSIZE) pg 0 PGSIZE (pg + o) = 0 :=
          fun o ho => if_pos ⟨Nat.le_add_right _ _, Nat.add_lt_add_left ho _⟩
        rw [hfree, length_cons] at hcount
        rw [run_bind_ok (kalloc_some hfree)]
        dsimp only
        rw [run_bind_ok (memset_run _ _ _ _)]
        rcases Nat.lt_or_eq_of_le hle with hltf | heq
        · obtain ⟨ph₂, hmap, hnext⟩ :=
            h.next ho hltf hfree hmem hzero (f := PTE_USER) (by decide) rfl
          have hlen' : (es ++ (new ++ [(⟨pg, PTE_USER⟩ : Entry)])).length
              = (es ++ new).length + 1 := by
            rw [← append_assoc, length_append, length_singleton]
          have hflags' : ∀ e ∈ new ++ [(⟨pg, PTE_USER⟩ : Entry)], e.flags = PTE_USER := by
            intro e he
            rcases mem_append.mp he with he | he
            · exact hflags e he
            · rw [mem_singleton.mp he]
          have hrec := ih hnext hflags' (by omega) (by omega) fun hn => by
            have := hneed hn
            omega
          rw [hlen', Nat.succ_mul] at hrec
          rw [run_bind_ok hmap, if_neg (by decide)]
          exact hrec
        · -- the next page is the trapframe
          have hva : (es ++ new).length * PGSIZE = TRAPFRAME := by rw [heq, htf]
          have hsome : userMap (some tf) (es ++ new) (TRAPFRAME / PGSIZE) = some tf := if_pos rfl
          have hmap : (mappages d.root TRAPFRAME PGSIZE pg PTE_USER).run
              ⟨fill (fill ph₁.mem pg 5 PGSIZE) pg 0 PGSIZE, free⟩ = .error .remap :=
            (h.taken ho hfree hmem).2.1.mappages_remap (by decide) (by decide) PTE_USER hsome
          rw [hva, run_bind_error hmap]
          refine ⟨rfl, hva ▸ hlt, ?_⟩
          unfold TooFew
          rw [if_neg (by rw [← hva]; omega)]
          omega
    · rw [if_neg hlt]
      have hn : newsz ≤ TRAPFRAME := by
        have := Nat.mul_le_mul_right PGSIZE hle
        omega
      refine Or.inl ⟨rfl, hn, new, h, ?_, hflags⟩
      have hle' := hbelow hn
      rw [npages_eq hn] at hle' ⊢
      unfold PGSIZE at hlt
      omega

/-- `uvmalloc` adds the pages up to the new size, or none. -/
theorem uvmalloc_exact {d : Dirs} {tf : Entry} {es : List Entry} (newsz : Nat) {ph : Phys}
    (hc : Chain ph.mem d (userMap (some tf) es)) (hlen : es.length = npages oldsz)
    (hsz : oldsz ≤ TRAPFRAME) (ho : Owns ramPages ph d.list) :
    wp (uvmalloc d.root oldsz newsz)
      (fun r ph' => (newsz < oldsz ∧ r = oldsz ∧ ph' = ph) ∨
        (oldsz ≤ newsz ∧ UvmallocExact d tf es newsz ph r ph'))
      (UvmallocPanic es newsz ph) ph := by
  unfold uvmalloc
  by_cases hlt : newsz < oldsz
  · rw [if_pos hlt]
    exact wp_of_ok rfl (Or.inl ⟨hlt, rfl, rfl⟩)
  · rw [if_neg hlt, pgroundup_eq, ← hlen]
    have hle : es.length ≤ tfIndex := hlen ▸ npages_le hsz
    have hloop := uvmallocLoop_exact newsz ho NVPAGES (Laid.refl hc _) nofun (by simpa using hle)
      (by rw [nvpages, tfIndex_eq]; omega) fun hn => by
        rw [append_nil, hlen]
        exact npages_mono (by omega) hn
    rw [append_nil] at hloop
    exact wp_post hloop fun r ph' hpost => Or.inr ⟨by omega, hpost⟩

end Xv6.Proofs
