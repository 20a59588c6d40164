import Xv6.Proofs.Vm.Space

/-!
# `Xv6.Proofs.Vm.Copy`: copying user memory

`uvmcopy` gives a second table pages of its own with the same bytes and flags, or it takes nothing.
`copyout`, `copyin` and `loadseg` reach user pages through `walkaddr`, which finds the pages of
the user and never a table or the trapframe. So writing through it keeps every table.
-/

set_option autoImplicit false

namespace Xv6.Proofs

open Lib List
open Function (update update_of_ne update_self)

variable {c mem : Bytes} {off pg : Nat}

/-! ### Copying -/

/-- The flags that user pages have: from `uvmalloc`, from `uvminit`, and those of the page below
the stack. -/
def UserFlags (f : Pte) : Prop :=
  f = PTE_USER ∨ f = PTE_P ||| PTE_W ||| PTE_PLV ||| PTE_MAT ∨ f = PTE_USER &&& ~~~PTE_PLV

theorem UserFlags.ok {f : Pte} (h : UserFlags f) : PTE_FLAGS f = f ∧ f ||| PTE_V ≠ PTE_V := by
  rcases h with rfl | rfl | rfl <;> decide

/-- `uint flags = f` -/
def uintFlags (f : Pte) : Pte := (f.setWidth 32).setWidth 64

theorem UserFlags.uintFlags_eq_self {f : Pte} (h : UserFlags f) : uintFlags f = f := by
  rcases h with rfl | rfl | rfl <;> decide

theorem uintFlags_eq (f : Pte) : uintFlags f = f &&& 0xFFFFFFFF#64 := by
  apply BitVec.eq_of_toNat_eq
  have hmask : (0xFFFFFFFF#64).toNat = 2 ^ 32 - 1 := by decide
  have hlt : f.toNat % 2 ^ 32 < 2 ^ 64 := by omega
  unfold uintFlags
  rw [BitVec.toNat_and, hmask, Nat.and_two_pow_sub_one_eq_mod, BitVec.toNat_setWidth,
    BitVec.toNat_setWidth, Nat.mod_eq_of_lt hlt]

theorem uintFlags_or_v (f : Pte) : uintFlags (f ||| PTE_V) = uintFlags f ||| PTE_V := by
  rw [uintFlags_eq, uintFlags_eq, BitVec.and_or_distrib_right,
    show (PTE_V &&& 0xFFFFFFFF#64 : Pte) = PTE_V by decide]

theorem uintFlags_flags {f : Pte} (h : PTE_FLAGS f = f) :
    PTE_FLAGS (uintFlags f) = uintFlags f := by
  rw [uintFlags_eq]
  unfold PTE_FLAGS at h ⊢
  rw [BitVec.and_assoc, BitVec.and_comm 0xFFFFFFFF#64, ← BitVec.and_assoc, h]

/-- The entry that `uvmcopy` makes for page `pg` from an entry of the parent. -/
def Entry.copyTo (e : Entry) (pg : Nat) : Entry := ⟨pg, uintFlags e.flags⟩

/-- The shape of an address space of size `sz`: leaves for the pages below `sz`, whatever their
flags, and for the trapframe. -/
structure LeafSpace (mem : Bytes) (trapframe : Nat) (d : Dirs) (es : List Entry) (sz : Nat) :
    Prop where
  chain : Chain mem d (userMap (some (tfEntry trapframe)) es)
  length : es.length = npages sz
  le : sz ≤ TRAPFRAME

/-- A complete address space of size `sz`, with the flags that this kernel gives to its pages. -/
structure UserSpace (mem : Bytes) (trapframe : Nat) (d : Dirs) (es : List Entry) (sz : Nat) : Prop
    extends LeafSpace mem trapframe d es sz where
  flags : ∀ e ∈ es, UserFlags e.flags

/-- The pages of `putBytes`. -/
theorem putBytes_outside {bs : List UInt8} (hbs : off + bs.length ≤ PGSIZE) {a : Nat}
    (ha : ¬ InPage ramPages pg a) : putBytes mem (pg + off) bs a = mem a := by
  unfold putBytes
  refine if_neg fun hin => ha ?_
  unfold InPage
  show pg ≤ a ∧ a < pg + PGSIZE
  omega

theorem memmove_outside {mem' : Bytes} {src : Nat} {a : Nat} (ha : ¬ InPage ramPages pg a) :
    putBytes mem pg (getBytes mem' src PGSIZE) a = mem a := by
  have hlen : 0 + (getBytes mem' src PGSIZE).length ≤ PGSIZE := by simp [getBytes]
  exact putBytes_outside hlen ha

/-- The bytes that `memmove` of a page leaves there. -/
theorem memmove_bytes {src o : Nat} (ho : o < PGSIZE) :
    putBytes mem pg (getBytes mem src PGSIZE) (pg + o) = mem (src + o) := by
  unfold putBytes getBytes
  rw [length_map, length_range, if_pos ⟨Nat.le_add_right _ _, Nat.add_lt_add_left ho _⟩,
    Nat.add_sub_cancel_left, getD_eq_getElem?_getD, List.getElem?_map,
    List.getElem?_range ho]
  rfl

section Copy

variable {d d' : Dirs} {m : PageMap} {rest : List Nat} {tf' e : Entry} {new : List Entry}
  {ph ph₁ : Phys}

/-- The child has got the pages `new`: copies of the parent's, with what a `uint` holds of their
flags. `rest` are pages of the parent that nobody else writes. -/
structure Copied (m : PageMap) (rest : List Nat) (d' : Dirs) (tf' : Entry) (new : List Entry)
    (ph ph₁ : Phys) : Prop extends Placed d' tf' [] new ph ph₁ where
  flags : ∀ i e e', m i = some e → new[i]? = some e' → e'.flags = uintFlags e.flags
  bytes : ∀ i e e', m i = some e → new[i]? = some e' → e.page ∈ rest → ∀ o < PGSIZE,
    ph₁.mem (e'.page + o) = ph.mem (e.page + o)

/-- The copies of the first `n` leaves are leaves, so `uvmunmap` takes them. -/
def LeafCopies (m : PageMap) (n : Nat) : Prop :=
  ∀ i < n, ∀ e, m i = some e → uintFlags e.flags ||| PTE_V ≠ PTE_V

theorem Copied.refl (hnew : Chain ph.mem d' (userMap (some tf') [])) :
    Copied m rest d' tf' [] ph ph := ⟨Placed.refl hnew.toTables, nofun, nofun⟩

/-- One round that finds a free page. -/
theorem Copied.next (h : Copied m rest d' tf' new ph ph₁) (hold : Chain ph.mem d m)
    (ho : Owns ramPages ph (d'.list ++ rest)) (hlt : new.length < tfIndex)
    (he : m new.length = some e) {free : List Nat} (hfree : ph₁.freelist = pg :: free) :
    ∃ ph₂, (mappages d'.root (new.length * PGSIZE) PGSIZE pg (uintFlags (e.flags ||| PTE_V))).run
        ⟨putBytes (fill ph₁.mem pg 5 PGSIZE) pg (getBytes (fill ph₁.mem pg 5 PGSIZE) e.page PGSIZE),
          free⟩ = .ok (0, ph₂) ∧ Copied m rest d' tf' (new ++ [e.copyTo pg]) ph ph₂ := by
  have hvalid := hold.valid _ e he
  have hperm : uintFlags (e.flags ||| PTE_V) ||| PTE_V = uintFlags e.flags ||| PTE_V := by
    rw [uintFlags_or_v, BitVec.or_assoc, BitVec.or_self]
  obtain ⟨ph₂, hrun, hplaced, hsame, hpage⟩ := h.toPlaced.next ho.of_append
    (by rw [nil_append]; exact hlt) hfree
    (fun a ha => (memmove_outside ha).trans (fill_outside ha)) (uintFlags_flags hvalid.flags) hperm
  -- an index of the new list is an old one or the last one
  have hcases : ∀ {i : Nat} {e' : Entry}, (new ++ [e.copyTo pg])[i]? = some e' →
      new[i]? = some e' ∨ (i = new.length ∧ e.copyTo pg = e') := by
    intro i e' he'
    rw [getElem?_append] at he'
    split at he'
    · exact Or.inl he'
    · obtain ⟨hi, heq⟩ := List.getElem?_eq_some_iff.mp he'
      rw [length_singleton] at hi
      refine Or.inr ⟨by omega, ?_⟩
      rw [← heq, getElem_singleton]
  refine ⟨ph₂, hrun, hplaced, fun i e₀ e' hm he' => ?_, fun i e₀ e' hm he' hin o ho' => ?_⟩
  · rcases hcases he' with hi | ⟨rfl, rfl⟩
    · exact h.flags i e₀ e' hm hi
    · obtain rfl := Option.some.inj (he.symm.trans hm)
      rfl
  · have hmem : ∀ q, InPage ramPages q (q + o) := fun q =>
      ⟨Nat.le_add_right _ _, Nat.add_lt_add_left ho' _⟩
    rcases hcases he' with hi | ⟨rfl, rfl⟩
    · rw [hsame e' (mem_of_getElem? hi) _ (hmem _)]
      exact h.bytes i e₀ e' hm hi hin o ho'
    · obtain rfl := Option.some.inj (he.symm.trans hm)
      -- the free page is no page of the parent
      have hnodup := (ho.moves (h.moves.frame rest)).nodup
      rw [hfree] at hnodup
      have hne : e.page ≠ pg := fun heq => (nodup_append.mp hnodup).2.2 pg mem_cons_self pg
        (mem_append_right _ (heq ▸ hin)) rfl
      have hpg := (h.taken ho.of_append hfree fun _ _ => rfl).1
      show ph₂.mem (pg + o) = _
      rw [hpage _ (hmem pg), memmove_bytes ho', fill_outside fun hin' => hne
        (inPage_unique (K := ramPages) hvalid.page hpg (hmem _) hin')]
      exact h.moves.kept ho hin (hmem _)

/-- The error exit takes the new pages back, if they are leaves. -/
theorem Copied.err (h : Copied m rest d' tf' new ph ph₁) (ho : Owns ramPages ph d'.list)
    (hle : new.length ≤ tfIndex) (hsome : ∀ i < new.length, m i ≠ none) :
    wp (uvmcopyErr d'.root (new.length * PGSIZE))
      (fun r ph' => r = -1 ∧ LeafCopies m new.length ∧
        Tables ph'.mem d' (userMap (some tf') []) ∧ Moves ramPages ph d'.list ph' d'.list)
      (fun _ => ¬ LeafCopies m new.length) ph₁ := by
  have hleaf : (∀ e' ∈ new, Entry.Leaf e') ↔ LeafCopies m new.length := by
    constructor
    · intro hall i hi e hm
      have hget := getElem?_eq_getElem hi
      rw [← h.flags i e _ hm hget]
      exact hall _ (mem_of_getElem? hget)
    · intro hall e' he'
      obtain ⟨i, hi⟩ := mem_iff_getElem?.mp he'
      have hlt := (List.getElem?_eq_some_iff.mp hi).1
      obtain ⟨e, hm⟩ := Option.ne_none_iff_exists'.mp (hsome i hlt)
      unfold Entry.Leaf
      rw [h.flags i e e' hm hi]
      exact hall i hlt e hm
  have hget : ∀ k e', new[k]? = some e' → userMap (some tf') ([] ++ new) (0 + k) = some e' := by
    intro k e' hk
    have hlt := (List.getElem?_eq_some_iff.mp hk).1
    rw [Nat.zero_add, nil_append, userMap_get (by omega), hk]
  have hunmap := uvmunmap_tables true h.tables hget (by rw [tfIndex_eq] at hle; omega)
    fun _ => ho.moves h.moves
  rw [Nat.zero_mul] at hunmap
  unfold uvmcopyErr
  rw [Nat.mul_div_cancel _ (show 0 < PGSIZE by decide), wp_bind]
  refine wp_mono hunmap (fun _ ph' ⟨hall, ht, hm⟩ => ?_) fun _ ⟨e', he', hnot⟩ hcopies =>
    hnot (hleaf.mpr hcopies e' he')
  have hclear := clear_userMap (some tf') hle 0
  rw [Nat.sub_zero, take_zero] at hclear
  rw [nil_append, hclear] at ht
  exact ⟨rfl, hleaf.mp hall, ht, h.moves.trans hm⟩

/-- How `uvmcopy` returns: the child has copies of all pages, or it has no pages because there were
too few. -/
def CopyPost (m : PageMap) (rest : List Nat) (d' : Dirs) (tf' : Entry) (sz : Nat) (ph : Phys)
    (r : Int) (ph' : Phys) : Prop :=
  (r = 0 ∧ sz ≤ TRAPFRAME ∧ ∃ new, Copied m rest d' tf' new ph ph' ∧ new.length = npages sz) ∨
  (r = -1 ∧ Tables ph'.mem d' (userMap (some tf') []) ∧ Moves ramPages ph d'.list ph' d'.list ∧
    ph.freelist.length * PGSIZE < sz ∧ LeafCopies m ph.freelist.length)

/-- How `uvmcopy` panics: at the trapframe, or when it gives back a page that has lost its flags. -/
def CopyPanic (m : PageMap) (sz : Nat) (ph : Phys) : Prop :=
  TRAPFRAME < sz ∨ (ph.freelist.length * PGSIZE < sz ∧ ¬ LeafCopies m ph.freelist.length)

/-- The loop of `uvmcopy` copies page after page, or frees all copies again. -/
theorem uvmcopyLoop_spec {sz : Nat} (hold : Chain ph.mem d m)
    (hsome : ∀ i, i * PGSIZE < sz → m i ≠ none)
    (ho : Owns ramPages ph (d'.list ++ (d.list ++ rest))) (rounds : Nat) :
    ∀ {new : List Entry} {ph₁ : Phys}, Copied m (d.list ++ rest) d' tf' new ph ph₁ →
      new.length ≤ tfIndex → (∀ i < new.length, i * PGSIZE < sz) → tfIndex < new.length + rounds →
      wp (uvmcopyLoop d.root d'.root sz rounds (new.length * PGSIZE))
        (CopyPost m (d.list ++ rest) d' tf' sz ph) (fun _ => CopyPanic m sz ph) ph₁ := by
  induction rounds with
  | zero => intro new ph₁ _ hle _ hr; omega
  | succ rounds ih =>
    intro new ph₁ h hle hbelow hr
    have hcount := h.length
    have htf : tfIndex * PGSIZE = TRAPFRAME := by decide
    rw [uvmcopyLoop]
    by_cases hlt : new.length * PGSIZE < sz
    swap
    · have hsz : sz ≤ TRAPFRAME := by
        have := Nat.mul_le_mul_right PGSIZE hle
        omega
      have hlen : new.length = npages sz := by
        rw [npages_eq hsz]
        have hlast := hbelow (new.length - 1)
        unfold PGSIZE at hlt hlast
        omega
      rw [if_neg hlt]
      exact wp_of_ok rfl (Or.inl ⟨rfl, hsz, new, h, hlen⟩)
    have hva : new.length * PGSIZE < MAXVA := by
      rw [tfIndex_eq] at hle
      unfold MAXVA PGSIZE
      omega
    have hidx : new.length * PGSIZE / PGSIZE = new.length := Nat.mul_div_cancel _ (by decide)
    -- the parent's table is untouched
    have hold₁ : Chain ph₁.mem d m := hold.kept h.moves ho fun pg hpg => mem_append_left _ hpg
    obtain ⟨e, he⟩ := Option.ne_none_iff_exists'.mp (hsome _ hlt)
    have hvalid := hold₁.valid _ e he
    rw [if_pos hlt, wp_bind]
    refine wp_of_ok (hold₁.walk_run hva false) ?_
    dsimp only
    rw [wp_bind]
    refine wp_of_ok (readPte_run _ _) ?_
    rw [hold₁.word hva, hidx, he, pteOf_some, if_neg (Entry.pte_v e), hvalid.flags_pte,
      hvalid.dmwin, wp_bind]
    cases hfree : ph₁.freelist with
    | nil =>
      rw [hfree, length_nil, Nat.zero_add] at hcount
      refine wp_of_ok (kalloc_none hfree) ?_
      have herr := h.err ho.of_append hle fun i hi => hsome i (hbelow i hi)
      rw [hcount] at herr hlt ⊢
      exact wp_mono herr
        (fun r ph' ⟨hr, hleaf, ht, hm⟩ => Or.inr ⟨hr, ht, hm, hlt, hleaf⟩)
        fun _ hnot => Or.inr ⟨hlt, hnot⟩
    | cons pg free =>
      refine wp_of_ok (kalloc_some hfree) ?_
      dsimp only
      rw [wp_bind]
      refine wp_of_ok (memmove_run _ _ _ _) ?_
      rw [wp_bind]
      rcases Nat.lt_or_eq_of_le hle with hltf | heq
      · obtain ⟨ph₂, hrun, hnext⟩ := h.next hold ho hltf he hfree
        have hlen' : (new ++ [e.copyTo pg]).length = new.length + 1 := by
          rw [length_append, length_singleton]
        have hrec := ih hnext (by omega) (fun i hi => ?_) (by omega)
        · rw [hlen', Nat.succ_mul] at hrec
          refine wp_of_ok hrun ?_
          rw [if_neg (by decide)]
          exact hrec
        · rcases Nat.lt_succ_iff_lt_or_eq.mp (hlen' ▸ hi) with hold' | rfl
          · exact hbelow i hold'
          · exact hlt
      · -- the next page is the trapframe
        have htop : new.length * PGSIZE = TRAPFRAME := by rw [heq, htf]
        have hmem : ∀ a, ¬ InPage ramPages pg a →
            putBytes (fill ph₁.mem pg 5 PGSIZE) pg
              (getBytes (fill ph₁.mem pg 5 PGSIZE) e.page PGSIZE) a = ph₁.mem a :=
          fun a ha => (memmove_outside ha).trans (fill_outside ha)
        have hmap := (h.taken ho.of_append hfree hmem).2.1
        have hentry : userMap (some tf') ([] ++ new) (new.length * PGSIZE / PGSIZE) = some tf' := by
          rw [hidx, heq]
          exact if_pos rfl
        exact wp_of_error (Tables.mappages_remap hmap hva (Nat.mul_mod_left _ _)
          (uintFlags (e.flags ||| PTE_V)) hentry) (Or.inl (htop ▸ hlt))

/-- `uvmcopy` for leaves with any flags, below any size. -/
theorem uvmcopy_wp {sz : Nat} (hold : Chain ph.mem d m)
    (hsome : ∀ i, i * PGSIZE < sz → m i ≠ none) (hnew : Chain ph.mem d' (userMap (some tf') []))
    (ho : Owns ramPages ph (d'.list ++ (d.list ++ rest))) :
    wp (uvmcopy d.root d'.root sz) (CopyPost m (d.list ++ rest) d' tf' sz ph)
      (fun _ => CopyPanic m sz ph) ph := by
  have hloop := uvmcopyLoop_spec hold hsome ho NVPAGES (Copied.refl hnew) (Nat.zero_le _) nofun
    (by rw [nvpages, tfIndex_eq]; simp)
  rwa [length_nil, Nat.zero_mul] at hloop

/-- A page of the child is the copy of the parent's page at the same index. -/
theorem Copied.get {tf : Entry} {es : List Entry}
    (h : Copied (userMap (some tf) es) rest d' tf' new ph ph₁) (hlen : new.length = es.length)
    (hle : es.length ≤ tfIndex) {i : Nat} {e' : Entry} (he' : new[i]? = some e') :
    ∃ e, es[i]? = some e ∧ e'.flags = uintFlags e.flags ∧
      (e.page ∈ rest → ∀ o < PGSIZE, ph₁.mem (e'.page + o) = ph.mem (e.page + o)) := by
  have hlt := (List.getElem?_eq_some_iff.mp he').1
  have hget : es[i]? = some es[i] := getElem?_eq_getElem (by omega)
  have hm : userMap (some tf) es i = some es[i] := (userMap_get (by omega)).trans hget
  exact ⟨es[i], hget, h.flags i _ e' hm he', h.bytes i _ e' hm he'⟩

end Copy

/-- An address space has pages up to its size. -/
theorem userMap_ne_none {tf : Option Entry} {es : List Entry} {sz : Nat}
    (hlen : es.length = npages sz) (hsz : sz ≤ TRAPFRAME) (i : Nat) (hi : i * PGSIZE < sz) :
    userMap tf es i ≠ none := by
  have hle := npages_le hsz
  have hlt : i < es.length := by
    rw [hlen, npages_eq hsz]
    unfold PGSIZE at hi
    omega
  rw [userMap_get (by omega), getElem?_eq_getElem hlt]
  exact Option.some_ne_none _

/-- Sizes and numbers of pages. -/
theorem mul_pgsize_lt_iff {es : List Entry} {n sz : Nat} (hlen : es.length = npages sz)
    (hsz : sz ≤ TRAPFRAME) : n * PGSIZE < sz ↔ n < es.length := by
  rw [hlen, npages_eq hsz]
  unfold PGSIZE
  omega

/-- How `uvmcopy` returns for the pages of a process: the child has pages of its own that hold what
the parent's hold, or it has no pages because there were too few. -/
def UvmcopyPost (d' : Dirs) (tf' : Entry) (es : List Entry) (c : Bytes) (ph : Phys) (r : Int)
    (ph' : Phys) : Prop :=
  (r = 0 ∧ ∃ es', Laid d' tf' [] es' c ph ph' ∧ es'.map Entry.flags = es.map Entry.flags) ∨
  (r = -1 ∧ Chain ph'.mem d' (userMap (some tf') []) ∧ Moves ramPages ph d'.list ph' d'.list ∧
    ph.freelist.length < es.length)

/-- The child gets a copy of every page with the same bytes, or nothing. -/
theorem uvmcopy_spec {d d' : Dirs} {tf tf' : Entry} {es : List Entry} {sz : Nat} {ph : Phys}
    (hold : Chain ph.mem d (userMap (some tf) es)) (hbytes : PagesHold ph.mem es c)
    (hnew : Chain ph.mem d' (userMap (some tf') [])) (hflags : ∀ e ∈ es, UserFlags e.flags)
    (hlen : es.length = npages sz) (hsz : sz ≤ TRAPFRAME)
    (ho : Owns ramPages ph (d'.list ++ spacePages d es)) :
    ∃ r ph', (uvmcopy d.root d'.root sz).run ph = .ok (r, ph') ∧
      UvmcopyPost d' tf' es c ph r ph' := by
  have hle : es.length ≤ tfIndex := hlen ▸ npages_le hsz
  have hfew := mul_pgsize_lt_iff (n := ph.freelist.length) hlen hsz
  -- these flags fit in a `uint`, so no copy loses the mark of a leaf
  have hpanic : ¬ CopyPanic (userMap (some tf) es) sz ph := by
    rintro (hbig | ⟨hn, hnot⟩)
    · omega
    · refine hnot fun i hi e he => ?_
      rw [userMap_get (by omega)] at he
      have huser := hflags e (mem_of_getElem? he)
      rw [huser.uintFlags_eq_self]
      exact huser.ok.2
  obtain ⟨r, ph', hrun, ⟨rfl, -, es', h, hlen'⟩ | ⟨rfl, ht, hm, hn, -⟩⟩ := wp_returns (wp_mono
    (uvmcopy_wp hold (userMap_ne_none hlen hsz) hnew ho) (fun _ _ h => h) fun _ he => hpanic he)
  swap
  · exact ⟨-1, ph', hrun, Or.inr ⟨rfl, ⟨ht, hnew.leaf⟩, hm, hfew.mp hn⟩⟩
  have hget := fun {i e'} (he' : es'[i]? = some e') => h.get (hlen'.trans hlen.symm) hle he'
  have hsame : es'.map Entry.flags = es.map Entry.flags := by
    refine List.ext_getElem (by rw [length_map, length_map]; omega) fun i hi hi' => ?_
    rw [length_map] at hi hi'
    rw [getElem_map, getElem_map]
    obtain ⟨e, he, hf, -⟩ := hget (getElem?_eq_getElem hi)
    rw [getElem?_eq_getElem hi', Option.some.injEq] at he
    rw [hf, he]
    exact (hflags e (he ▸ getElem_mem hi')).uintFlags_eq_self
  refine ⟨0, ph', hrun, Or.inl ⟨rfl, es',
    ⟨h.toPlaced, fun i e' he' => ?_, fun i e' he' o ho' => ?_⟩, hsame⟩⟩
  · by_cases hi : i = tfIndex
    · refine hnew.leaf i e' ?_
      rw [hi] at he' ⊢
      exact he'
    · have he'' : es'[i]? = some e' := (if_neg hi).symm.trans he'
      obtain ⟨e, he, hf, -⟩ := hget he''
      have huser := hflags e (mem_of_getElem? he)
      unfold Entry.Leaf
      rw [hf, huser.uintFlags_eq_self]
      exact huser.ok.2
  · obtain ⟨e, he, -, hcopy⟩ := hget he'
    rw [hcopy (mem_append_right _ (mem_map_of_mem (mem_of_getElem? he))) o ho']
    exact hbytes i e he o ho'

/-! ### The page below the stack -/

theorem Entry.pte_clear (e : Entry) :
    Entry.pte e &&& ~~~PTE_PLV = Entry.pte ⟨e.page, e.flags &&& ~~~PTE_PLV⟩ := by
  have hpa : PA2PTE e.page &&& ~~~PTE_PLV = PA2PTE e.page := by
    have hmask : PAMASK &&& ~~~PTE_PLV = PAMASK := by decide
    rw [PA2PTE, BitVec.and_assoc, hmask]
  have hv : PTE_V &&& ~~~PTE_PLV = PTE_V := by decide
  rw [Entry.pte_eq, Entry.pte_eq, BitVec.and_or_distrib_right, BitVec.and_or_distrib_right, hpa, hv]

theorem userMap_set {tf : Option Entry} {es : List Entry} {k : Nat} (hk : k < es.length)
    (hle : es.length ≤ tfIndex) (e : Entry) :
    update (userMap tf es) k (some e) = userMap tf (es.set k e) := by
  funext i
  unfold userMap
  by_cases hi : i = k
  · rw [hi, update_self, if_neg (by omega), List.getElem?_set_self hk]
  · rw [update_of_ne hi, List.getElem?_set_ne (Ne.symm hi)]

/-- The entry of the page at index `k`, cut off from the user. -/
def guard (es : List Entry) (k : Nat) : List Entry :=
  es.modify k fun e => { e with flags := e.flags &&& ~~~PTE_PLV }

theorem spacePages_guard (d : Dirs) (es : List Entry) (k : Nat) :
    spacePages d (guard es k) = spacePages d es := by
  unfold spacePages guard
  congr 1
  refine ext_getElem? fun i => ?_
  rw [List.getElem?_map, List.getElem?_map, List.getElem?_modify]
  cases es[i]? with
  | none => rfl
  | some e => by_cases h : k = i <;> simp [h]

theorem guard_flags {es : List Entry} (h : ∀ e ∈ es, e.flags = PTE_USER) (k : Nat) :
    ∀ e ∈ guard es k, UserFlags e.flags := by
  intro e he
  obtain ⟨i, hi⟩ := mem_iff_getElem?.mp he
  rw [guard, List.getElem?_modify, Option.map_eq_map, Option.map_eq_some_iff] at hi
  obtain ⟨e', he', rfl⟩ := hi
  have huser := h e' (mem_of_getElem? he')
  split
  · exact Or.inr (Or.inr (by rw [huser]))
  · exact Or.inl huser

/-- `uvmclear` takes the user bits from one page. -/
theorem uvmclear_spec {ph : Phys} {d : Dirs} {tf : Option Entry} {es : List Entry} {k : Nat}
    (hc : Chain ph.mem d (userMap tf es)) (hk : k < es.length) (hle : es.length ≤ tfIndex)
    (huser : es[k].flags = PTE_USER) :
    ∃ ph', (uvmclear d.root (k * PGSIZE)).run ph = .ok ((), ph') ∧
      Chain ph'.mem d (userMap tf (guard es k)) ∧ Moves ramPages ph d.list ph' d.list := by
  have hva : k * PGSIZE < MAXVA := by
    rw [tfIndex_eq] at hle
    unfold MAXVA PGSIZE
    omega
  have hdiv : k * PGSIZE / PGSIZE = k := Nat.mul_div_cancel _ (by decide)
  have hentry : userMap tf es k = some es[k] := by
    rw [userMap_get (by omega), List.getElem?_eq_getElem hk]
  have hword : pteAt ph.mem (d.p0 + 8 * (k * PGSIZE / PGSIZE)) &&& ~~~PTE_PLV
      = pteOf (some ⟨es[k].page, es[k].flags &&& ~~~PTE_PLV⟩) := by
    rw [hc.word hva, hdiv, hentry, pteOf_some, Entry.pte_clear]
    rfl
  have hguard : es.set k ⟨es[k].page, es[k].flags &&& ~~~PTE_PLV⟩ = guard es k := by
    refine ext_getElem? fun i => ?_
    rw [guard, List.getElem?_modify, List.getElem?_set]
    by_cases h : k = i
    · subst h
      simp [hk]
    · simp [h]
  refine ⟨⟨putLE ph.mem (d.p0 + 8 * k) 8
    (pteOf (some ⟨es[k].page, es[k].flags &&& ~~~PTE_PLV⟩)).toNat, ph.freelist⟩, ?_, ?_, ?_⟩
  · rw [uvmclear, run_bind_ok (hc.walk_run hva false)]
    dsimp only
    rw [run_bind_ok (readPte_run _ _), writePte_run, hword, hdiv]
  · have hw := hc.write (i := k) (by rw [tfIndex_eq] at hle; omega)
      (o := some ⟨es[k].page, es[k].flags &&& ~~~PTE_PLV⟩) (by
        rintro e ⟨⟩
        rw [huser]
        exact ⟨⟨(hc.ok _ _ hentry).page, (UserFlags.ok (Or.inr (Or.inr rfl))).1⟩,
          (UserFlags.ok (Or.inr (Or.inr rfl))).2⟩)
    rwa [userMap_set hk hle, hguard] at hw
  · have hp0 : d.p0 ∈ d.list := by simp [Dirs.list]
    exact Moves.write hp0 fun a ha => putLE_outside (by rw [tfIndex_eq] at hle; omega) ha

/-! ### Reaching user pages -/

section Reach

variable {ph : Phys} {d : Dirs} {tf : Entry} {es : List Entry}

/-- What `walkaddr` finds is a page of the user. -/
theorem userAddr_page (htf : tf.flags &&& PTE_PLV = 0) {i : Nat}
    (h : userAddr (userMap (some tf) es i) ≠ 0) :
    ∃ e ∈ es, userAddr (userMap (some tf) es i) = phys e.page := by
  unfold userMap at h ⊢
  by_cases hi : i = tfIndex
  · rw [if_pos hi, userAddr, if_pos htf] at h
    exact absurd rfl h
  · rw [if_neg hi] at h ⊢
    cases hget : es[i]? with
    | none =>
      rw [hget] at h
      exact absurd rfl h
    | some e =>
      rw [hget, userAddr] at h
      refine ⟨e, mem_of_getElem? hget, ?_⟩
      rw [userAddr]
      split at h
      · exact absurd rfl h
      · rename_i hplv
        rw [if_neg hplv]

/-- Bytes stored in a user page. -/
theorem user_write (hc : Chain ph.mem d (userMap (some tf) es))
    (ho : Owns ramPages ph (spacePages d es)) {e : Entry} (he : e ∈ es) (bs : List UInt8)
    (hoff : off < PGSIZE) (hbs : off + bs.length ≤ PGSIZE) :
    ∃ ph', (store (dmwin (phys e.page + off)) bs).run ph = .ok ((), ph') ∧
      Chain ph'.mem d (userMap (some tf) es) ∧
      Moves ramPages ph (spacePages d es) ph' (spacePages d es) ∧
      ph'.mem = putBytes ph.mem (e.page + off) bs := by
  have hmem : e.page ∈ spacePages d es :=
    mem_append_right _ (mem_map_of_mem he)
  have hpage : IsPage e.page := ho.own_valid hmem
  have hd : e.page ∉ d.list := by
    have hnodup : (d.list ++ es.map Entry.page).Nodup := (nodup_append.mp ho.nodup).2.1
    intro hin
    exact disjoint_of_nodup_append hnodup hin (mem_map_of_mem he)
  rw [dmwin_phys hpage hoff]
  exact ⟨_, store_run _ _ _, hc.other hpage hd fun a ha => putBytes_outside hbs ha,
    Moves.write hmem fun a ha => putBytes_outside hbs ha, rfl⟩

/-- The same as a write to user memory. -/
theorem PagesHold.store {own : List Nat} (h : PagesHold mem es c)
    (ho : Owns ramPages ph (own ++ es.map Entry.page)) {i : Nat} {e : Entry} (he : es[i]? = some e)
    {bs : List UInt8} (hbs : off + bs.length ≤ PGSIZE) :
    PagesHold (putBytes mem (e.page + off) bs) es (putBytes c (i * PGSIZE + off) bs) := by
  have hmap : ∀ {j : Nat} {e' : Entry}, es[j]? = some e' →
      (es.map Entry.page)[j]? = some e'.page := by
    intro j e' he'
    rw [List.getElem?_map, he', Option.map_some]
  have hvalid : ∀ {j : Nat} {e' : Entry}, es[j]? = some e' → IsPage e'.page := fun he' =>
    ho.own_valid (mem_append_right _ (mem_of_getElem? (hmap he')))
  intro j e' he' o hlt
  have hin : InPage ramPages e'.page (e'.page + o) :=
    ⟨Nat.le_add_right _ _, Nat.add_lt_add_left hlt _⟩
  by_cases hij : j = i
  · -- the page that is written
    subst hij
    obtain rfl : e' = e := Option.some.inj (he'.symm.trans he)
    unfold putBytes
    rw [h j e' he' o hlt, Nat.add_sub_add_left, Nat.add_sub_add_left]
    simp only [Nat.add_le_add_iff_left, Nat.add_assoc, Nat.add_lt_add_iff_left]
  · -- another page, and another part of user memory
    have hne : ¬ InPage ramPages e.page (e'.page + o) := by
      intro hin'
      have heq := inPage_unique (K := ramPages) (hvalid he') (hvalid he) hin hin'
      have hnodup := (nodup_append.mp (nodup_append.mp ho.nodup).2.1).2.1
      obtain ⟨hj, -⟩ := List.getElem?_eq_some_iff.mp (hmap he')
      exact hij ((List.getElem?_inj hj hnodup).mp (by rw [hmap he', hmap he, heq]))
    have hout : ¬ (i * PGSIZE + off ≤ j * PGSIZE + o ∧
        j * PGSIZE + o < i * PGSIZE + off + bs.length) := by
      unfold PGSIZE at *
      omega
    rw [putBytes_outside hbs hne, h j e' he' o hlt]
    exact (if_neg hout).symm

theorem pgrounddown_sub (va : Nat) : va - PGROUNDDOWN va < PGSIZE := by
  unfold PGROUNDDOWN PGSIZE
  omega

end Reach

end Xv6.Proofs
