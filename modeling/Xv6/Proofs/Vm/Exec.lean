import Xv6.Proofs.Vm.Copy

/-!
# `Xv6.Proofs.Vm.Exec`: the segments of a program

What `loadseg` reads and where it goes (`loadseg_spec`), and which program headers make the image
run over the trapframe (`fileRunsOver`). `exec` has no bound on the size of an image, and `uvmalloc`
maps pages from the end of the image so far up to the end of the segment, so it meets the
trapframe's page on the way.
-/

set_option autoImplicit false

namespace Xv6.Proofs

open Lib List

variable {es : List Entry} {file : List UInt8} {ph : Phys} {sz va : Nat}

/-! ### The file -/

/-- The `k`-th piece of a segment can be read. -/
def pieceReads (file : List UInt8) (offset sz k : Nat) : Bool :=
  (readContents file ((offset + k * PGSIZE) % 2 ^ 32) (min (sz - k * PGSIZE) PGSIZE)).length
    = min (sz - k * PGSIZE) PGSIZE

/-- All of a segment can be read. -/
def segReads (file : List UInt8) (offset sz : Nat) : Bool :=
  (List.range ((sz + PGSIZE - 1) / PGSIZE)).all (pieceReads file offset sz)

theorem segReads_iff {offset : Nat} :
    segReads file offset sz = true ↔
      ∀ k, k * PGSIZE < sz → pieceReads file offset sz k = true := by
  unfold segReads
  rw [all_eq_true]
  refine forall_congr' fun k => ?_
  rw [mem_range]
  unfold PGSIZE
  constructor
  · exact fun h hk => h (by omega)
  · exact fun h hk => h (by omega)

/-- From the program header at `off` on, with an image of size `sz` so far: a segment is reached
that ends beyond `TRAPFRAME`, or all segments are loaded and the stack does not fit. -/
def runsOver (file : List UInt8) : (phnum off sz : Nat) → Bool
  | 0, _, sz => TRAPFRAME < PGROUNDUP sz + 2 * PGSIZE
  | phnum + 1, off, sz =>
    let bs := readContents file off PROGHDR_SIZE
    let ph := proghdr bs
    let next := (off + PROGHDR_SIZE) % 2 ^ 32
    let segEnd := (ph.vaddr + ph.memsz) % 2 ^ 64
    if bs.length ≠ PROGHDR_SIZE then false
    else if ph.type ≠ ELF_PROG_LOAD then runsOver file phnum next sz
    else if ph.memsz < ph.filesz then false
    else if segEnd < ph.vaddr then false
    else if TRAPFRAME < segEnd then true
    else
      max sz segEnd ≠ 0 && ph.vaddr % PGSIZE = 0 && segReads file (ph.off % 2 ^ 32) ph.filesz &&
        runsOver file phnum next (max sz segEnd)

/-- The file is an executable whose image runs over the trapframe. -/
def fileRunsOver (file : List UInt8) : Bool :=
  let hdr := readContents file 0 ELFHDR_SIZE
  let elf := elfhdr hdr
  hdr.length = ELFHDR_SIZE && elf.magic = ELF_MAGIC &&
    runsOver file elf.phnum (elf.phoff % 2 ^ 32) 0

/-- What is read, if there is as much as asked for. -/
theorem readContents_eq {off n : Nat} (hn : 0 < n) (hlen : (readContents file off n).length = n) :
    readContents file off n = (file.drop off).take n := by
  unfold readContents at hlen ⊢
  split
  · rename_i hnone
    rw [if_pos hnone, length_nil] at hlen
    omega
  · rfl

/-- User memory `c` with `n` bytes of the file at `va`, from the offset `off` of the file on. -/
def overlay (file : List UInt8) (off va n : Nat) (c : Bytes) : Bytes := fun a =>
  if va ≤ a ∧ a < va + n then file.getD (off + (a - va)) 0 else c a

theorem overlay_zero (file : List UInt8) (off va : Nat) (c : Bytes) :
    overlay file off va 0 c = c := by
  funext a
  exact if_neg (by omega)

/-- One more piece. -/
theorem overlay_piece {off k n : Nat} (c : Bytes) {bs : List UInt8}
    (hbs : bs = (file.drop (off + k)).take n) (hlen : bs.length = n) :
    putBytes (overlay file off va k c) (va + k) bs = overlay file off va (k + n) c := by
  funext a
  unfold putBytes overlay
  rw [hlen]
  by_cases hin : va + k ≤ a ∧ a < va + k + n
  · rw [if_pos hin, if_pos (by omega), hbs, getD_eq_getElem?_getD,
      getElem?_take_of_lt (by omega), getElem?_drop, ← getD_eq_getElem?_getD]
    congr 1
    omega
  · rw [if_neg hin]
    by_cases hold : va ≤ a ∧ a < va + k
    · rw [if_pos hold, if_pos (by omega)]
    · rw [if_neg hold, if_neg (by omega)]

/-- Four tables, the pages below the trapframe, and the one that is mapped over it. -/
def EXEC_PAGES : Nat := 4 + tfIndex + 1

/-! ### Segments -/

section Load

variable {d : Dirs} {tf : Entry}

/-- What `walkaddr` finds for a page that the user may access. -/
theorem userAddr_get {i : Nat} (hi : i < es.length) (hle : es.length ≤ tfIndex)
    (hflags : es[i].flags = PTE_USER) : userAddr (userMap (some tf) es i) = phys es[i].page := by
  rw [userMap_get (by omega), getElem?_eq_getElem hi, userAddr, hflags]
  exact if_neg (by decide)

/-- The loop of `loadseg` reads the segment into its pages, or stops at a page that the file does
not fill. -/
theorem loadsegLoop_spec (file : List UInt8) (offset : Nat) (hflags : ∀ e ∈ es, e.flags = PTE_USER)
    (hle : es.length ≤ tfIndex) (halign : va % PGSIZE = 0) (hend : va + sz ≤ es.length * PGSIZE)
    (rounds : Nat) :
    ∀ {ph : Phys} {k : Nat}, Chain ph.mem d (userMap (some tf) es) →
      Owns ramPages ph (spacePages d es) → k ≤ es.length → es.length < rounds + k →
      ∃ r ph', (loadsegLoop d.root va file offset sz rounds (k * PGSIZE)).run ph = .ok (r, ph') ∧
        Chain ph'.mem d (userMap (some tf) es) ∧
        Moves ramPages ph (spacePages d es) ph' (spacePages d es) ∧
        (r < 0 ↔ ¬ ∀ j, k ≤ j → j * PGSIZE < sz → pieceReads file offset sz j = true) ∧
        (¬ r < 0 → offset + sz < 2 ^ 32 → ∀ c,
          PagesHold ph.mem es (overlay file offset va (min (k * PGSIZE) sz) c) →
          PagesHold ph'.mem es (overlay file offset va sz c)) := by
  induction rounds with
  | zero => intro ph k _ _ hk hr; omega
  | succ rounds ih =>
    intro ph k hc ho hk hr
    rw [loadsegLoop]
    by_cases hlt : k * PGSIZE < sz
    · -- the page at `va + k * PGSIZE`
      rw [tfIndex_eq] at hle
      obtain ⟨i, rfl⟩ : ∃ i, va = i * PGSIZE := ⟨va / PGSIZE, by unfold PGSIZE at *; omega⟩
      have hik : i + k < es.length := by
        unfold PGSIZE at *
        omega
      have hsum : i * PGSIZE + k * PGSIZE = (i + k) * PGSIZE := (Nat.add_mul _ _ _).symm
      have hva : (i + k) * PGSIZE < MAXVA := by
        unfold MAXVA PGSIZE
        omega
      have hwrap : (i * PGSIZE + k * PGSIZE) % 2 ^ 64 = (i + k) * PGSIZE := by
        rw [hsum]
        unfold MAXVA at hva
        omega
      have haddr : userAddr (userMap (some tf) es (i + k)) = phys es[i + k].page :=
        userAddr_get hik (by rw [tfIndex_eq]; omega) (hflags _ (getElem_mem hik))
      have hpage : IsPage es[i + k].page :=
        ho.own_valid (mem_append_right _ (mem_map_of_mem (getElem_mem hik)))
      have hn : (if sz - k * PGSIZE < PGSIZE then sz - k * PGSIZE else PGSIZE)
          = min (sz - k * PGSIZE) PGSIZE := by
        split <;> omega
      have hread : (readContents file ((offset + k * PGSIZE) % 2 ^ 32)
          (min (sz - k * PGSIZE) PGSIZE)).length ≤ min (sz - k * PGSIZE) PGSIZE := by
        unfold readContents
        split
        · exact Nat.zero_le _
        · exact length_take_le _ _
      obtain ⟨ph₁, hrun₁, hc₁, hm₁, hmem₁⟩ := user_write hc ho (getElem_mem hik)
        (readContents file ((offset + k * PGSIZE) % 2 ^ 32) (min (sz - k * PGSIZE) PGSIZE))
        (show 0 < PGSIZE by decide) (by omega)
      rw [Nat.add_zero] at hrun₁
      rw [if_pos hlt, run_bind_ok (walkaddr_chain hc _), hwrap, if_pos hva,
        Nat.mul_div_cancel _ (by decide), haddr, if_neg (phys_ne_zero hpage), hn,
        run_bind_ok hrun₁]
      by_cases hfull : pieceReads file offset sz k = true
      · obtain ⟨r, ph', hrun, hc', hm', hiff, hbytes⟩ := ih (k := k + 1) hc₁ (ho.moves hm₁)
          (by omega) (by omega)
        rw [Nat.succ_mul] at hrun
        refine ⟨r, ph', ?_, hc', hm₁.trans hm', hiff.trans (not_congr ⟨?_, ?_⟩),
          fun hr hoff c hholds => hbytes hr hoff c ?_⟩
        · rw [if_neg (by simpa [pieceReads] using hfull), hrun]
        · intro h j hj hjs
          rcases Nat.eq_or_lt_of_le hj with rfl | hj
          · exact hfull
          · exact h j hj hjs
        · exact fun h j hj => h j (by omega)
        · -- the piece is next to those that are already there
          rw [Nat.mod_eq_of_lt (by omega : offset + k * PGSIZE < 2 ^ 32)] at hmem₁
          unfold pieceReads at hfull
          rw [decide_eq_true_eq, Nat.mod_eq_of_lt (by omega : offset + k * PGSIZE < 2 ^ 32)]
            at hfull
          have hpiece := hholds.store ho (getElem?_eq_getElem hik)
            (show 0 + (readContents file (offset + k * PGSIZE)
              (min (sz - k * PGSIZE) PGSIZE)).length ≤ PGSIZE by omega)
          rw [← hmem₁, Nat.add_zero, ← hsum, Nat.min_eq_left (by omega : k * PGSIZE ≤ sz),
            overlay_piece c (readContents_eq (by unfold PGSIZE at *; omega) hfull) hfull] at hpiece
          rwa [show min ((k + 1) * PGSIZE) sz = k * PGSIZE + min (sz - k * PGSIZE) PGSIZE by
            rw [Nat.succ_mul]; omega]
      · refine ⟨-1, ph₁, ?_, hc₁, hm₁, ?_, fun hr => absurd (by decide) hr⟩
        · rw [if_pos (by simpa [pieceReads] using hfull)]
          rfl
        · exact iff_of_true (by decide) fun h => hfull (h k (Nat.le_refl k) hlt)
    · refine ⟨0, ph, ?_, hc, Moves.refl _ _, ?_, fun _ _ c hholds => ?_⟩
      · rw [if_neg hlt]
        rfl
      · refine iff_of_false (by decide) (not_not_intro fun j hj hjs => ?_)
        have := Nat.mul_le_mul_right PGSIZE hj
        omega
      · rwa [Nat.min_eq_right (Nat.le_of_not_lt hlt)] at hholds

/-- `loadseg` finds every page of the segment. -/
theorem loadseg_spec (file : List UInt8) (offset : Nat) (hflags : ∀ e ∈ es, e.flags = PTE_USER)
    (hle : es.length ≤ tfIndex) (halign : va % PGSIZE = 0) (hend : va + sz ≤ es.length * PGSIZE)
    (hc : Chain ph.mem d (userMap (some tf) es)) (ho : Owns ramPages ph (spacePages d es)) :
    ∃ r ph', (loadseg d.root va file offset sz).run ph = .ok (r, ph') ∧
      Chain ph'.mem d (userMap (some tf) es) ∧
      Moves ramPages ph (spacePages d es) ph' (spacePages d es) ∧
      (r < 0 ↔ segReads file offset sz = false) ∧
      (¬ r < 0 → offset + sz < 2 ^ 32 → ∀ c, PagesHold ph.mem es c →
        PagesHold ph'.mem es (overlay file offset va sz c)) := by
  have hloop := loadsegLoop_spec file offset hflags hle halign hend NVPAGES (k := 0) hc ho
    (Nat.zero_le _) (by rw [nvpages]; rw [tfIndex_eq] at hle; omega)
  obtain ⟨r, ph', hrun, hc', hm, hiff, hbytes⟩ := hloop
  rw [Nat.zero_mul] at hrun hbytes
  refine ⟨r, ph', hrun, hc', hm, hiff.trans ?_, fun hr hoff c hholds => hbytes hr hoff c ?_⟩
  · rw [← Bool.not_eq_true, segReads_iff]
    exact not_congr ⟨fun h j => h j (Nat.zero_le j), fun h j _ => h j⟩
  · rwa [Nat.zero_min, overlay_zero]

theorem field_lt (bs : List UInt8) (off k : Nat) : field bs off k < 256 ^ k := getLE_lt _ _ _

theorem proghdr_lt (bs : List UInt8) :
    (proghdr bs).vaddr < 2 ^ 64 ∧ (proghdr bs).memsz < 2 ^ 64 := by
  have hpow : 256 ^ 8 ≤ 2 ^ 64 := by decide
  exact ⟨Nat.lt_of_lt_of_le (field_lt bs 16 8) hpow, Nat.lt_of_lt_of_le (field_lt bs 40 8) hpow⟩

/-- An image of size `sz` in the making. -/
structure Loaded (ph : Phys) (d : Dirs) (tf : Entry) (es : List Entry) (sz : Nat) : Prop where
  chain : Chain ph.mem d (userMap (some tf) es)
  flags : ∀ e ∈ es, e.flags = PTE_USER
  length : es.length = npages sz
  le : sz ≤ TRAPFRAME
  owns : Owns ramPages ph (spacePages d es)

/-- The pages that the image has and those that are free. -/
def supply (ph : Phys) (es : List Entry) : Nat := es.length + ph.freelist.length

theorem supply_moves {ph' : Phys} {es' : List Entry}
    (h : Moves ramPages ph (spacePages d es) ph' (spacePages d es')) :
    supply ph' es' = supply ph es := by
  have hlen := h.length
  unfold spacePages at hlen
  unfold supply
  simp at hlen
  omega

theorem Loaded.round (h : Loaded ph d tf es sz) : Loaded ph d tf es (PGROUNDUP sz) := by
  have hle := npages_le h.le
  refine { h with length := ?_, le := ?_ }
  · rw [pgroundup_eq, npages_mul hle, h.length]
  · rw [pgroundup_eq]
    rw [tfIndex_eq] at hle
    unfold TRAPFRAME MAXVA PGSIZE
    omega

theorem Loaded.free (h : Loaded ph d tf es sz) :
    ∃ ph', (proc_freepagetable d.root sz).run ph = .ok ((), ph') ∧
      Moves ramPages ph (spacePages d es) ph' [] :=
  proc_freepagetable_spec h.chain h.length h.le h.owns

end Load

end Xv6.Proofs
