import Mathlib.Data.List.Induction
import Xv6.Proofs.Vm.Arguments
import Xv6.Proofs.Vm.Exec

/-!
# `Xv6.Proofs.Vm.Image`: how the image of a program is built

The contents of user memory are one function from addresses to bytes, which the pages hold
(`PagesHold`). Everything `exec` does to a new image is an operation on this function: `uvmalloc`
adds pages of zeros, `loadseg` lays a piece of the file over it, and the pushes write the strings.
So the image of a file is a fold over its segments (`imageBytes`), and `imageBytes_eq` says what
that is at one address: the last segment wins.

`execImage_spec` puts the parts together. `execImage` frees what it took and returns nothing, or it
returns a complete address space with this contents, or it panics in `mappages` with "remap". The
panic is characterised exactly: at least `EXEC_PAGES` pages are free, and the program headers make
the image run over the trapframe. The other panics of `vm.c` and `exec.c` are not reached.
-/

set_option autoImplicit false

namespace Xv6.Proofs

open Lib List

variable {c : Bytes} {file : List UInt8} {ph : Phys} {sz : Nat}

/-! ### What a file describes -/

/-- The program headers of a file. -/
def proghdrs (file : List UInt8) (phnum off : Nat) : List Proghdr :=
  (List.range phnum).map fun i => proghdr (readContents file (off + i * PROGHDR_SIZE) PROGHDR_SIZE)

/-- The segments to be loaded, in the order of the headers. -/
def loadable (file : List UInt8) (phnum off : Nat) : List Proghdr :=
  (proghdrs file phnum off).filter fun hdr => hdr.type = ELF_PROG_LOAD

/-- The end of the highest segment, or `sz`. -/
def imageEnd (sz : Nat) (segs : List Proghdr) : Nat :=
  segs.foldl (fun sz hdr => max sz (hdr.vaddr + hdr.memsz)) sz

/-- User memory `c` with the segments laid over it one after the other. -/
def imageBytes (file : List UInt8) (segs : List Proghdr) (c : Bytes) : Bytes :=
  segs.foldl (fun c hdr => overlay file hdr.off hdr.vaddr hdr.filesz c) c

/-- The last segment whose file part covers `a`. -/
def lastCovering (segs : List Proghdr) (a : Nat) : Option Proghdr :=
  segs.reverse.find? fun hdr => hdr.vaddr ≤ a ∧ a < hdr.vaddr + hdr.filesz

/-- The first program header, and the others. -/
theorem proghdrs_succ (file : List UInt8) (phnum off : Nat) :
    proghdrs file (phnum + 1) off = proghdr (readContents file off PROGHDR_SIZE) ::
      proghdrs file phnum (off + PROGHDR_SIZE) := by
  unfold proghdrs
  rw [range_succ_eq_map, map_cons, map_map, Nat.zero_mul, Nat.add_zero]
  congr 1
  refine map_congr_left fun i _ => ?_
  show proghdr (readContents file (off + (i + 1) * PROGHDR_SIZE) PROGHDR_SIZE) = _
  rw [Nat.succ_mul, Nat.add_comm (i * PROGHDR_SIZE), Nat.add_assoc]

theorem loadable_succ (file : List UInt8) (phnum off : Nat) :
    loadable file (phnum + 1) off =
      if (proghdr (readContents file off PROGHDR_SIZE)).type = ELF_PROG_LOAD then
        proghdr (readContents file off PROGHDR_SIZE) :: loadable file phnum (off + PROGHDR_SIZE)
      else loadable file phnum (off + PROGHDR_SIZE) := by
  unfold loadable
  rw [proghdrs_succ, filter_cons]
  simp only [decide_eq_true_eq]

/-- A byte of the image is that of the last segment over it. -/
theorem imageBytes_eq (file : List UInt8) (segs : List Proghdr) (a : Nat) :
    imageBytes file segs (fun _ => 0) a =
      (lastCovering segs a).elim 0 fun hdr => file.getD (hdr.off + (a - hdr.vaddr)) 0 := by
  -- from the last segment on, which is the one that counts
  induction segs using List.reverseRecOn with
  | nil => rfl
  | append_singleton segs hdr ih =>
    unfold imageBytes lastCovering at ih ⊢
    rw [foldl_append, reverse_append, reverse_singleton, singleton_append,
      find?_cons]
    show overlay file hdr.off hdr.vaddr hdr.filesz _ a = _
    unfold overlay
    by_cases hin : hdr.vaddr ≤ a ∧ a < hdr.vaddr + hdr.filesz
    · rw [if_pos hin, decide_eq_true hin]
      rfl
    · rw [if_neg hin, decide_eq_false hin]
      exact ih

/-- The file part of a segment lies in the file. -/
def InFile (file : List UInt8) (hdr : Proghdr) : Prop :=
  ∀ k < hdr.filesz, hdr.off + k < file.length

theorem inFile_of_segReads {hdr : Proghdr} (h : segReads file hdr.off hdr.filesz = true)
    (hoff : hdr.off + hdr.filesz < 2 ^ 32) : InFile file hdr := by
  intro k hk
  -- the piece that contains byte `k`
  have hpiece := segReads_iff.mp h (k / PGSIZE) (by
    have := Nat.div_mul_le_self k PGSIZE
    omega)
  unfold pieceReads at hpiece
  rw [decide_eq_true_eq] at hpiece
  have hlen := congrArg List.length (readContents_eq (by unfold PGSIZE; omega) hpiece)
  rw [hpiece, length_take, length_drop] at hlen
  unfold PGSIZE at hlen
  omega

/-! ### Segments -/

/-- An image of size `sz` in the making that holds `c`. -/
structure Filled (ph : Phys) (d : Dirs) (tf : Entry) (es : List Entry) (sz : Nat) (c : Bytes) :
    Prop extends Loaded ph d tf es sz where
  holds : PagesHold ph.mem es c
  zero : ∀ a, es.length * PGSIZE ≤ a → c a = 0

section Segments

variable {d : Dirs} {tf : Entry} {es : List Entry} {phnum off sz' : Nat} {c' : Bytes}

/-- How the image grows. With `tfIndex` pages or fewer the trapframe is not reached. -/
theorem Filled.uvmalloc (h : Filled ph d tf es sz c) (newsz : Nat) :
    wp (uvmalloc d.root sz newsz)
      (fun sz1 ph' =>
        (sz1 ≠ 0 ∧ sz1 = max sz newsz ∧ newsz ≤ TRAPFRAME ∧ ∃ es', Filled ph' d tf es' sz1 c ∧
          Moves ramPages ph (spacePages d es) ph' (spacePages d es')) ∨
        (sz1 = 0 ∧ (tfIndex < supply ph es → max sz newsz = 0 ∧ newsz ≤ TRAPFRAME) ∧
          ∃ es', Loaded ph' d tf es' sz ∧
            Moves ramPages ph (spacePages d es) ph' (spacePages d es')))
      (fun e => e = .remap ∧ TRAPFRAME < newsz ∧ tfIndex < supply ph es) ph := by
  refine wp_mono (uvmalloc_exact newsz h.chain h.length h.le h.owns.of_append) ?_ ?_
  · rintro sz1 ph'
      (⟨hlt, rfl, rfl⟩ | ⟨hle, ⟨rfl, htf, new, hlaid, hlen, hnew⟩ | ⟨rfl, hc, hm, hfew⟩⟩)
    · have := h.le
      exact .inl ⟨by omega, by omega, by omega, es, h, Moves.refl _ _⟩
    · have hmoves := hlaid.added.moves
      have hfilled : Filled ph' d tf (es ++ new) sz1 c := by
        refine
          { chain := hlaid.chain
            flags := fun e he => (mem_append.mp he).elim (h.flags e) (hnew e)
            length := hlen
            le := htf
            owns := h.owns.moves hmoves
            holds := ?_
            zero := fun a ha => h.zero a ?_ }
        · have hold : PagesHold ph'.mem es c :=
            h.holds.kept hlaid.moves h.owns fun e he => mem_map_of_mem he
          refine hold.append fun i e he o ho => ?_
          rw [hlaid.holds i e he o ho]
          exact (h.zero _ (Nat.le_add_right _ _)).symm
        · rw [length_append, Nat.add_mul] at ha
          omega
      by_cases h0 : sz1 = 0
      · have hsz : sz = sz1 := by omega
        subst hsz
        exact .inr ⟨h0, fun _ => ⟨by omega, htf⟩, _, hfilled.toLoaded, hmoves⟩
      · exact .inl ⟨h0, by omega, htf, _, hfilled, hmoves⟩
    · have hmoves := hm.frame (es.map Entry.page)
      refine .inr ⟨rfl, fun hs => ?_, es,
        { h.toLoaded with chain := hc, owns := h.owns.moves hmoves }, hmoves⟩
      unfold supply at hs
      unfold TooFew at hfew
      split at hfew
      · have := npages_le ‹newsz ≤ TRAPFRAME›
        omega
      · omega
  · rintro e ⟨rfl, htf, hfew⟩
    refine ⟨rfl, htf, ?_⟩
    unfold TooFew at hfew
    rw [if_neg (by omega)] at hfew
    unfold supply
    omega

/-- Whatever an image holds. -/
theorem Loaded.filled (h : Loaded ph d tf es sz) :
    Filled ph d tf es sz (bytesOf ph.mem es) := by
  refine { h with holds := holds_bytesOf _ _, zero := fun a ha => ?_ }
  rw [bytesOf, getElem?_eq_none ((Nat.le_div_iff_mul_le (by decide)).mpr ha), Option.elim_none]

/-- A segment inside the image is laid over it, if its offset is a `uint`. -/
theorem Filled.loadseg {va n : Nat} (h : Filled ph d tf es sz c) (file : List UInt8) (offset : Nat)
    (halign : va % PGSIZE = 0) (hend : va + n ≤ sz) :
    ∃ r ph' c', (loadseg d.root va file offset n).run ph = .ok (r, ph') ∧
      Moves ramPages ph (spacePages d es) ph' (spacePages d es) ∧ Filled ph' d tf es sz c' ∧
      (r < 0 ↔ segReads file offset n = false) ∧
      (¬ r < 0 → offset + n < 2 ^ 32 → c' = overlay file offset va n c) := by
  have hin : va + n ≤ es.length * PGSIZE := by
    have hlen := h.length
    rw [npages_eq h.le] at hlen
    unfold PGSIZE
    omega
  obtain ⟨r, ph', hrun, hc, hm, hr, hbytes⟩ := loadseg_spec file offset h.flags
    (h.length ▸ npages_le h.le) halign hin h.chain h.owns
  have hloaded : Loaded ph' d tf es sz :=
    { h.toLoaded with chain := hc, owns := h.owns.moves hm }
  by_cases hgood : ¬ r < 0 ∧ offset + n < 2 ^ 32
  · refine ⟨r, ph', _, hrun, hm, { hloaded with
      holds := hbytes hgood.1 hgood.2 c h.holds, zero := fun a ha => ?_ }, hr, fun _ _ => rfl⟩
    unfold overlay
    rw [if_neg (by omega)]
    exact h.zero a ha
  · exact ⟨r, ph', _, hrun, hm, hloaded.filled, hr, fun hneg hlt => absurd ⟨hneg, hlt⟩ hgood⟩

/-- No offset in the headers is cut off. -/
def PlainOffsets (file : List UInt8) (phnum off : Nat) : Prop :=
  off + phnum * PROGHDR_SIZE < 2 ^ 32 ∧ ∀ hdr ∈ loadable file phnum off, hdr.off < 2 ^ 31

/-- The rest of the headers. -/
theorem PlainOffsets.next (h : PlainOffsets file (phnum + 1) off) :
    (off + PROGHDR_SIZE) % 2 ^ 32 = off + PROGHDR_SIZE ∧
      PlainOffsets file phnum (off + PROGHDR_SIZE) := by
  obtain ⟨hoff, hsegs⟩ := h
  rw [Nat.succ_mul] at hoff
  refine ⟨Nat.mod_eq_of_lt (by omega), by omega, fun hdr hhdr => hsegs hdr ?_⟩
  rw [loadable_succ]
  split
  · exact mem_cons_of_mem _ hhdr
  · exact hhdr

/-- The segment can be loaded. -/
def Loads (file : List UInt8) (hdr : Proghdr) : Prop :=
  hdr.vaddr % PGSIZE = 0 ∧ hdr.filesz ≤ hdr.memsz ∧ 0 < hdr.vaddr + hdr.memsz ∧
    hdr.vaddr + hdr.memsz ≤ TRAPFRAME ∧ segReads file (hdr.off % 2 ^ 32) hdr.filesz = true

instance (file : List UInt8) (hdr : Proghdr) : Decidable (Loads file hdr) :=
  inferInstanceAs (Decidable (_ ∧ _))

/-- The program headers can be read and their segments loaded. -/
structure AllLoad (file : List UInt8) (phnum off : Nat) : Prop where
  small : off + phnum * PROGHDR_SIZE < 2 ^ 32
  headers : ∀ i < phnum,
    (readContents file (off + i * PROGHDR_SIZE) PROGHDR_SIZE).length = PROGHDR_SIZE
  loads : ∀ hdr ∈ loadable file phnum off, Loads file hdr

/-- All segments load if the first and the others do. -/
theorem AllLoad.next (h : AllLoad file (phnum + 1) off) :
    (readContents file off PROGHDR_SIZE).length = PROGHDR_SIZE ∧
    ((proghdr (readContents file off PROGHDR_SIZE)).type = ELF_PROG_LOAD →
      Loads file (proghdr (readContents file off PROGHDR_SIZE))) ∧
    AllLoad file phnum ((off + PROGHDR_SIZE) % 2 ^ 32) := by
  have hsmall := h.small
  have hloads := h.loads
  have hfirst := h.headers 0 (Nat.zero_lt_succ _)
  rw [Nat.succ_mul] at hsmall
  rw [loadable_succ] at hloads
  rw [Nat.zero_mul, Nat.add_zero] at hfirst
  rw [Nat.mod_eq_of_lt (by omega)]
  refine ⟨hfirst, fun htype => ?_, by omega, fun i hi => ?_, fun hdr hhdr => ?_⟩
  · rw [if_pos htype] at hloads
    exact hloads _ mem_cons_self
  · have := h.headers (i + 1) (Nat.succ_lt_succ hi)
    rwa [Nat.succ_mul, Nat.add_comm (i * PROGHDR_SIZE), ← Nat.add_assoc] at this
  · split at hloads
    · exact hloads hdr (mem_cons_of_mem _ hhdr)
    · exact hloads hdr hhdr

/-- What the segments make of an image of size `sz` that holds `c`, if no offset is cut off. -/
def Becomes (file : List UInt8) (phnum off sz : Nat) (c : Bytes) (sz' : Nat) (c' : Bytes) : Prop :=
  PlainOffsets file phnum off → sz' = imageEnd sz (loadable file phnum off) ∧
    c' = imageBytes file (loadable file phnum off) c ∧
    ∀ hdr ∈ loadable file phnum off, InFile file hdr

section Header

variable {hdr : Proghdr} (hhdr : proghdr (readContents file off PROGHDR_SIZE) = hdr)

include hhdr

theorem Becomes.skip (htype : hdr.type ≠ ELF_PROG_LOAD)
    (h : Becomes file phnum ((off + PROGHDR_SIZE) % 2 ^ 32) sz c sz' c') :
    Becomes file (phnum + 1) off sz c sz' c' := by
  intro hplain
  obtain ⟨hnext, hrest⟩ := hplain.next
  rw [hnext] at h
  rw [loadable_succ, hhdr, if_neg htype]
  exact h hrest

theorem Becomes.load {c₁ : Bytes} (htype : hdr.type = ELF_PROG_LOAD) (hsz : hdr.filesz < 2 ^ 31)
    (hreads : segReads file (hdr.off % 2 ^ 32) hdr.filesz = true)
    (hc : hdr.off % 2 ^ 32 + hdr.filesz < 2 ^ 32 →
      c₁ = overlay file (hdr.off % 2 ^ 32) hdr.vaddr hdr.filesz c)
    (h : Becomes file phnum ((off + PROGHDR_SIZE) % 2 ^ 32) (max sz (hdr.vaddr + hdr.memsz)) c₁
      sz' c') : Becomes file (phnum + 1) off sz c sz' c' := by
  intro hplain
  -- the truncations to `uint` do nothing
  obtain ⟨hnext, hrest⟩ := hplain.next
  have hoff : hdr.off < 2 ^ 31 :=
    hplain.2 _ (by rw [loadable_succ, hhdr, if_pos htype]; exact mem_cons_self)
  rw [hnext] at h
  rw [Nat.mod_eq_of_lt (by omega)] at hreads hc
  obtain ⟨hend, hbytes, hin⟩ := h hrest
  rw [hc (by omega)] at hbytes
  rw [loadable_succ, hhdr, if_pos htype]
  exact ⟨hend, hbytes, forall_mem_cons.mpr ⟨inFile_of_segReads hreads (by omega), hin⟩⟩

end Header

/-- How the loop over the program headers ends. -/
def SegsPost (d : Dirs) (tf : Entry) (es : List Entry) (ph : Phys) (runs : Bool) (all : Prop)
    (becomes : Nat → Bytes → Prop) (r : Nat × Bool) (ph' : Phys) : Prop :=
  ∃ es' c', Filled ph' d tf es' r.1 c' ∧
    Moves ramPages ph (spacePages d es) ph' (spacePages d es') ∧
    (r.2 = true → runs = decide (TRAPFRAME < PGROUNDUP r.1 + 2 * PGSIZE) ∧ becomes r.1 c') ∧
    (r.2 = false → tfIndex < supply ph es → runs = false ∧ ¬ all)

/-- What the loop over the segments does after its first round. -/
theorem SegsPost.after {es₁ : List Entry} {ph₁ ph' : Phys} {runs : Bool} {all all₁ : Prop}
    {becomes becomes₁ : Nat → Bytes → Prop} {r : Nat × Bool}
    (h : SegsPost d tf es₁ ph₁ runs all₁ becomes₁ r ph')
    (hm : Moves ramPages ph (spacePages d es) ph₁ (spacePages d es₁)) (hall : all → all₁)
    (hbecomes : ∀ sz' c', becomes₁ sz' c' → becomes sz' c') :
    SegsPost d tf es ph runs all becomes r ph' := by
  obtain ⟨es', c', hfilled, hm', hfin, hfail⟩ := h
  rw [supply_moves hm] at hfail
  exact ⟨es', c', hfilled, hm.trans hm', fun hr => (hfin hr).imp_right (hbecomes _ _),
    fun hr hs => (hfail hr hs).imp_right (mt hall)⟩

/-- The loop over the program headers loads the segments, or fails at one that does not load. -/
theorem loadSegs_spec (file : List UInt8) (phnum : Nat) :
    ∀ {ph : Phys} {es : List Entry} {off sz : Nat} {c : Bytes}, Filled ph d tf es sz c →
      wp (loadSegs d.root file phnum off sz)
        (SegsPost d tf es ph (runsOver file phnum off sz) (AllLoad file phnum off)
          (Becomes file phnum off sz c))
        (fun e => e = .remap ∧ tfIndex < supply ph es ∧ runsOver file phnum off sz = true ∧
          ¬ AllLoad file phnum off) ph := by
  induction phnum with
  | zero =>
    intro ph es off sz c h
    rw [loadSegs]
    exact ⟨es, c, h, Moves.refl _ _, fun _ => ⟨rfl, fun _ =>
      ⟨rfl, rfl, fun _ h => absurd h not_mem_nil⟩⟩, nofun⟩
  | succ phnum ih =>
    intro ph es off sz c h
    have hall : AllLoad file (phnum + 1) off → _ := AllLoad.next
    rw [loadSegs, runsOver]
    obtain ⟨hvaddr, hmemsz⟩ := proghdr_lt (readContents file off PROGHDR_SIZE)
    generalize hhdr : proghdr (readContents file off PROGHDR_SIZE) = hdr at hvaddr hmemsz hall ⊢
    -- an exit before anything is allocated
    have hstop : ¬ AllLoad file (phnum + 1) off → SegsPost d tf es ph false
        (AllLoad file (phnum + 1) off) (Becomes file (phnum + 1) off sz c) (sz, false) ph :=
      fun hno => ⟨es, c, h, Moves.refl _ _, nofun, fun _ _ => ⟨rfl, hno⟩⟩
    set segEnd := (hdr.vaddr + hdr.memsz) % 2 ^ 64 with hsegEnd
    by_cases hlen : (readContents file off PROGHDR_SIZE).length ≠ PROGHDR_SIZE
    · rw [if_pos hlen, if_pos hlen]
      exact hstop fun ha => hlen (hall ha).1
    rw [if_neg hlen, if_neg hlen]
    by_cases htype : hdr.type ≠ ELF_PROG_LOAD
    · rw [if_pos htype, if_pos htype]
      refine wp_mono (ih h) (fun r ph' hpost => ?_) fun e he =>
        ⟨he.1, he.2.1, he.2.2.1, fun ha => he.2.2.2 (hall ha).2.2⟩
      exact hpost.after (Moves.refl _ _) (fun ha => (hall ha).2.2)
        fun _ _ => Becomes.skip hhdr htype
    rw [if_neg htype, if_neg htype]
    have hload : AllLoad file (phnum + 1) off → Loads file hdr :=
      fun ha => (hall ha).2.1 (not_not.mp htype)
    by_cases hmem : hdr.memsz < hdr.filesz
    · rw [if_pos hmem, if_pos hmem]
      exact hstop fun ha => absurd (hload ha).2.1 (by omega)
    rw [if_neg hmem, if_neg hmem]
    have hfits : Loads file hdr → segEnd = hdr.vaddr + hdr.memsz ∧ segEnd ≤ TRAPFRAME := by
      rintro ⟨-, -, -, hle, -⟩
      unfold TRAPFRAME MAXVA at hle ⊢
      omega
    by_cases hwrap : segEnd < hdr.vaddr
    · rw [if_pos hwrap, if_pos hwrap]
      exact hstop fun ha => absurd (hfits (hload ha)).1 (by omega)
    rw [if_neg hwrap, if_neg hwrap]
    have hsum : segEnd = hdr.vaddr + hdr.memsz := by omega
    rw [wp_bind]
    refine wp_mono (h.uvmalloc segEnd) ?_ ?_
    · rintro sz1 ph₁ (⟨hne, hmax, hend, es₁, h₁, hm₁⟩ | ⟨h0, hfew, es₁, h₁, hm₁⟩)
      · rw [if_neg hne, if_neg (by omega : ¬ TRAPFRAME < segEnd), ← hmax]
        by_cases halign : hdr.vaddr % PGSIZE = 0
        swap
        · rw [if_pos halign, decide_eq_false halign, Bool.and_false, Bool.false_and,
            Bool.false_and]
          exact ⟨es₁, c, h₁, hm₁, nofun, fun _ _ => ⟨rfl, fun ha => halign (hload ha).1⟩⟩
        -- the segment is loaded
        have hle := h₁.le
        unfold TRAPFRAME MAXVA at hle
        obtain ⟨r, ph₂, c₂, hrun, hm₂, h₂, hr, hc₂⟩ := h₁.loadseg file (hdr.off % 2 ^ 32) halign
          (by omega : hdr.vaddr + hdr.filesz ≤ sz1)
        have hm := hm₁.trans hm₂
        rw [if_neg (by omega), Nat.mod_eq_of_lt (by omega : hdr.filesz < 2 ^ 32), wp_bind]
        refine wp_of_ok hrun ?_
        by_cases hneg : r < 0
        · have hno := hr.mp hneg
          rw [if_pos hneg, hno, Bool.and_false, Bool.false_and]
          refine ⟨es₁, c₂, h₂, hm, nofun, fun _ _ => ⟨rfl, fun ha => ?_⟩⟩
          exact Bool.false_ne_true (hno.symm.trans (hload ha).2.2.2.2)
        · have hreads : segReads file (hdr.off % 2 ^ 32) hdr.filesz = true := by
            rw [← Bool.not_eq_false]
            exact fun hf => hneg (hr.mpr hf)
          rw [if_neg hneg, hreads, decide_eq_true hne, decide_eq_true halign,
            Bool.true_and, Bool.true_and, Bool.true_and, ← supply_moves hm]
          refine wp_mono (ih h₂) (fun r ph' hpost => ?_) fun e he =>
            ⟨he.1, he.2.1, he.2.2.1, fun ha => he.2.2.2 (hall ha).2.2⟩
          refine hpost.after hm (fun ha => (hall ha).2.2) fun sz' c' hb => ?_
          rw [hmax, hsum] at hb
          exact hb.load hhdr (not_not.mp htype) (by omega) hreads (hc₂ hneg)
      · rw [if_pos h0]
        refine ⟨es₁, _, h₁.filled, hm₁, nofun, fun _ hs => ?_⟩
        obtain ⟨hzero, hend⟩ := hfew hs
        rw [if_neg (by omega), hzero]
        exact ⟨rfl, fun ha => absurd (hload ha).2.2.1 (by omega)⟩
    · rintro e ⟨rfl, hend, hs⟩
      rw [if_pos hend]
      exact ⟨rfl, hs, rfl, fun ha => absurd (hfits (hload ha)).2 (by omega)⟩

theorem Filled.round (h : Filled ph d tf es sz c) :
    Filled ph d tf es (PGROUNDUP sz) c :=
  { h.toLoaded.round with holds := h.holds, zero := h.zero }

end Segments

/-! ### The image -/

section Guard

variable {es : List Entry} {k : Nat}

theorem getElem?_guard (i : Nat) : (guard es k)[i]? =
    es[i]?.map fun e => if k = i then { e with flags := e.flags &&& ~~~PTE_PLV } else e := by
  rw [guard, getElem?_modify]
  rfl

/-- The page that is cut off still holds what it held. -/
theorem PagesHold.guard {mem : Bytes} (h : PagesHold mem es c) : PagesHold mem (guard es k) c := by
  intro i e he o ho
  rw [getElem?_guard, Option.map_eq_some_iff] at he
  obtain ⟨e', he', rfl⟩ := he
  rw [← h i e' he' o ho]
  split <;> rfl

/-- The last of at least two pages that the user may access is the stack. -/
theorem stackPage_guard (hflags : ∀ e ∈ es, e.flags = PTE_USER) (hlen : 2 ≤ es.length)
    (hle : es.length ≤ tfIndex) :
    StackPage (guard es (es.length - 2)) ((es.length - 1) * PGSIZE) := by
  rw [tfIndex_eq] at hle
  refine ⟨Nat.mul_mod_left _ _, ?_, ?_, ?_, fun va hva => ?_⟩
  · unfold PGSIZE
    omega
  · unfold PGSIZE
    omega
  · unfold userPage
    rw [Nat.mul_div_cancel _ (by decide), getElem?_guard, getElem?_eq_getElem (by omega),
      Option.map_some, if_neg (by omega), Option.bind_some, hflags _ (getElem_mem _),
      if_neg (by decide)]
    exact Option.some_ne_none _
  · unfold userPage
    rw [getElem?_guard, getElem?_eq_none (by unfold PGSIZE at *; omega)]
    rfl

end Guard

theorem StackWrites.moves {d : Dirs} {es : List Entry} {base : Nat} {mem' : Bytes}
    (h : StackWrites es base ph.mem mem') :
    Moves ramPages ph (spacePages d es) ⟨mem', ph.freelist⟩ (spacePages d es) := by
  refine ⟨List.Perm.refl _, fun a ha => ?_⟩
  by_contra hne
  obtain ⟨va, pg, -, hpg, rfl⟩ := h a hne
  obtain ⟨e, he, -, rfl⟩ := userPage_eq_some.mp hpg
  exact ha e.page (mem_append_right _ (mem_append_right _
    (mem_map_of_mem (mem_of_getElem? he))))
    ⟨Nat.le_add_right _ _, Nat.add_lt_add_left (Nat.mod_lt _ (by decide)) _⟩

/-- The segments of an executable. -/
def fileSegs (file : List UInt8) : List Proghdr :=
  let elf := elfhdr (readContents file 0 ELFHDR_SIZE)
  loadable file elf.phnum elf.phoff

/-- The offsets of the program headers and of the segments are below `2^31`. -/
def SmallOffsets (file : List UInt8) : Prop :=
  (elfhdr (readContents file 0 ELFHDR_SIZE)).phoff < 2 ^ 31 ∧
    ∀ hdr ∈ fileSegs file, hdr.off < 2 ^ 31

/-- The offsets in the file do not wrap around. -/
theorem SmallOffsets.plain (h : SmallOffsets file) :
    (elfhdr (readContents file 0 ELFHDR_SIZE)).phoff % 2 ^ 32
      = (elfhdr (readContents file 0 ELFHDR_SIZE)).phoff ∧
    PlainOffsets file (elfhdr (readContents file 0 ELFHDR_SIZE)).phnum
      (elfhdr (readContents file 0 ELFHDR_SIZE)).phoff := by
  have hphnum : (elfhdr (readContents file 0 ELFHDR_SIZE)).phnum < 2 ^ 16 := field_lt _ 56 2
  have hphoff := h.1
  refine ⟨Nat.mod_eq_of_lt (by omega), ?_, h.2⟩
  unfold PROGHDR_SIZE
  omega

/-- The file is an executable whose image leaves room for the stack. -/
structure Executable (file : List UInt8) : Prop where
  header : (readContents file 0 ELFHDR_SIZE).length = ELFHDR_SIZE
  magic : (elfhdr (readContents file 0 ELFHDR_SIZE)).magic = ELF_MAGIC
  offsets : SmallOffsets file
  headers : ∀ i < (elfhdr (readContents file 0 ELFHDR_SIZE)).phnum,
    (readContents file ((elfhdr (readContents file 0 ELFHDR_SIZE)).phoff + i * PROGHDR_SIZE)
      PROGHDR_SIZE).length = PROGHDR_SIZE
  loads : ∀ hdr ∈ fileSegs file, Loads file hdr
  room : PGROUNDUP (imageEnd 0 (fileSegs file)) + 2 * PGSIZE ≤ TRAPFRAME

theorem Executable.allLoad (h : Executable file) :
    AllLoad file (elfhdr (readContents file 0 ELFHDR_SIZE)).phnum
      ((elfhdr (readContents file 0 ELFHDR_SIZE)).phoff % 2 ^ 32) := by
  obtain ⟨hoff, hplain⟩ := h.offsets.plain
  rw [hoff]
  exact ⟨hplain.1, h.headers, h.loads⟩

/-- The arguments fit in one page. -/
def StackFits (argv : List (List UInt8)) : Prop := Fits 0 PGSIZE (stackSizes argv)

/-- Where the page is does not matter. -/
theorem fits_shift {base : Nat} (hbase : base % 16 = 0) (ns : List Nat) :
    ∀ x, Fits base (base + x) ns ↔ Fits 0 x ns := by
  induction ns with
  | nil => exact fun _ => Iff.rfl
  | cons n ns ih =>
    intro x
    rw [Fits, Fits]
    by_cases hle : n ≤ x
    · have hslot : slot (base + x) n = base + slot x n := by
        unfold slot
        omega
      rw [hslot, ih]
      exact ⟨fun h => ⟨hle, Nat.zero_le _, h.2.2⟩,
        fun h => ⟨by omega, Nat.le_add_right _ _, h.2.2⟩⟩
    · refine iff_of_false (fun h => ?_) fun h => hle h.1
      have hlow := h.2.1
      unfold slot at hlow
      omega

theorem fits_page {base : Nat} (hbase : base + PGSIZE = sz) (halign : base % PGSIZE = 0)
    (argv : List (List UInt8)) : Fits base sz (stackSizes argv) ↔ StackFits argv := by
  rw [← hbase]
  refine fits_shift ?_ _ _
  unfold PGSIZE at halign
  omega

/-- A new image `im` in memory `mem`: the pages `es`, with the stack in the last one and the user
cut off from the one before. Below the stack it holds `c`. -/
structure NewImage (argv : List (List UInt8)) (im : Image) (mem : Bytes) (es : List Entry)
    (addrs : List Nat) (c : Bytes) : Prop where
  argc : im.argc = argv.length
  length : es.length * PGSIZE = im.sz
  user : ∀ i e, es[i]? = some e → i + 2 ≠ es.length → e.flags = PTE_USER
  guard : ∀ i e, es[i]? = some e → i + 2 = es.length → e.flags &&& PTE_PLV = 0
  fits : ∃ base, base + PGSIZE = im.sz ∧ Fits base im.sz (stackSizes argv)
  slots : slots im.sz (stackSizes argv) = addrs ++ [im.sp]
  holds : PagesHold mem es (writeAll c (addrs ++ [im.sp]) (stackBytes argv addrs))

/-- The stack of a complete image. -/
theorem stack_exact {d : Dirs} {trapframe : Nat} {es : List Entry} {other : List Nat}
    (h : Filled ph d (tfEntry trapframe) es sz c) (hsz : es.length * PGSIZE = sz) {va base : Nat}
    (hva : va + 2 * PGSIZE = sz) (hbase : base + PGSIZE = sz)
    (ho : Owns ramPages ph (spacePages d es ++ (trapframe :: other))) (argv : List (List UInt8))
    (entry : Nat) :
    ∃ ph₁ r ph₂ es', (uvmclear d.root va).run ph = .ok ((), ph₁) ∧
      (pushStack d.root base sz argv).run ph₁ = .ok (r, ph₂) ∧
      Moves ramPages ph (spacePages d es) ph₂ (spacePages d es') ∧
      UserSpace ph₂.mem trapframe d es' sz ∧
      ((r = none ∧ ¬ (StackFits argv ∧ argv.length ≤ MAXARG)) ∨
        ∃ sp addrs, r = some (sp, argv.length) ∧ NewImage argv
          { pagetable := d.root, sz := sz, sp := sp, argc := argv.length, entry := entry }
          ph₂.mem es' addrs c) := by
  have hle : es.length ≤ tfIndex := h.length ▸ npages_le h.le
  have hlen : 2 ≤ es.length := by
    unfold PGSIZE at *
    omega
  have hk : es.length - 2 < es.length := by omega
  obtain rfl : va = (es.length - 2) * PGSIZE := by
    unfold PGSIZE at *
    omega
  obtain rfl : base = (es.length - 1) * PGSIZE := by
    unfold PGSIZE at *
    omega
  obtain ⟨ph₁, hrun₁, hc₁, hclear⟩ :=
    uvmclear_spec h.chain hk hle (h.flags _ (getElem_mem hk))
  have hguard : (guard es (es.length - 2)).length = es.length := by rw [guard, length_modify]
  have hm₁ : Moves ramPages ph (spacePages d es) ph₁ (spacePages d (guard es (es.length - 2))) := by
    rw [spacePages_guard]
    exact hclear.frame _
  have hholds₁ : PagesHold ph₁.mem (guard es (es.length - 2)) c :=
    (h.holds.kept hclear h.owns fun e he => mem_map_of_mem he).guard
  have hspace : AddressSpace ph₁ d (tfEntry trapframe) (guard es (es.length - 2)) other :=
    ⟨hc₁, show PTE_TRAPFRAME &&& PTE_PLV = 0 by decide, by rwa [hguard],
      (ho.moves (hm₁.frame _)).perm perm_middle.symm⟩
  obtain ⟨r, mem', hrun₂, hw, hcase⟩ :=
    pushStack_exact (stackPage_guard h.flags hlen hle) hspace argv
  rw [hbase] at hrun₂ hcase
  refine ⟨ph₁, r, _, _, hrun₁, hrun₂, hm₁.trans hw.moves, ?_, ?_⟩
  · exact { chain := (hspace.after hw.userWrites).chain
            flags := guard_flags h.flags _
            length := by rw [hguard, h.length]
            le := h.le }
  rcases hcase with ⟨rfl, hno⟩ | ⟨hfits, -, addrs, sp, hslots, -, hr, hbytes⟩
  · rw [fits_page hbase (Nat.mul_mod_left _ _)] at hno
    exact .inl ⟨rfl, hno⟩
  refine .inr ⟨sp, addrs, hr, rfl, by rw [hguard, hsz], fun i e he hi => ?_, fun i e he hi => ?_,
    ⟨_, hbase, hfits⟩, hslots, hbytes c hholds₁⟩
  · rw [getElem?_guard, Option.map_eq_some_iff] at he
    obtain ⟨e', he', rfl⟩ := he
    rw [hguard] at hi
    rw [if_neg (by omega)]
    exact h.flags e' (mem_of_getElem? he')
  · rw [getElem?_guard, Option.map_eq_some_iff] at he
    obtain ⟨e', he', rfl⟩ := he
    rw [hguard] at hi
    rw [if_pos (by omega), h.flags e' (mem_of_getElem? he')]
    exact (by decide : PTE_USER &&& ~~~PTE_PLV &&& PTE_PLV = 0)

/-- How large an image of `file` is and what it holds, if no offset is cut off. -/
def Describes (file : List UInt8) (im : Image) (c : Bytes) : Prop :=
  im.entry = (elfhdr (readContents file 0 ELFHDR_SIZE)).entry ∧
  (SmallOffsets file → im.sz = PGROUNDUP (imageEnd 0 (fileSegs file)) + 2 * PGSIZE ∧
    c = imageBytes file (fileSegs file) (fun _ => 0) ∧
    imageEnd 0 (fileSegs file) ≤ TRAPFRAME ∧ ∀ hdr ∈ fileSegs file, InFile file hdr)

/-- A new image, or nothing. -/
def BuildPost (trapframe : Nat) (file : List UInt8) (argv : List (List UInt8)) (ph : Phys)
    (r : Option Image) (ph' : Phys) : Prop :=
  (r = none ∧ Moves ramPages ph [] ph' []) ∨
  ∃ im d es addrs c, r = some im ∧ im.pagetable = d.root ∧
    NewImage argv im ph'.mem es addrs c ∧ Describes file im c ∧
    UserSpace ph'.mem trapframe d es im.sz ∧ Moves ramPages ph [] ph' (spacePages d es)

/-- What `exec` builds before it commits to the new image. -/
theorem execImage_spec {trapframe : Nat} {other : List Nat} (file : List UInt8)
    (argv : List (List UInt8)) (ho : Owns ramPages ph (trapframe :: other)) :
    wp (execImage trapframe file argv)
      (fun r ph' => BuildPost trapframe file argv ph r ph' ∧
        (EXEC_PAGES ≤ ph.freelist.length → fileRunsOver file = false ∧ (r = none →
          ¬ (Executable file ∧ StackFits argv ∧ argv.length ≤ MAXARG))))
      (fun e => e = .remap ∧ EXEC_PAGES ≤ ph.freelist.length ∧ fileRunsOver file = true ∧
        ¬ Executable file) ph := by
  have hfree : Owns ramPages ph [] := (show Owns ramPages ph ([] ++ _) from ho).of_append
  unfold execImage fileRunsOver
  dsimp only
  by_cases hlen : (readContents file 0 ELFHDR_SIZE).length = ELFHDR_SIZE
  swap
  · rw [if_pos hlen, decide_eq_false hlen]
    exact ⟨.inl ⟨rfl, Moves.refl _ _⟩, fun _ => ⟨rfl, fun _ hx => hlen hx.1.header⟩⟩
  by_cases hmagic : (elfhdr (readContents file 0 ELFHDR_SIZE)).magic = ELF_MAGIC
  swap
  · rw [if_neg (by simpa using hlen), if_pos hmagic, decide_eq_false hmagic, Bool.and_false]
    exact ⟨.inl ⟨rfl, Moves.refl _ _⟩, fun _ => ⟨rfl, fun _ hx => hmagic hx.1.magic⟩⟩
  rw [if_neg (by simpa using hlen), if_neg (by simpa using hmagic), decide_eq_true hlen,
    decide_eq_true hmagic, Bool.true_and, Bool.true_and, wp_bind]
  obtain ⟨r, ph₁, hrun₁, hcase⟩ := proc_pagetable_spec (ho.own_valid mem_cons_self) hfree
  refine wp_of_ok hrun₁ ?_
  rcases hcase with ⟨rfl, hfew, hm₁⟩ | ⟨d, rfl, hc₁, hm₁⟩
  · refine ⟨.inl ⟨rfl, hm₁⟩, fun hmany => ?_⟩
    unfold EXEC_PAGES at hmany
    omega
  have hm₁' : Moves ramPages ph [] ph₁ (spacePages d []) := by
    rw [spacePages, map_nil, append_nil]
    exact hm₁
  have h₁ : Filled ph₁ d (tfEntry trapframe) [] 0 fun _ => 0 :=
    { chain := hc₁, flags := by simp, length := rfl, le := Nat.zero_le _
      owns := hfree.moves hm₁', holds := fun k e he => by simp at he, zero := fun _ _ => rfl }
  -- four pages are taken
  have hsupply : EXEC_PAGES ≤ ph.freelist.length ↔ tfIndex < supply ph₁ [] := by
    have := hm₁.length
    simp [Dirs.list] at this
    unfold supply EXEC_PAGES
    simp
    omega
  rw [hsupply]
  dsimp only
  rw [wp_bind]
  refine wp_mono (loadSegs_spec file _ h₁) ?_ fun e he =>
    ⟨he.1, he.2.1, he.2.2.1, fun hx => he.2.2.2 hx.allLoad⟩
  rintro ⟨sz, loaded⟩ ph₂ ⟨es₂, c, h₂, hm₂, hfin, hfail⟩
  dsimp only at h₂ hfin hfail ⊢
  cases loaded with
  | false =>
    obtain ⟨ph₃, hrun₃, hm₃⟩ := h₂.free
    rw [if_pos rfl, wp_bind]
    refine wp_of_ok hrun₃ ⟨.inl ⟨rfl, (hm₁'.trans hm₂).trans hm₃⟩, fun hs => ?_⟩
    exact (hfail rfl hs).imp_right fun hno _ hx => hno hx.1.allLoad
  | true =>
    obtain ⟨hruns, hbecomes⟩ := hfin rfl
    have hdescribes : SmallOffsets file → sz = imageEnd 0 (fileSegs file) ∧
        c = imageBytes file (fileSegs file) (fun _ => 0) ∧
        ∀ hdr ∈ fileSegs file, InFile file hdr := by
      intro hsmall
      obtain ⟨hoff, hplain⟩ := hsmall.plain
      rw [hoff] at hbecomes
      exact hbecomes hplain
    rw [if_neg (by decide), hruns, ← supply_moves hm₂, wp_bind]
    refine wp_mono (h₂.round.uvmalloc (PGROUNDUP sz + 2 * PGSIZE)) ?_ ?_
    · rintro sz1 ph₃ (⟨hne, hmax, hend, es₃, h₃, hm₃⟩ | ⟨h0, hfew, es₃, h₃, hm₃⟩)
      · have hsz1 : sz1 = PGROUNDUP sz + 2 * PGSIZE := by omega
        have hlen := h₃.length
        rw [npages_eq h₃.le] at hlen
        have hmul : es₃.length * PGSIZE = sz1 := by
          rw [hsz1, pgroundup_eq] at hlen ⊢
          unfold PGSIZE at *
          omega
        have hm := (hm₁'.trans hm₂).trans hm₃
        have hva : sz1 - 2 * PGSIZE + 2 * PGSIZE = sz1 := by omega
        have hbase : sz1 - PGSIZE + PGSIZE = sz1 := by omega
        generalize sz1 - 2 * PGSIZE = va at hva ⊢
        generalize sz1 - PGSIZE = base at hbase ⊢
        obtain ⟨ph₄, r, ph₅, es₅, hrun₄, hrun₅, hm₅, hspace, hstack⟩ := stack_exact h₃ hmul hva
          hbase (ho.moves (hm.frame _)) argv (elfhdr (readContents file 0 ELFHDR_SIZE)).entry
        have hfits : decide (TRAPFRAME < PGROUNDUP sz + 2 * PGSIZE) = false :=
          decide_eq_false (by omega)
        rw [if_neg hne, wp_bind]
        refine wp_of_ok hrun₄ ?_
        rw [wp_bind]
        refine wp_of_ok hrun₅ ?_
        rcases hstack with ⟨rfl, hno⟩ | ⟨sp, addrs, rfl, himage⟩
        · obtain ⟨ph₆, hrun₆, hm₆⟩ := proc_freepagetable_spec hspace.chain hspace.length hspace.le
            (h₃.owns.moves hm₅)
          rw [wp_bind]
          exact wp_of_ok hrun₆ ⟨.inl ⟨rfl, (hm.trans hm₅).trans hm₆⟩,
            fun _ => ⟨hfits, fun _ hx => hno hx.2⟩⟩
        · refine ⟨.inr ⟨_, d, es₅, addrs, c, rfl, rfl, himage, ⟨rfl, fun hsmall => ?_⟩, hspace,
            hm.trans hm₅⟩, fun _ => ⟨hfits, (absurd · (Option.some_ne_none _))⟩⟩
          obtain ⟨hsz, hc, hin⟩ := hdescribes hsmall
          have hle := h₂.le
          rw [hsz] at hsz1 hle
          exact ⟨hsz1, hc, hle, hin⟩
      · obtain ⟨ph₄, hrun₄, hm₄⟩ := h₃.free
        rw [if_pos h0, wp_bind]
        refine wp_of_ok hrun₄ ⟨.inl ⟨rfl, ((hm₁'.trans hm₂).trans hm₃).trans hm₄⟩, fun hs => ?_⟩
        have := (hfew hs).1
        unfold PGSIZE at this
        omega
    · rintro e ⟨rfl, hend, hs⟩
      refine ⟨rfl, hs, decide_eq_true hend, fun hx => ?_⟩
      have := hx.room
      rw [← (hdescribes hx.offsets).1] at this
      omega

end Xv6.Proofs
