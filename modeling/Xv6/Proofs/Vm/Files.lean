import Xv6.Proofs.Vm.Inv

/-!
# `Xv6.Proofs.Vm.Files`: the file table, descriptors and pipes

The calls on files keep `OsInv`, and each says by how much it changes reference counts
(`ind f g` is 1 for the file it works on). The page of a pipe is freed when its second end is
closed, and not before: `PipesOk` ties the two words in the page to the files that are ends.
-/

set_option autoImplicit false

namespace Xv6.Proofs

open Lib List
open Function (update update_of_ne update_self)

variable {f : FileId} {file : FileId → File} {mem : Bytes} {pi : Nat} {w : Bool} {x : File}

/-! ### Ends -/

theorem isEnd_update {g : FileId} :
    IsEnd (update file f x) pi w g ↔
      (g = f ∧ x.type = .pipe ∧ x.pipe = pi ∧ x.writable = w) ∨ (g ≠ f ∧ IsEnd file pi w g) := by
  unfold IsEnd
  by_cases hg : g = f
  · subst hg
    simp
  · simp [hg]

/-- The ends of the pipes do not depend on the reference counts. -/
theorem PipesOk.of_ends {file' : FileId → File} {pipes : List Nat} (h : PipesOk mem file pipes)
    (hends : ∀ pi w g, IsEnd file' pi w g ↔ IsEnd file pi w g)
    (hclosed : ∀ f, (file' f).ref = 0 → (file' f).type = .none) : PipesOk mem file' pipes where
  closed := hclosed
  page := fun pi w f hf => h.page pi w f ((hends _ _ _).mp hf)
  unique := fun pi w f g hf hg => h.unique pi w f g ((hends _ _ _).mp hf) ((hends _ _ _).mp hg)
  ends := fun pi hpi w => by simp only [h.ends pi hpi w, hends]
  bit := h.bit
  live := fun pi hpi => by simpa only [hends] using h.live pi hpi

section Files

variable {s : Os} {G : Ghost}

/-- A file changes that is not a pipe, before or after. -/
theorem OsInv.setFile (h : OsInv s G) (hold : (s.file f).type ≠ .pipe) (hnew : x.type ≠ .pipe)
    (href : x.ref = 0 → x.type = .none) : OsInv (s.setFile f x) G := by
  have hclosed := h.pipes.closed
  refine h.onPipes (Moves.refl _ _) (h.pipes.of_ends (fun pi w g => ?_) fun g hg => ?_)
  · grind [isEnd_update, IsEnd]
  · grind

/-- The reference count of a file changes, and it stays in use. -/
theorem OsInv.setRef (h : OsInv s G) {n : Nat} (hn : 0 < n) :
    OsInv (s.setFile f { s.file f with ref := n }) G := by
  have hclosed := h.pipes.closed
  refine h.onPipes (Moves.refl _ _) (h.pipes.of_ends (fun pi w g => ?_) fun g hg => ?_)
  · grind [isEnd_update, IsEnd]
  · grind

/-! ### `filealloc` and `filedup` -/

/-- What a function on files may change: files and pipes, but no entry of the process table. -/
structure FileStep (s : Os) (G : Ghost) (s' : Os) (G' : Ghost) : Prop where
  inv : OsInv s' G'
  ghost : G' = { G with pipes := G'.pipes }
  proc : s'.proc = s.proc

theorem FileStep.trans {s₁ s₂ : Os} {G₁ G₂ : Ghost} (h₁ : FileStep s G s₁ G₁)
    (h₂ : FileStep s₁ G₁ s₂ G₂) : FileStep s G s₂ G₂ :=
  ⟨h₂.inv, by rw [h₂.ghost, h₁.ghost], h₂.proc.trans h₁.proc⟩

theorem setFile_file (s : Os) (f g : FileId) (x : File) :
    (s.setFile f x).file g = if g = f then x else s.file g :=
  Function.update_apply _ _ _ _

/-- `filealloc` takes a file that is not in use, if there is one. -/
theorem filealloc_run (s : Os) :
    ((∀ f, (s.file f).ref ≠ 0) ∧ filealloc.run s = .ok (none, s)) ∨
    ∃ f, (s.file f).ref = 0 ∧
      filealloc.run s = .ok (some f, s.setFile f { s.file f with ref := 1 }) := by
  unfold filealloc
  rw [run_bind_ok (StateT.run_get s)]
  cases hfind : (List.finRange NFILE).find? fun f => decide ((s.file f).ref = 0) with
  | none => exact .inl ⟨fun f => by simpa using find?_eq_none.mp hfind f (mem_finRange f), rfl⟩
  | some f => exact .inr ⟨f, by simpa using find?_some hfind, rfl⟩

/-- A new file: its entry was free, so it is of no type. -/
theorem filealloc_spec (h : OsInv s G) :
    filealloc.run s = .ok (none, s) ∨ ∃ f s', filealloc.run s = .ok (some f, s') ∧
      FileStep s G s' G ∧ s'.phys = s.phys ∧ (s.file f).ref = 0 ∧
      (∀ g, (s'.file g).ref = (s.file g).ref + ind f g) ∧
      ∀ g, (s'.file g).type = (s.file g).type := by
  refine (filealloc_run s).imp And.right fun ⟨f, hf, hrun⟩ => ⟨f, _, hrun,
    ⟨h.setRef Nat.one_pos, rfl, rfl⟩, rfl, hf, fun g => ?_, fun g => ?_⟩
  · grind [setFile_file, ind]
  · grind [setFile_file]

/-- `filedup` counts one reference more. -/
theorem filedup_spec (h : OsInv s G) (hf : 1 ≤ (s.file f).ref) :
    ∃ s', (filedup f).run s = .ok ((), s') ∧ OsInv s' G ∧ s'.proc = s.proc ∧
      ∀ g, (s'.file g).ref = (s.file g).ref + ind f g := by
  refine ⟨s.setFile f { s.file f with ref := (s.file f).ref + 1 }, ?_, h.setRef (by omega), rfl,
    fun g => ?_⟩
  · unfold filedup
    rw [run_bind_ok (StateT.run_get s), if_neg (by omega)]
    rfl
  · grind [setFile_file, ind]

/-! ### Closing a pipe -/

theorem endOff_disjoint {w' : Bool} (h : w' ≠ w) (pi : Nat) :
    pi + endOff w' + 4 ≤ pi + endOff w ∨ pi + endOff w + 4 ≤ pi + endOff w' := by
  obtain rfl := Bool.eq_not_of_ne h
  cases w
  · exact Or.inr (Nat.le_refl _)
  · exact Or.inl (Nat.le_refl _)

theorem putLE4_outside {off v : Nat} (hoff : off + 4 ≤ PGSIZE) {a : Nat}
    (ha : ¬ InPage ramPages pi a) : putLE mem (pi + off) 4 v a = mem a := by
  have hsize : ramPages.size = PGSIZE := rfl
  unfold InPage at ha
  rw [hsize] at ha
  exact putLE_apply_of_not_mem (by omega)

theorem endOff_le (w : Bool) : endOff w + 4 ≤ PGSIZE := by cases w <;> decide

theorem store32_run (ph : Phys) (a v : Nat) :
    (store32 a v).run ph = .ok ((), ⟨putLE ph.mem a 4 v, ph.freelist⟩) := rfl

theorem load32_run (ph : Phys) (a : Nat) : (load32 a).run ph = .ok (getLE ph.mem a 4, ph) := rfl

/-- `pipeclose` closes one end, and frees the page when both are closed. -/
theorem pipeclose_run (ph : Phys) (hpi : IsPage pi) (w : Bool) :
    (pipeclose pi w).run ph = .ok ((),
      if getLE ph.mem (pi + endOff (!w)) 4 = 0
      then ⟨fill (putLE ph.mem (pi + endOff w) 4 0) pi 1 PGSIZE, pi :: ph.freelist⟩
      else ⟨putLE ph.mem (pi + endOff w) 4 0, ph.freelist⟩) := by
  have hself : getLE (putLE ph.mem (pi + endOff w) 4 0) (pi + endOff w) 4 = 0 := by
    rw [getLE_putLE_self]
    rfl
  have hother : getLE (putLE ph.mem (pi + endOff w) 4 0) (pi + endOff (!w)) 4
      = getLE ph.mem (pi + endOff (!w)) 4 :=
    getLE_putLE_of_disjoint (endOff_disjoint (by simp) pi)
  -- both words are read, one of them is 0 now
  have hcond : (getLE (putLE ph.mem (pi + endOff w) 4 0) (pi + PIPE_READOPEN) 4 = 0 ∧
      getLE (putLE ph.mem (pi + endOff w) 4 0) (pi + PIPE_WRITEOPEN) 4 = 0) ↔
      getLE ph.mem (pi + endOff (!w)) 4 = 0 := by
    rw [← hother]
    cases w with
    | false => exact ⟨fun h => h.2, fun h => ⟨hself, h⟩⟩
    | true => exact ⟨fun h => h.1, fun h => ⟨h, hself⟩⟩
  have hoff : (if w then PIPE_WRITEOPEN else PIPE_READOPEN) = endOff w := rfl
  rw [pipeclose, hoff, run_bind_ok (store32_run _ _ _), run_bind_ok (load32_run _ _),
    run_bind_ok (load32_run _ _)]
  by_cases h0 : getLE ph.mem (pi + endOff (!w)) 4 = 0
  · rw [if_pos (hcond.mpr h0), if_pos h0, kfree_run hpi]
  · rw [if_neg (fun h => h0 (hcond.mp h)), if_neg h0]
    rfl

/-- The end `f` of a pipe is closed. The pipe stays as long as its other end is open. -/
theorem PipesOk.close {mem' : Bytes} {pipes pipes' : List Nat} (h : PipesOk mem file pipes)
    (hf : IsEnd file pi w f) (hx : x.type = .none)
    (hin : ∀ pi', pi' ∈ pipes' ↔ pi' ∈ pipes ∧ (pi' = pi → getLE mem (pi + endOff (!w)) 4 ≠ 0))
    (hself : pi ∈ pipes' → getLE mem' (pi + endOff w) 4 = 0)
    (hget : ∀ pi' ∈ pipes', ∀ w', (pi' ≠ pi ∨ w' ≠ w) →
      getLE mem' (pi' + endOff w') 4 = getLE mem (pi' + endOff w') 4) :
    PipesOk mem' (update file f x) pipes' := by
  have hends : ∀ pi' w' g, IsEnd (update file f x) pi' w' g ↔ IsEnd file pi' w' g ∧ g ≠ f := by
    grind [isEnd_update]
  have hnone : ∀ g, ¬ IsEnd (update file f x) pi w g := by
    have := h.unique
    grind
  have hother := h.ends pi (h.page pi w f hf) (!w)
  -- an end of another pipe, or the other end of this one
  have hkept : ∀ pi' w' g, (pi' ≠ pi ∨ w' ≠ w) →
      (IsEnd (update file f x) pi' w' g ↔ IsEnd file pi' w' g) := by
    grind [IsEnd]
  refine ⟨fun g hg => ?_, fun pi' w' g hg => ?_, fun pi' w' g g' hg hg' => ?_,
    fun pi' hpi' w' => ?_, fun pi' hpi' w' => ?_, fun pi' hpi' => ?_⟩
  · have := h.closed
    grind
  · refine (hin pi').mpr ⟨h.page _ _ g ((hends _ _ _).mp hg).1, ?_⟩
    rintro rfl
    have hw : w' = !w := Bool.eq_not_of_ne fun heq => hnone g (heq ▸ hg)
    exact hother.mpr ⟨g, hw ▸ ((hends _ _ _).mp hg).1⟩
  · exact h.unique _ _ _ _ ((hends _ _ _).mp hg).1 ((hends _ _ _).mp hg').1
  · by_cases heq : pi' = pi ∧ w' = w
    · obtain ⟨rfl, rfl⟩ := heq
      exact iff_of_false (not_not_intro (hself hpi')) (not_exists.mpr hnone)
    · rw [not_and_or] at heq
      rw [hget pi' hpi' w' heq, h.ends pi' ((hin pi').mp hpi').1 w']
      exact exists_congr fun g => (hkept pi' w' g heq).symm
  · have := h.bit
    grind
  · obtain ⟨hold, hopen⟩ := (hin pi').mp hpi'
    by_cases heq : pi' = pi
    · obtain ⟨g, hg⟩ := hother.mp (hopen heq)
      exact ⟨!w, g, heq ▸ (hkept pi (!w) g (Or.inr (by simp))).mpr hg⟩
    · obtain ⟨w', g, hg⟩ := h.live pi' hold
      exact ⟨w', g, (hkept pi' w' g (Or.inl heq)).mpr hg⟩

/-- Closing the end `f` of a pipe: its page is freed if the other end is closed. -/
theorem pipeclose_spec (h : OsInv s G) (hf : IsEnd s.file pi w f) (hx : x.type = .none) :
    ∃ ph' pipes', (pipeclose pi w).run s.phys = .ok ((), ph') ∧
      OsInv { s with phys := ph', file := update s.file f x }
        { G with pipes := pipes' } := by
  have hpi := h.pipes.page pi w f hf
  have hvalid : ∀ {pi'}, pi' ∈ G.pipes → IsPage pi' := fun hin =>
    h.owns.own_valid (by simp [Ghost.pages, hin])
  have hout : ∀ a, ¬ InPage ramPages pi a →
      putLE s.phys.mem (pi + endOff w) 4 0 a = s.phys.mem a :=
    fun a ha => putLE4_outside (endOff_le w) ha
  -- the pages of the other pipes are as they were
  have hpages : ∀ {mem' : Bytes}, (∀ a, ¬ InPage ramPages pi a → mem' a = s.phys.mem a) →
      ∀ pi' ∈ G.pipes, pi' ≠ pi → ∀ w',
        getLE mem' (pi' + endOff w') 4 = getLE s.phys.mem (pi' + endOff w') 4 :=
    fun hmem pi' hin hne w' => getLE_congr fun a ha ha' => hmem a fun hin' =>
      hne (inPage_unique (K := ramPages) (hvalid hin) (hvalid hpi) (endOff_in ha ha') hin')
  have hrun := pipeclose_run s.phys (hvalid hpi) w
  by_cases h0 : getLE s.phys.mem (pi + endOff (!w)) 4 = 0
  · -- no end is left
    rw [if_pos h0] at hrun
    have hnodup : G.pipes.Nodup := by
      have := h.owns.nodup
      unfold Ghost.pages at this
      simp only [nodup_append] at this
      exact this.2.1.2.1.1
    have hfill : ∀ a, ¬ InPage ramPages pi a →
        fill (putLE s.phys.mem (pi + endOff w) 4 0) pi 1 PGSIZE a = s.phys.mem a :=
      fun a ha => (fill_outside ha).trans (hout a ha)
    refine ⟨_, G.pipes.erase pi, hrun, h.onPipes ((Moves.of_perm (perm_cons_erase hpi).symm).trans
      (Moves.free hfill)) (h.pipes.close hf hx (fun pi' => ?_)
        (fun hin => absurd hin hnodup.not_mem_erase) fun pi' hpi' w' _ => ?_)⟩
    · rw [hnodup.mem_erase_iff]
      simp [h0, and_comm]
    · obtain ⟨hne, hin⟩ := hnodup.mem_erase_iff.mp hpi'
      exact hpages hfill pi' hin hne w'
  · -- the other end keeps the page
    rw [if_neg h0] at hrun
    refine ⟨_, G.pipes, hrun, h.onPipes (Moves.write hpi hout) (h.pipes.close hf hx
      (fun pi' => by simp [h0]) (fun _ => getLE_putLE_self _ _ _ _) fun pi' hpi' w' hne => ?_)⟩
    by_cases heq : pi' = pi
    · subst heq
      exact getLE_putLE_of_disjoint (endOff_disjoint (hne.resolve_left (· rfl)) pi')
    · exact hpages hout pi' hpi' heq w'

/-! ### `fileclose` -/

/-- `fileclose` counts one reference less, and closes the file with the last one. -/
theorem fileclose_spec (h : OsInv s G) (hf : 1 ≤ (s.file f).ref) :
    ∃ s' G', (fileclose f).run s = .ok ((), s') ∧ FileStep s G s' G' ∧
      ∀ g, (s.file g).ref = (s'.file g).ref + ind f g := by
  unfold fileclose
  rw [run_bind_ok (StateT.run_get s), if_neg (by omega)]
  by_cases hmore : 0 < (s.file f).ref - 1
  · refine ⟨s.setFile f { s.file f with ref := (s.file f).ref - 1 }, G, ?_,
      ⟨h.setRef hmore, rfl, rfl⟩, fun g => ?_⟩
    · rw [if_pos hmore]
      rfl
    · grind [setFile_file, ind]
  · -- the last reference
    have hlast : (s.file f).ref = 1 := by omega
    have href : ∀ ph g, (s.file g).ref
        = (Os.file { s.setFile f { s.file f with ref := 0, type := .none } with phys := ph } g).ref
          + ind f g := by
      grind [setFile_file, ind]
    rw [if_neg hmore, run_bind_ok (show (modifyFile f _).run s = .ok ((), _) from rfl)]
    by_cases hpipe : (s.file f).type = .pipe
    · obtain ⟨ph', pipes', hrun, hinv⟩ := pipeclose_spec h ⟨hpipe, rfl, rfl⟩
        (x := { s.file f with ref := 0, type := .none }) rfl
      refine ⟨_, { G with pipes := pipes' }, ?_, ⟨hinv, rfl, rfl⟩, href ph'⟩
      rw [if_pos hpipe]
      exact onPhys_run hrun
    · refine ⟨_, G, ?_, ⟨h.setFile hpipe FileType.noConfusion fun _ => rfl, rfl, rfl⟩, href _⟩
      rw [if_neg hpipe]
      rfl

/-! ### `pipealloc` -/

/-- The words of a new `struct pipe`. -/
theorem pipeInit_run (ph : Phys) (pi : Nat) :
    ∃ mem, (pipeInit pi).run ph = .ok ((), ⟨mem, ph.freelist⟩) ∧
      (∀ a, ¬ InPage ramPages pi a → mem a = ph.mem a) ∧
      ∀ w, getLE mem (pi + endOff w) 4 = 1 := by
  refine ⟨putLE (putLE (putLE (putLE (putLE ph.mem (pi + PIPE_READOPEN) 4 1)
    (pi + PIPE_WRITEOPEN) 4 1) (pi + PIPE_NWRITE) 4 0) (pi + PIPE_NREAD) 4 0) (pi + 0) 4 0,
    ?_, fun a ha => ?_, fun w => ?_⟩
  · rw [pipeInit, run_bind_ok (store32_run _ _ _), run_bind_ok (store32_run _ _ _),
      run_bind_ok (store32_run _ _ _), run_bind_ok (store32_run _ _ _), store32_run, Nat.add_zero]
  · rw [putLE4_outside (by decide) ha, putLE4_outside (by decide) ha,
      putLE4_outside (by decide) ha, putLE4_outside (by decide) ha,
      putLE4_outside (by decide) ha]
  · have hfar : ∀ off, off + 4 ≤ 544 → (pi + endOff w) + 4 ≤ pi + off ∨
        pi + off + 4 ≤ pi + endOff w := by
      intro off hoff
      have : 544 ≤ endOff w := by cases w <;> decide
      omega
    rw [getLE_putLE_of_disjoint (hfar 0 (by decide)),
      getLE_putLE_of_disjoint (hfar PIPE_NREAD (by decide)),
      getLE_putLE_of_disjoint (hfar PIPE_NWRITE (by decide))]
    cases w with
    | true => exact getLE_putLE_self _ _ _ _
    | false =>
      exact (getLE_putLE_of_disjoint (endOff_disjoint (w := true) (by decide) pi)).trans
        (getLE_putLE_self _ _ _ _)

@[simp] theorem ind_self (f : FileId) : ind f f = 1 := if_pos rfl

/-- The last reference to a file that is no pipe. -/
theorem fileclose_last {f : FileId} (href : (s.file f).ref = 1) (htype : (s.file f).type ≠ .pipe) :
    (fileclose f).run s = .ok ((), s.setFile f { s.file f with ref := 0, type := .none }) := by
  unfold fileclose
  rw [run_bind_ok (StateT.run_get s), if_neg (by omega), if_neg (by omega)]
  show (modifyFile f _ >>= fun _ => _).run s = _
  rw [run_bind_ok (show (modifyFile f _).run s = .ok ((), _) from rfl), if_neg htype]
  rfl

/-- The file is an end of pipe `pi` with one reference. -/
structure OnlyEnd (x : File) (pi : Nat) (w : Bool) : Prop where
  type : x.type = .pipe
  ref : x.ref = 1
  readable : x.readable = !w
  writable : x.writable = w
  pipe : x.pipe = pi

/-- A new pipe in page `pi`, with the files `rf` and `wf` as its ends. -/
structure MadePipe (s s' : Os) (rf wf : FileId) (pi : Nat) : Prop where
  ne : rf ≠ wf
  unused : (s.file rf).ref = 0 ∧ (s.file wf).ref = 0
  proc : s'.proc = s.proc
  reading : OnlyEnd (s'.file rf) pi false
  writing : OnlyEnd (s'.file wf) pi true
  other : ∀ f, f ≠ rf → f ≠ wf → s'.file f = s.file f
  page : s.phys.freelist = pi :: s'.phys.freelist
  mem : ∀ a, ¬ InPage ramPages pi a → s'.phys.mem a = s.phys.mem a
  isOpen : ∀ w, getLE s'.phys.mem (pi + endOff w) 4 = 1

/-- What is left of a pipe that was not made: entries of the file table that are free again, and
other bytes in the pages that are free or `own`. -/
structure NotMade (s s' : Os) (own : List Nat) : Prop where
  others : s' = { s with phys := s'.phys, file := s'.file }
  files : ∀ f, s'.file f = s.file f ∨
    ((s.file f).ref = 0 ∧ (s'.file f).ref = 0 ∧ (s'.file f).type = .none)
  moves : Moves ramPages s.phys own s'.phys own

/-- Two files and a page are free. -/
def FileRoom (s : Os) : Prop :=
  (∃ f g, f ≠ g ∧ (s.file f).ref = 0 ∧ (s.file g).ref = 0) ∧ s.phys.freelist ≠ []

/-- `pipealloc` makes a pipe with two new files, or it gives back what it took. -/
theorem pipealloc_exact (hclosed : ∀ f, (s.file f).ref = 0 → (s.file f).type = .none) :
    (∃ s', pipealloc.run s = .ok (none, s') ∧ ¬ FileRoom s ∧ ∀ own, NotMade s s' own) ∨
    ∃ rf wf pi s', pipealloc.run s = .ok (some (rf, wf), s') ∧
      s' = { s with phys := s'.phys, file := s'.file } ∧ MadePipe s s' rf wf pi := by
  unfold pipealloc
  rcases filealloc_run s with ⟨hall, hnone⟩ | ⟨f0, hf0, hrun₁⟩
  · rw [run_bind_ok hnone]
    exact .inl ⟨s, rfl, fun ⟨⟨f, _, _, hf, _⟩, _⟩ => hall f hf,
      fun _ => ⟨rfl, fun _ => .inl rfl, .refl _ _⟩⟩
  rw [run_bind_ok hrun₁]
  dsimp only
  set s₁ := s.setFile f0 { s.file f0 with ref := 1 } with hs₁
  have hfile₁ : ∀ g, s₁.file g = if g = f0 then { s.file f0 with ref := 1 } else s.file g :=
    fun g => setFile_file _ _ _ _
  have hself₁ : s₁.file f0 = { s.file f0 with ref := 1 } := by rw [hfile₁, if_pos rfl]
  rcases filealloc_run s₁ with ⟨hall, hnone⟩ | ⟨f1, hf1, hrun₂⟩
  · -- no second file
    rw [run_bind_ok hnone]
    dsimp only
    rw [run_bind_ok (fileclose_last (by rw [hself₁]) (by rw [hself₁]; simp [hclosed f0 hf0]))]
    refine .inl ⟨_, rfl, fun ⟨⟨f, g, hfg, hf, hg⟩, _⟩ => ?_,
      fun _ => ⟨rfl, fun g => ?_, .refl _ _⟩⟩
    · have hboth : ∀ h, (s.file h).ref = 0 → h = f0 := fun h hh => by
        by_contra hne
        exact hall h (by rw [hfile₁, if_neg hne, hh])
      exact hfg ((hboth f hf).trans (hboth g hg).symm)
    grind [setFile_file]
  have hne : f1 ≠ f0 := by
    rintro rfl
    rw [hself₁] at hf1
    cases hf1
  rw [hfile₁, if_neg hne] at hf1
  rw [run_bind_ok hrun₂]
  dsimp only
  set s₂ := s₁.setFile f1 { s₁.file f1 with ref := 1 } with hs₂
  have hfile₂ : ∀ g, s₂.file g = if g = f1 then { s.file f1 with ref := 1 } else
      if g = f0 then { s.file f0 with ref := 1 } else s.file g := by
    intro g
    rw [hs₂, setFile_file, hfile₁, hfile₁, if_neg hne]
  have hfirst : s₂.file f0 = { s.file f0 with ref := 1 } := by
    rw [hfile₂, if_neg (Ne.symm hne), if_pos rfl]
  have hsecond : s₂.file f1 = { s.file f1 with ref := 1 } := by rw [hfile₂, if_pos rfl]
  have hphys₂ : s₂.phys = s.phys := rfl
  cases hfree : s.phys.freelist with
  | nil =>
    -- no page: both files are given back
    rw [run_bind_ok (onPhys_run (kalloc_none (hphys₂ ▸ hfree)))]
    dsimp only
    rw [run_bind_ok (fileclose_last (by rw [hfirst]) (by rw [hfirst]; simp [hclosed f0 hf0]))]
    set s₃ := Os.setFile { s₂ with phys := s₂.phys } f0
      { s₂.file f0 with ref := 0, type := .none } with hs₃
    have hsecond₃ : s₃.file f1 = { s.file f1 with ref := 1 } := by
      rw [hs₃, setFile_file, if_neg hne]
      exact hsecond
    rw [run_bind_ok (fileclose_last (by rw [hsecond₃]) (by rw [hsecond₃]; simp [hclosed f1 hf1]))]
    refine .inl ⟨_, rfl, fun hroom => hroom.2 hfree, fun _ => ⟨rfl, fun g => ?_, .refl _ _⟩⟩
    grind [setFile_file]
  | cons pi free =>
    obtain ⟨mem, hrun₃, hmem, hopen⟩ := pipeInit_run ⟨fill s₂.phys.mem pi 5 PGSIZE, free⟩ pi
    rw [run_bind_ok (onPhys_run (kalloc_some (hphys₂ ▸ hfree)))]
    dsimp only
    rw [run_bind_ok (onPhys_run hrun₃)]
    refine .inr ⟨f0, f1, pi, _, rfl, rfl, Ne.symm hne, ⟨hf0, hf1⟩, rfl, ?_, ?_, fun g h0 h1 => ?_,
      hfree, fun a ha => ?_, hopen⟩
    · show OnlyEnd ((Os.setFile (Os.setFile _ f0 _) f1 _).file f0) pi false
      rw [setFile_file, if_neg (Ne.symm hne), setFile_file, if_pos rfl]
      exact ⟨rfl, congrArg File.ref hfirst, rfl, rfl, rfl⟩
    · show OnlyEnd ((Os.setFile (Os.setFile _ f0 _) f1 _).file f1) pi true
      rw [setFile_file, if_pos rfl]
      refine ⟨rfl, ?_, rfl, rfl, rfl⟩
      show ((Os.setFile _ f0 _).file f1).ref = 1
      rw [setFile_file, if_neg hne]
      exact congrArg File.ref hsecond
    · show (Os.setFile (Os.setFile _ f0 _) f1 _).file g = _
      rw [setFile_file, if_neg h1, setFile_file, if_neg h0]
      exact (hfile₂ g).trans ((if_neg h1).trans (if_neg h0))
    · exact (hmem a ha).trans (fill_outside ha)

/-- A new pipe is open at both ends. -/
theorem PipesOk.add {s' : Os} {pipes : List Nat} {rf wf : FileId}
    (h : PipesOk s.phys.mem s.file pipes) (hmade : MadePipe s s' rf wf pi)
    (hpages : ∀ pg ∈ pi :: pipes, IsPage pg) (hpi : pi ∉ pipes) :
    PipesOk s'.phys.mem s'.file (pi :: pipes) := by
  have hends : ∀ pi' w g, IsEnd s'.file pi' w g ↔
      (pi' = pi ∧ g = if w then wf else rf) ∨ IsEnd s.file pi' w g := by
    have := h.closed
    grind [IsEnd, OnlyEnd, MadePipe]
  have hnew : ∀ w g, ¬ IsEnd s.file pi w g := fun w g hg => hpi (h.page pi w g hg)
  have hold : ∀ pi' ∈ pipes, ∀ w,
      getLE s'.phys.mem (pi' + endOff w) 4 = getLE s.phys.mem (pi' + endOff w) 4 := by
    intro pi' hpi' w
    refine getLE_congr fun a ha ha' => hmade.mem a fun hin => hpi ?_
    have heq := inPage_unique (K := ramPages) (hpages pi mem_cons_self)
      (hpages pi' (mem_cons_of_mem _ hpi')) hin (endOff_in ha ha')
    exact heq ▸ hpi'
  refine ⟨fun f hf => ?_, fun pi' w f hf => ?_, fun pi' w f g hf hg => ?_, fun pi' hpi' w => ?_,
    fun pi' hpi' w => ?_, fun pi' hpi' => ?_⟩
  · have := h.closed
    grind [OnlyEnd, MadePipe]
  · have := h.page
    grind
  · have := h.unique
    grind
  · rcases mem_cons.mp hpi' with rfl | hin
    · rw [hmade.isOpen w]
      exact iff_of_true (by decide) ⟨_, (hends _ _ _).mpr (Or.inl ⟨rfl, rfl⟩)⟩
    · rw [hold pi' hin w, h.ends pi' hin w]
      refine exists_congr fun g => ?_
      rw [hends]
      refine ⟨Or.inr, fun hg => hg.resolve_left ?_⟩
      rintro ⟨rfl, -⟩
      exact hpi hin
  · rcases mem_cons.mp hpi' with rfl | hpi'
    · rw [hmade.isOpen w]
    · rw [hold pi' hpi' w]
      exact h.bit pi' hpi' w
  · rcases mem_cons.mp hpi' with rfl | hpi'
    · exact ⟨true, wf, (hends _ _ _).mpr (Or.inl ⟨rfl, rfl⟩)⟩
    · obtain ⟨w, g, hg⟩ := h.live pi' hpi'
      exact ⟨w, g, (hends _ _ _).mpr (Or.inr hg)⟩

theorem MadePipe.ref {s' : Os} {rf wf : FileId} (h : MadePipe s s' rf wf pi) (g : FileId) :
    (s'.file g).ref = (s.file g).ref + ind rf g + ind wf g := by
  grind [MadePipe, OnlyEnd, ind]

/-- The last reference to an end of a pipe is closed. -/
theorem fileclose_end (h : OnlyEnd (s.file f) pi w) (hpi : IsPage pi) :
    (fileclose f).run s = .ok ((), { s.setFile f { s.file f with ref := 0, type := .none } with
      phys := if getLE s.phys.mem (pi + endOff (!w)) 4 = 0
        then ⟨fill (putLE s.phys.mem (pi + endOff w) 4 0) pi 1 PGSIZE, pi :: s.phys.freelist⟩
        else ⟨putLE s.phys.mem (pi + endOff w) 4 0, s.phys.freelist⟩ }) := by
  unfold fileclose
  rw [run_bind_ok (StateT.run_get s), if_neg (by rw [h.ref]; omega), if_neg (by rw [h.ref]; omega)]
  show (modifyFile f _ >>= fun _ => _).run s = _
  rw [run_bind_ok (show (modifyFile f _).run s = .ok ((), _) from rfl), if_pos h.type, h.pipe,
    h.writable]
  exact onPhys_run (pipeclose_run s.phys hpi w)

/-- Both ends of a new pipe are closed, after writes to `own`: its page is free again. -/
theorem MadePipe.closeEnds {s₁ : Os} {rf wf : FileId} {own : List Nat} {mem' : Bytes}
    (h : MadePipe s s₁ rf wf pi) (hs₁ : s₁ = { s with phys := s₁.phys, file := s₁.file })
    (hpi : IsPage pi) (hopen : ∀ w, getLE mem' (pi + endOff w) 4 = 1)
    (hmem : ∀ a, (∀ pg ∈ own, ¬ InPage ramPages pg a) → mem' a = s₁.phys.mem a) :
    ∃ s', (do fileclose rf; fileclose wf; return -1 : OsM Int).run
        { s₁ with phys := ⟨mem', s₁.phys.freelist⟩ } = .ok (-1, s') ∧ NotMade s s' own := by
  -- the writing end is still open, and then no end is
  have hrun₁ := fileclose_end (s := { s₁ with phys := ⟨mem', s₁.phys.freelist⟩ }) h.reading hpi
  rw [if_neg (by rw [hopen]; decide)] at hrun₁
  set s₂ : Os := { Os.setFile { s₁ with phys := ⟨mem', s₁.phys.freelist⟩ } rf
    { s₁.file rf with ref := 0, type := .none } with
    phys := ⟨putLE mem' (pi + endOff false) 4 0, s₁.phys.freelist⟩ } with hs₂
  have hfile₂ : ∀ g, s₂.file g
      = if g = rf then { s₁.file rf with ref := 0, type := .none } else s₁.file g :=
    fun g => setFile_file s₁ rf g _
  have hwriting : OnlyEnd (s₂.file wf) pi true := by
    rw [hfile₂, if_neg (Ne.symm h.ne)]
    exact h.writing
  have hrun₂ := fileclose_end hwriting hpi
  rw [if_pos (show getLE s₂.phys.mem (pi + endOff (!true)) 4 = 0 from getLE_putLE_self _ _ _ _)]
    at hrun₂
  refine ⟨_, by rw [run_bind_ok hrun₁, run_bind_ok hrun₂]; rfl, ?_, fun g => ?_, ?_⟩
  · show ({ Os.setFile s₂ wf _ with phys := _ } : Os) = _
    rw [hs₂, hs₁]
    rfl
  · show (s₂.setFile wf _).file g = _ ∨ (_ ∧ ((s₂.setFile wf _).file g).ref = _ ∧
      ((s₂.setFile wf _).file g).type = _)
    grind [setFile_file, MadePipe]
  · refine ⟨?_, fun a ha => ?_⟩
    · rw [h.page]
    · have hout : ¬ InPage ramPages pi a := ha pi (by simp [h.page])
      refine (fill_outside hout).trans ((putLE4_outside (endOff_le _) hout).trans
        ((putLE4_outside (endOff_le _) hout).trans
          ((hmem a fun pg hpg => ?_).trans (h.mem a hout))))
      exact ha pg (mem_append_right _ hpg)

end Files

end Xv6.Proofs
