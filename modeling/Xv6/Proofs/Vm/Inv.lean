import Mathlib.Data.List.FinRange
import Mathlib.Data.Finset.Card
import Mathlib.Data.Fintype.Prod
import Mathlib.Data.Fintype.Card
import Xv6.Kernel.Sys
import Xv6.Proofs.Vm.Exec

/-!
# `Xv6.Proofs.Vm.Inv`: who has which page

`Ghost` says which pages the kernel, the pipes and the slots of the process table have, and which
have been taken out of use, so that the free pages may run out at any point. `OsInv s G` says that
the free pages and those of `G` are all pages there are, and that memory holds the page tables and
pipes that `G` says. It holds at every point inside a call too.

A function that works on the pages of one slot keeps `OsInv` by the rule `OsInv.slot`, one that
works on pipes by `OsInv.onPipes`: whoever else has pages finds them unchanged.

Between two calls the slots are settled, that is, a slot in use has a complete address space, and
the reference counts of the files are the numbers of their descriptors (`Inv`).
-/

set_option autoImplicit false

namespace Xv6.Proofs

open Lib List
open Function (update update_eq_self update_idem update_of_ne update_self)

variable {fd : Fin NOFILE} {mem : Bytes} {p : Slot} {pg : Nat} {ph' : Phys} {proc : Slot → UProc}
  {q : UProc} {s' : Os}

/-! ### Owners -/

/-- A trapframe, a page table and the user's pages. -/
structure Space where
  trapframe : Nat
  d : Dirs
  es : List Entry

/-- What a slot of the process table has. -/
inductive Held where
  | nothing
  | frame (trapframe : Nat)
  | space (sp : Space)

def Held.pages : Held → List Nat
  | .nothing => []
  | .frame trapframe => [trapframe]
  | .space sp => sp.trapframe :: spacePages sp.d sp.es

structure Ghost where
  /-- the kernel's page table -/
  kd : Dirs
  /-- the kernel stacks -/
  kstack : List Nat
  /-- pages of a call in progress, for the arguments of `exec` -/
  args : List Nat
  /-- pages that nobody may have -/
  aside : List Nat
  pipes : List Nat
  held : Slot → Held

variable {G' : Ghost} {sp : Space}

/-- The pages of the slots other than `p`. -/
def Ghost.others (G : Ghost) (p : Slot) : List Nat :=
  ((List.finRange NPROC).erase p).flatMap fun i => (G.held i).pages

def Ghost.kernel (G : Ghost) : List Nat := G.kd.list ++ (G.kstack ++ (G.aside ++ G.args))

def Ghost.slots (G : Ghost) : List Nat := (List.finRange NPROC).flatMap fun i => (G.held i).pages

/-- All pages that are not free. -/
def Ghost.pages (G : Ghost) : List Nat := G.slots ++ (G.pipes ++ G.kernel)

def Ghost.setHeld (G : Ghost) (p : Slot) (x : Held) : Ghost :=
  { G with held := Function.update G.held p x }

/-- All pages of `[RAMBASE, RAMSTOP)`. -/
def allPages : List Nat := (List.range 32768).map fun i => RAMBASE + i * PGSIZE

theorem mem_allPages : pg ∈ allPages ↔ IsPage pg := by
  unfold allPages IsPage RAMSTOP RAMBASE PGSIZE
  rw [mem_map]
  constructor
  · rintro ⟨i, hi, rfl⟩
    rw [mem_range] at hi
    omega
  · rintro ⟨halign, hlo, hhi⟩
    refine ⟨(pg - 0x9000000090000000) / 4096, mem_range.mpr (by omega), by omega⟩

theorem allPages_nodup : allPages.Nodup := by
  refine nodup_range.map fun i j h => ?_
  unfold PGSIZE at h
  omega

theorem Ghost.slots_split (G : Ghost) (p : Slot) :
    G.slots.Perm ((G.held p).pages ++ G.others p) := by
  have hperm := perm_cons_erase (mem_finRange p)
  have h := hperm.flatMap_right fun i => (G.held i).pages
  rwa [flatMap_cons] at h

theorem Ghost.others_set (G : Ghost) (p : Slot) (x : Held) :
    (G.setHeld p x).others p = G.others p := by
  unfold Ghost.others
  refine flatMap_congr fun i hi => ?_
  have hne : i ≠ p := fun h =>
    (nodup_finRange NPROC).not_mem_erase (h ▸ hi)
  show (update G.held p x i).pages = _
  rw [update_of_ne hne]

/-- The pages of one slot, and the rest. -/
theorem Ghost.split (G : Ghost) (p : Slot) :
    G.pages.Perm ((G.held p).pages ++ (G.others p ++ (G.pipes ++ G.kernel))) := by
  rw [← append_assoc]
  exact (G.slots_split p).append_right _

theorem Ghost.split_set (G : Ghost) (p : Slot) (x : Held) :
    (G.setHeld p x).pages.Perm (x.pages ++ (G.others p ++ (G.pipes ++ G.kernel))) := by
  have h := (G.setHeld p x).split p
  rw [G.others_set] at h
  have hself : (G.setHeld p x).held p = x := update_self _ _ _
  rw [hself] at h
  exact h

theorem Ghost.mem_others {G : Ghost} {i : Slot} (hne : i ≠ p) (h : pg ∈ (G.held i).pages) :
    pg ∈ G.others p := by
  refine mem_flatMap.mpr ⟨i, ?_, h⟩
  exact (mem_erase_of_ne hne).mpr (mem_finRange i)

/-! ### What memory holds -/

/-- The kernel's page table maps the stacks, at every other page below `TRAPFRAME`. -/
def kernelMap (kstack : List Nat) : PageMap := fun i =>
  if i % 2 = 1 ∧ i ≤ 253 then kstack[(253 - i) / 2]?.map fun pg => ⟨pg, PTE_TRAPFRAME⟩ else none

/-- An entry of the process table and what it has. -/
def SlotOk (mem : Bytes) (q : UProc) : Held → Prop
  | .nothing => q.trapframe = 0 ∧ q.pagetable = 0 ∧ q.sz = 0
  | .frame trapframe => q.trapframe = trapframe ∧ q.pagetable = 0 ∧ q.sz = 0
  | .space sp => q.trapframe = sp.trapframe ∧ q.pagetable = sp.d.root ∧
      UserSpace mem sp.trapframe sp.d sp.es q.sz

/-- `f` is an end of the pipe `pi`, the writing end if `w`. -/
def IsEnd (file : FileId → File) (pi : Nat) (w : Bool) (f : FileId) : Prop :=
  (file f).type = .pipe ∧ (file f).pipe = pi ∧ (file f).writable = w

/-- The word that says whether an end is open. -/
def endOff (w : Bool) : Nat := if w then PIPE_WRITEOPEN else PIPE_READOPEN

structure PipesOk (mem : Bytes) (file : FileId → File) (pipes : List Nat) : Prop where
  closed : ∀ f, (file f).ref = 0 → (file f).type = .none
  page : ∀ pi w f, IsEnd file pi w f → pi ∈ pipes
  unique : ∀ pi w f g, IsEnd file pi w f → IsEnd file pi w g → f = g
  ends : ∀ pi ∈ pipes, ∀ w, getLE mem (pi + endOff w) 4 ≠ 0 ↔ ∃ f, IsEnd file pi w f
  bit : ∀ pi ∈ pipes, ∀ w, getLE mem (pi + endOff w) 4 ≤ 1
  live : ∀ pi ∈ pipes, ∃ w f, IsEnd file pi w f

structure OsInv (s : Os) (G : Ghost) : Prop where
  pages : (s.phys.freelist ++ G.pages).Perm allPages
  kpgtbl : s.kpgtbl = G.kd.root
  kernel : Chain s.phys.mem G.kd (kernelMap G.kstack)
  nstacks : G.kstack.length = NPROC
  slots : ∀ p, SlotOk s.phys.mem (s.proc p) (G.held p)
  pipes : PipesOk s.phys.mem s.file G.pipes

theorem OsInv.owns {s : Os} {G : Ghost} (h : OsInv s G) : Owns ramPages s.phys G.pages :=
  ⟨h.pages.nodup_iff.mpr allPages_nodup, fun _ hpg => mem_allPages.mp (h.pages.subset hpg)⟩

/-- A slot depends on the bytes of its own pages. -/
theorem SlotOk.congr {mem' : Bytes} {x : Held} (h : SlotOk mem q x)
    (hmem : ∀ pg ∈ x.pages, ∀ a, InPage ramPages pg a → mem' a = mem a) : SlotOk mem' q x := by
  cases x with
  | nothing => exact h
  | frame trapframe => exact h
  | space sp =>
    obtain ⟨htf, hroot, hsp⟩ := h
    refine ⟨htf, hroot, { hsp with chain := hsp.chain.congr fun pg hpg => hmem pg ?_ }⟩
    exact mem_cons_of_mem _ (mem_append_left _ hpg)

theorem endOff_in {pi x : Nat} {w : Bool} (hx : pi + endOff w ≤ x) (hx' : x < pi + endOff w + 4) :
    InPage ramPages pi x := by
  have hoff : endOff w ≤ 548 := by cases w <;> decide
  show pi ≤ x ∧ x < pi + 4096
  omega

/-- A pipe depends on the bytes of its own page. -/
theorem PipesOk.congr {mem' : Bytes} {file : FileId → File} {pipes : List Nat}
    (h : PipesOk mem file pipes) (hmem : ∀ pg ∈ pipes, ∀ a, InPage ramPages pg a → mem' a = mem a) :
    PipesOk mem' file pipes := by
  have hget : ∀ pi ∈ pipes, ∀ w, getLE mem' (pi + endOff w) 4 = getLE mem (pi + endOff w) 4 :=
    fun pi hpi w => getLE_congr fun x hx hx' => hmem pi hpi x (endOff_in hx hx')
  refine { h with ends := fun pi hpi w => ?_, bit := fun pi hpi w => ?_ }
  · rw [hget pi hpi w, h.ends pi hpi w]
  · rw [hget pi hpi w]
    exact h.bit pi hpi w

/-! ### Steps -/

section Step

variable {s : Os} {G : Ghost}

/-- A step on pages of its own, with the rest of the pages in use set aside. -/
theorem OsInv.kept (h : OsInv s G) {own own' rest : List Nat} (hsplit : G.pages.Perm (own ++ rest))
    (hm : Moves ramPages s.phys own ph' own') (hpg : pg ∈ rest) :
    ∀ a, InPage ramPages pg a → ph'.mem a = s.phys.mem a :=
  fun _ ha => hm.kept (h.owns.perm hsplit.symm) hpg ha

/-- A call that moves pages loses none. -/
theorem OsInv.pages_moves (h : OsInv s G) {own own' rest pages' : List Nat}
    (hsplit : G.pages.Perm (own ++ rest)) (hsplit' : pages'.Perm (own' ++ rest))
    (hm : Moves ramPages s.phys own ph' own') : (ph'.freelist ++ pages').Perm allPages :=
  calc ph'.freelist ++ pages'
    List.Perm _ (ph'.freelist ++ (own' ++ rest)) := hsplit'.append_left _
    List.Perm _ (s.phys.freelist ++ (own ++ rest)) := (hm.frame rest).perm
    List.Perm _ (s.phys.freelist ++ G.pages) := hsplit.symm.append_left _
    List.Perm _ allPages := h.pages

/-- The pages of a slot and its entry change. -/
theorem OsInv.slot (h : OsInv s G) {x : Held}
    (hm : Moves ramPages s.phys (G.held p).pages ph' x.pages) (hq : SlotOk ph'.mem q x) :
    OsInv { s.setProc p q with phys := ph' } (G.setHeld p x) := by
  have hkept : ∀ pg ∈ G.others p ++ (G.pipes ++ G.kernel), ∀ a, InPage ramPages pg a →
      ph'.mem a = s.phys.mem a := fun pg hpg => h.kept (G.split p) hm hpg
  refine
    { pages := h.pages_moves (G.split p) (G.split_set p x) hm
      kpgtbl := h.kpgtbl
      kernel := h.kernel.congr fun pg hpg => hkept pg ?_
      nstacks := h.nstacks
      slots := fun i => ?_
      pipes := h.pipes.congr fun pg hpg => hkept pg ?_ }
  · have : pg ∈ G.kernel := mem_append_left _ hpg
    simp [this]
  · show SlotOk ph'.mem (update s.proc p q i) (update G.held p x i)
    by_cases hi : i = p
    · subst hi
      rw [update_self, update_self]
      exact hq
    · rw [update_of_ne hi, update_of_ne hi]
      exact (h.slots i).congr fun pg hpg =>
        hkept pg (mem_append_left _ (G.mem_others hi hpg))
  · have : pg ∈ G.pipes := hpg
    simp [this]

theorem Ghost.split_pipes (G : Ghost) (pipes : List Nat) :
    (G.slots ++ (pipes ++ G.kernel)).Perm (pipes ++ (G.slots ++ G.kernel)) := by
  rw [← append_assoc, ← append_assoc]
  exact perm_append_comm.append_right _

section

variable (h : OsInv s G)
include h

theorem OsInv.pipes_owns : Owns ramPages s.phys G.pipes :=
  (h.owns.perm (G.split_pipes G.pipes).symm).of_append

/-- The pages of the pipes and the file table change. -/
theorem OsInv.onPipes {pipes' : List Nat} {file' : FileId → File}
    (hm : Moves ramPages s.phys G.pipes ph' pipes') (hp : PipesOk ph'.mem file' pipes') :
    OsInv { s with phys := ph', file := file' } { G with pipes := pipes' } := by
  have hkept : ∀ pg ∈ G.slots ++ G.kernel, ∀ a, InPage ramPages pg a →
      ph'.mem a = s.phys.mem a := fun pg hpg => h.kept (G.split_pipes G.pipes) hm hpg
  refine
    { pages := h.pages_moves (G.split_pipes G.pipes) (G.split_pipes pipes') hm
      kpgtbl := h.kpgtbl
      kernel := h.kernel.congr fun pg hpg => hkept pg ?_
      nstacks := h.nstacks
      slots := fun i => (h.slots i).congr fun pg hpg => hkept pg ?_
      pipes := hp }
  · exact mem_append_right _ (mem_append_left _ hpg)
  · exact mem_append_left _ (mem_flatMap.mpr ⟨i, mem_finRange i, hpg⟩)

theorem OsInv.space (hp : G.held p = .space sp) :
    (s.proc p).trapframe = sp.trapframe ∧ (s.proc p).pagetable = sp.d.root ∧
      UserSpace s.phys.mem sp.trapframe sp.d sp.es (s.proc p).sz := by
  have hslot := h.slots p
  rwa [hp] at hslot

/-- The pages of a slot are its own. -/
theorem OsInv.slot_owns (p : Slot) : Owns ramPages s.phys (G.held p).pages :=
  (h.owns.perm (G.split p).symm).of_append

theorem OsInv.space_owns (hp : G.held p = .space sp) :
    Owns ramPages s.phys (spacePages sp.d sp.es) := by
  have ho := h.slot_owns p
  rw [hp] at ho
  exact (ho.perm (perm_append_singleton _ _)).of_append

/-- The pages of two different slots. -/
theorem OsInv.two_owns {i : Slot} (hne : i ≠ p) {sq : Space} (hp : G.held p = .space sp)
    (hi : G.held i = .space sq) :
    Owns ramPages s.phys (spacePages sp.d sp.es ++ spacePages sq.d sq.es) := by
  have hfirst : (spacePages sp.d sp.es).Sublist (G.held p).pages := by
    rw [hp]
    exact sublist_cons_self _ _
  have hsecond : (spacePages sq.d sq.es).Sublist (G.others p) := by
    have hmem : (G.held i).pages ∈
        ((List.finRange NPROC).erase p).map fun j => (G.held j).pages :=
      mem_map_of_mem ((mem_erase_of_ne hne).mpr (mem_finRange i))
    rw [hi] at hmem
    have hsub : (spacePages sq.d sq.es).Sublist (Held.space sq).pages :=
      sublist_cons_self _ _
    rw [Ghost.others, flatMap_def]
    exact hsub.trans (sublist_flatten_of_mem hmem)
  refine h.owns.subperm (List.Subperm.trans (List.Sublist.subperm ?_) (G.split p).symm.subperm)
  exact hfirst.append (hsecond.trans (sublist_append_left _ _))

/-- The user's pages of a slot change, with what they hold. -/
theorem OsInv.onSpace (hp : G.held p = .space sp) {es' : List Entry}
    (hm : Moves ramPages s.phys (spacePages sp.d sp.es) ph' (spacePages sp.d es'))
    (htf : q.trapframe = (s.proc p).trapframe) (hpt : q.pagetable = (s.proc p).pagetable)
    (hsp : UserSpace ph'.mem sp.trapframe sp.d es' q.sz) :
    OsInv { s.setProc p q with phys := ph' } (G.setHeld p (.space { sp with es := es' })) := by
  obtain ⟨htf', hpt', -⟩ := h.space hp
  refine h.slot ?_ ⟨htf.trans htf', hpt.trans hpt', hsp⟩
  rw [hp]
  exact hm.cons sp.trapframe

/-- The contents of the user's pages of a slot change. -/
theorem OsInv.onContents (hp : G.held p = .space sp)
    (hm : Moves ramPages s.phys (spacePages sp.d sp.es) ph' (spacePages sp.d sp.es))
    (hc : Chain ph'.mem sp.d (userMap (some (tfEntry sp.trapframe)) sp.es)) :
    OsInv { s with phys := ph' } G := by
  have hsp := (h.space hp).2.2
  have hstep := h.onSpace hp (q := s.proc p) hm rfl rfl { hsp with chain := hc }
  have hG : G.setHeld p (.space { sp with es := sp.es }) = G := by
    unfold Ghost.setHeld
    rw [← hp, update_eq_self]
  have hs : s.setProc p (s.proc p) = s := by
    unfold Os.setProc
    rw [update_eq_self]
  rwa [hG, hs] at hstep

/-- The trapframe of a slot is written. -/
theorem OsInv.onTrapframe (hp : G.held p = .space sp)
    (hmem : ∀ a, ¬ InPage ramPages sp.trapframe a → mem a = s.phys.mem a) :
    OsInv { s with phys := { s.phys with mem := mem } } G := by
  have ho := h.slot_owns p
  rw [hp] at ho
  have htf : IsPage sp.trapframe := ho.own_valid mem_cons_self
  have hnot : sp.trapframe ∉ sp.d.list := by
    have hnodup := (nodup_append.mp ho.nodup).2.1
    exact fun hin => (nodup_cons.mp hnodup).1 (mem_append_left _ hin)
  have hsp := (h.space hp).2.2
  have hq : SlotOk mem (s.proc p) (G.held p) := by
    rw [hp]
    exact ⟨(h.space hp).1, (h.space hp).2.1, { hsp with chain := hsp.chain.other htf hnot hmem }⟩
  have hm : Moves ramPages s.phys (G.held p).pages { s.phys with mem := mem } (G.held p).pages := by
    rw [hp]
    exact Moves.write mem_cons_self hmem
  have hstep := h.slot hm hq
  have hG : G.setHeld p (G.held p) = G := by
    unfold Ghost.setHeld
    rw [update_eq_self]
  have hs : s.setProc p (s.proc p) = s := by
    unfold Os.setProc
    rw [update_eq_self]
  rwa [hG, hs] at hstep

/-- A call that takes pages and gives them back. -/
theorem OsInv.onFree (hm : Moves ramPages s.phys [] ph' []) : OsInv { s with phys := ph' } G := by
  have hsplit : G.pages.Perm ([] ++ G.pages) := List.Perm.refl _
  have hkept : ∀ pg ∈ G.pages, ∀ a, InPage ramPages pg a → ph'.mem a = s.phys.mem a :=
    fun pg hpg => h.kept hsplit hm hpg
  refine
    { pages := h.pages_moves hsplit hsplit hm
      kpgtbl := h.kpgtbl
      kernel := h.kernel.congr fun pg hpg => hkept pg ?_
      nstacks := h.nstacks
      slots := fun i => (h.slots i).congr fun pg hpg => hkept pg ?_
      pipes := h.pipes.congr fun pg hpg => hkept pg ?_ }
  · simp [Ghost.pages, Ghost.kernel, hpg]
  · exact mem_append_left _ (mem_flatMap.mpr ⟨i, mem_finRange i, hpg⟩)
  · simp [Ghost.pages, hpg]

theorem OsInv.free_owns : Owns ramPages s.phys [] := by
  have ho : Owns ramPages s.phys ([] ++ G.pages) := h.owns
  exact ho.of_append

/-- The pages of the call in progress change. -/
theorem OsInv.onArgs {args' : List Nat} (hm : Moves ramPages s.phys G.args ph' args') :
    OsInv { s with phys := ph' } { G with args := args' } := by
  set rest := G.slots ++ (G.pipes ++ (G.kd.list ++ (G.kstack ++ G.aside))) with hrest
  have hsplit : ∀ args : List Nat, (G.slots ++ (G.pipes ++ (G.kd.list ++ (G.kstack ++
      (G.aside ++ args))))).Perm (args ++ rest) := by
    intro args
    have hcomm : (rest ++ args).Perm (args ++ rest) := perm_append_comm
    simpa only [hrest, append_assoc] using hcomm
  have hkept : ∀ pg ∈ rest, ∀ a, InPage ramPages pg a → ph'.mem a = s.phys.mem a :=
    fun pg hpg => h.kept (hsplit G.args) hm hpg
  refine
    { pages := h.pages_moves (hsplit G.args) (hsplit args') hm
      kpgtbl := h.kpgtbl
      kernel := h.kernel.congr fun pg hpg => hkept pg ?_
      nstacks := h.nstacks
      slots := fun i => (h.slots i).congr fun pg hpg => hkept pg ?_
      pipes := h.pipes.congr fun pg hpg => hkept pg ?_ }
  · simp [hrest, hpg]
  · exact mem_append_left _ (mem_flatMap.mpr ⟨i, mem_finRange i, hpg⟩)
  · simp [hrest, hpg]

/-- Entries change in fields that do not concern pages. -/
theorem OsInv.of_eq (hphys : s'.phys = s.phys) (hfile : s'.file = s.file)
    (hkpgtbl : s'.kpgtbl = s.kpgtbl)
    (hproc : ∀ i, (s'.proc i).trapframe = (s.proc i).trapframe ∧
      (s'.proc i).pagetable = (s.proc i).pagetable ∧ (s'.proc i).sz = (s.proc i).sz) :
    OsInv s' G := by
  refine ⟨?_, hkpgtbl.trans h.kpgtbl, ?_, h.nstacks, fun i => ?_, ?_⟩
  · rw [hphys]
    exact h.pages
  · rw [hphys]
    exact h.kernel
  · rw [hphys]
    obtain ⟨htf, hpt, hsz⟩ := hproc i
    have hi := h.slots i
    generalize G.held i = x at hi
    cases x with
    | nothing => simpa only [SlotOk, htf, hpt, hsz] using hi
    | frame trapframe => simpa only [SlotOk, htf, hpt, hsz] using hi
    | space sp => simpa only [SlotOk, htf, hpt, hsz] using hi
  · rw [hphys, hfile]
    exact h.pipes

/-- One entry changes in fields that do not concern pages. -/
theorem OsInv.setProc (htf : q.trapframe = (s.proc p).trapframe)
    (hpt : q.pagetable = (s.proc p).pagetable) (hsz : q.sz = (s.proc p).sz) :
    OsInv (s.setProc p q) G := by
  refine h.of_eq rfl rfl rfl fun i => ?_
  show (update s.proc p q i).trapframe = _ ∧ (update s.proc p q i).pagetable = _ ∧
    (update s.proc p q i).sz = _
  by_cases hi : i = p
  · subst hi
    rw [update_self]
    exact ⟨htf, hpt, hsz⟩
  · rw [update_of_ne hi]
    exact ⟨rfl, rfl, rfl⟩

end

end Step

/-! ### Between two calls -/

/-- The number of descriptors for a file. -/
def fdcount (proc : Slot → UProc) (f : FileId) : Nat :=
  ((Finset.univ : Finset (Slot × Fin NOFILE)).filter fun x => (proc x.1).ofile x.2 = some f).card

/-- 1 for `f` and 0 for other files -/
def ind (f g : FileId) : Nat := if g = f then 1 else 0

structure FilesOk (s : Os) : Prop where
  count : ∀ f, (s.file f).ref = fdcount s.proc f
  closed : ∀ p, (s.proc p).state = .unused ∨ (s.proc p).state = .zombie →
    ∀ fd, (s.proc p).ofile fd = none

/-- A slot in use has a complete address space, and no call holds pages. -/
structure Settled (s : Os) (G : Ghost) : Prop where
  args : G.args = []
  unused : ∀ p, (s.proc p).state = .unused → G.held p = .nothing
  used : ∀ p, (s.proc p).state ≠ .unused → ∃ sp, G.held p = .space sp

structure Inv (s : Os) (G : Ghost) : Prop where
  sys : OsInv s G
  settled : Settled s G
  files : FilesOk s

/-- `p->ofile[fd] = v` -/
def setFd (proc : Slot → UProc) (p : Slot) (fd : Fin NOFILE) (v : Option FileId) : Slot → UProc :=
  Function.update proc p { proc p with ofile := Function.update (proc p).ofile fd v }

@[simp] theorem setFd_ofile (proc : Slot → UProc) (p : Slot) (fd : Fin NOFILE)
    (v : Option FileId) : (setFd proc p fd v p).ofile fd = v := by simp [setFd]

theorem setFd_state (proc : Slot → UProc) (p i : Slot) (fd : Fin NOFILE) (v : Option FileId) :
    (setFd proc p fd v i).state = (proc i).state := by
  unfold setFd
  by_cases hi : i = p
  · rw [hi, update_self]
  · rw [update_of_ne hi]

theorem fdcount_congr {proc' : Slot → UProc} (h : ∀ p, (proc' p).ofile = (proc p).ofile)
    (f : FileId) : fdcount proc' f = fdcount proc f := by
  unfold fdcount
  simp only [h]

/-- A descriptor is taken into use. -/
theorem fdcount_open (h : (proc p).ofile fd = none) (f g : FileId) :
    fdcount (setFd proc p fd (some f)) g = fdcount proc g + ind f g := by
  have hne : ∀ x : Slot × Fin NOFILE, x ≠ (p, fd) →
      (setFd proc p fd (some f) x.1).ofile x.2 = (proc x.1).ofile x.2 := by
    intro x hx
    unfold setFd
    by_cases h1 : x.1 = p
    · have h2 : x.2 ≠ fd := fun h2 => hx (Prod.ext h1 h2)
      rw [h1, update_self]
      exact update_of_ne h2 _ _
    · rw [update_of_ne h1]
  unfold fdcount ind
  by_cases hg : g = f
  · subst hg
    rw [if_pos rfl, ← Finset.card_insert_of_notMem (a := (p, fd))]
    · congr 1
      ext x
      by_cases hx : x = (p, fd)
      · subst hx
        simp
      · simp [hx, hne x hx]
    · simp [h]
  · rw [if_neg hg, Nat.add_zero]
    congr 1
    ext x
    by_cases hx : x = (p, fd)
    · subst hx
      simp [h, Ne.symm hg]
    · simp [hne x hx]

theorem fdcount_pos {f : FileId} (h : (proc p).ofile fd = some f) : 1 ≤ fdcount proc f :=
  Finset.card_pos.mpr ⟨(p, fd), by simp [h]⟩

/-- A descriptor is cleared. -/
theorem fdcount_close {f : FileId} (h : (proc p).ofile fd = some f) (g : FileId) :
    fdcount proc g = fdcount (setFd proc p fd none) g + ind f g := by
  have hback : setFd (setFd proc p fd none) p fd (some f) = proc := by
    unfold setFd
    rw [update_self, update_idem, update_idem, ← h,
      update_eq_self, update_eq_self]
  rw [← fdcount_open (setFd_ofile proc p fd none), hback]

/-- A step that changes descriptors of process `p` only, and no state of a process. -/
structure FdStep (s : Os) (G : Ghost) (p : Slot) (s' : Os) (G' : Ghost) : Prop where
  inv : OsInv s' G'
  ghost : G' = { G with pipes := G'.pipes }
  state : ∀ i, (s'.proc i).state = (s.proc i).state
  other : ∀ i, i ≠ p → (s'.proc i).ofile = (s.proc i).ofile

theorem FdStep.held {s : Os} {G : Ghost} (h : FdStep s G p s' G') :
    G'.held = G.held := by rw [h.ghost]

/-- A process that has neither exited nor is being made. -/
def Active (s : Os) (p : Slot) : Prop :=
  (s.proc p).state ≠ .unused ∧ (s.proc p).state ≠ .zombie

/-- A call that changes the descriptors of one process. -/
theorem Inv.of_fdStep {s : Os} {G : Ghost} (h : Inv s G) (hp : Active s p)
    (hstep : FdStep s G p s' G') (hcount : ∀ g, (s'.file g).ref = fdcount s'.proc g) :
    Inv s' G' where
  sys := hstep.inv
  settled := by
    refine ⟨by rw [hstep.ghost]; exact h.settled.args, ?_, ?_⟩
    · intro i hi
      rw [hstep.held]
      exact h.settled.unused i ((hstep.state i).symm.trans hi)
    · intro i hi
      rw [hstep.held]
      exact h.settled.used i fun hu => hi ((hstep.state i).trans hu)
  files := by
    refine ⟨hcount, fun i hi fd => ?_⟩
    rw [hstep.state i] at hi
    have hne : i ≠ p := by
      rintro rfl
      exact hi.elim hp.1 hp.2
    rw [hstep.other i hne]
    exact h.files.closed i hi fd

/-- How a call ends: `Inv` holds, a pipe that is gone has its page on the free list, and what was
taken out of use stays so. -/
structure CallPost (G : Ghost) (s' : Os) (G' : Ghost) : Prop where
  inv : Inv s' G'
  pipes : ∀ pi ∈ G.pipes, pi ∈ G'.pipes ∨ pi ∈ s'.phys.freelist
  aside : G'.aside = G.aside

theorem Inv.post {s : Os} {G : Ghost} (h : Inv s G) : CallPost G s G :=
  ⟨h, fun _ hpi => Or.inl hpi, rfl⟩

/-- The pages of the pipes and the free pages together stay what they are, since nobody else's
pages change. -/
theorem Inv.post_fdStep {s : Os} {G : Ghost} (h : Inv s G) (hp : Active s p)
    (hstep : FdStep s G p s' G') (hcount : ∀ g, (s'.file g).ref = fdcount s'.proc g) :
    CallPost G s' G' := by
  refine ⟨h.of_fdStep hp hstep hcount, fun pi hpi => ?_, by rw [hstep.ghost]⟩
  have hin : pi ∈ s'.phys.freelist ++ G'.pages := hstep.inv.pages.symm.subset
    (h.sys.pages.subset (mem_append_right _ (by simp [Ghost.pages, hpi])))
  have hsplit := (G.split_pipes G.pipes).nodup_iff.mp (nodup_append.mp h.sys.owns.nodup).2.1
  have hnot : pi ∉ G.slots ++ G.kernel := fun hmem =>
    (nodup_append.mp hsplit).2.2 pi hpi pi hmem rfl
  have hslots : G'.slots = G.slots := by rw [hstep.ghost]; rfl
  have hkernel : G'.kernel = G.kernel := by rw [hstep.ghost]; rfl
  rw [Ghost.pages, hslots, hkernel, mem_append, mem_append, mem_append] at hin
  rw [mem_append, not_or] at hnot
  rcases hin with hfree | hslot | hpipe | hkern
  · exact Or.inr hfree
  · exact absurd hslot hnot.1
  · exact Or.inl hpipe
  · exact absurd hkern hnot.2

/-! ### Programs on the system -/

section Wp

variable {α : Type} {Q : α → Os → Prop} {E : Panic → Prop} {s : Os}

@[simp] theorem wp_onPhys (x : VmM α) :
    wp (onPhys x) Q E s ↔ wp x (fun a ph => Q a { s with phys := ph }) E s.phys := by
  unfold wp onPhys StateT.run
  dsimp only
  cases x s.phys with
  | error e => exact Iff.rfl
  | ok r => exact Iff.rfl

theorem onPhys_run {x : VmM α} {a : α} {ph : Phys} (hrun : x.run s.phys = .ok (a, ph)) :
    (onPhys x).run s = .ok (a, { s with phys := ph }) := by
  change Except.bind (x.run s.phys) _ = _
  rw [hrun]
  rfl

end Wp

end Xv6.Proofs
