import Xv6.Proofs.Vm.Descriptors

/-!
# `Xv6.Proofs.Vm.Procs`: the calls on processes

`fork`, `sbrk`, `exit` and `wait` keep `Inv` and do not panic, except that `init` must not exit.
`allocproc` and `freeproc` are described inside a call: the slot that is being made holds nothing,
then a trapframe, then an address space without pages.
-/

set_option autoImplicit false

namespace Xv6.Proofs

open Lib List
open Function (update update_eq_self update_idem update_of_ne update_self)

variable {np : Slot} {sp : Space}

section Procs

variable {s : Os} {G : Ghost} {p : Slot}

/-! ### `freeproc` and `allocproc` -/

theorem setHeld_setHeld (G : Ghost) (p : Slot) (x y : Held) :
    (G.setHeld p x).setHeld p y = G.setHeld p y := by
  unfold Ghost.setHeld
  rw [update_idem]

theorem setHeld_self (G : Ghost) (p : Slot) : G.setHeld p (G.held p) = G := by
  unfold Ghost.setHeld
  rw [update_eq_self]

theorem setHeld_held (G : Ghost) (p : Slot) (x : Held) : (G.setHeld p x).held p = x :=
  update_self _ _ _

theorem setHeld_held_ne {G : Ghost} {p i : Slot} (h : i ≠ p) (x : Held) :
    (G.setHeld p x).held i = G.held i := update_of_ne h _ _

/-- The entry that `freeproc` leaves. -/
def freed_proc (q : UProc) : UProc :=
  { q with
    trapframe := 0, pagetable := 0, sz := 0, pid := 0, parent := none, chan := none
    killed := false, xstate := 0, state := .unused }

/-- The trapframe, the page table and the pages of an address space are given back. -/
theorem freeproc_space (htf : (s.proc p).trapframe = sp.trapframe)
    (hpt : (s.proc p).pagetable = sp.d.root)
    (hsp : UserSpace s.phys.mem sp.trapframe sp.d sp.es (s.proc p).sz)
    (ho : Owns ramPages s.phys (Held.space sp).pages) :
    ∃ ph', (freeproc p).run s = .ok ((), { s.setProc p (freed_proc (s.proc p)) with
      phys := ph' }) ∧ Moves ramPages s.phys (Held.space sp).pages ph' [] := by
  have hpage : IsPage sp.trapframe := ho.own_valid mem_cons_self
  have hroot : IsPage sp.d.root := hsp.chain.pages _ (by simp [Dirs.list])
  have hm₁ : Moves ramPages s.phys (sp.trapframe :: spacePages sp.d sp.es) _ _ := moves_kfree
  have hnot : sp.trapframe ∉ sp.d.list := by
    have hnodup := (nodup_append.mp ho.nodup).2.1
    exact fun hin => (nodup_cons.mp hnodup).1 (mem_append_left _ hin)
  have hc₁ : Chain (PageHeap.mk (fill s.phys.mem sp.trapframe 1 PGSIZE)
      (sp.trapframe :: s.phys.freelist)).mem sp.d _ :=
    hsp.chain.other hpage hnot fun a ha => fill_outside ha
  obtain ⟨ph', hrun, hm₂⟩ := proc_freepagetable_spec hc₁ hsp.length hsp.le (ho.moves hm₁)
  refine ⟨ph', ?_, hm₁.trans hm₂⟩
  unfold freeproc
  rw [run_bind_ok (StateT.run_get s)]
  dsimp only
  rw [if_pos (htf ▸ isPage_ne_zero hpage), htf, run_bind_ok (onPhys_run (kfree_run hpage)),
    if_pos (hpt ▸ isPage_ne_zero hroot), hpt, run_bind_ok (onPhys_run hrun)]
  rfl

/-- Everything that a slot has is given back. -/
theorem freeproc_spec (h : OsInv s G) (p : Slot) :
    ∃ s', (freeproc p).run s = .ok ((), s') ∧ OsInv s' (G.setHeld p .nothing) ∧
      s'.file = s.file ∧ s'.proc = update s.proc p (freed_proc (s.proc p)) := by
  have hslot := h.slots p
  have ho := h.slot_owns p
  -- the memory after the pages are freed
  have hphys : ∃ ph', (freeproc p).run s = .ok ((), { s.setProc p (freed_proc (s.proc p)) with
      phys := ph' }) ∧ Moves ramPages s.phys (G.held p).pages ph' [] := by
    unfold freeproc
    rw [run_bind_ok (StateT.run_get s)]
    dsimp only
    cases hheld : G.held p with
    | nothing =>
      rw [hheld] at hslot
      obtain ⟨htf, hpt, -⟩ := hslot
      refine ⟨s.phys, ?_, Moves.refl _ _⟩
      rw [if_neg (not_not_intro htf), if_neg (not_not_intro hpt)]
      rfl
    | frame trapframe =>
      rw [hheld] at hslot ho
      obtain ⟨htf, hpt, -⟩ := hslot
      have hpage : IsPage trapframe := ho.own_valid mem_cons_self
      refine ⟨_, ?_, moves_kfree⟩
      rw [if_pos (htf ▸ isPage_ne_zero hpage), htf, run_bind_ok (onPhys_run (kfree_run hpage)),
        if_neg (not_not_intro hpt)]
      rfl
    | space sp =>
      rw [hheld] at hslot ho
      obtain ⟨htf, hpt, hsp⟩ := hslot
      have hfree := freeproc_space htf hpt hsp ho
      unfold freeproc at hfree
      rwa [run_bind_ok (StateT.run_get s)] at hfree
  obtain ⟨ph', hrun, hm⟩ := hphys
  have hx : SlotOk ph'.mem (freed_proc (s.proc p)) .nothing := ⟨rfl, rfl, rfl⟩
  exact ⟨_, hrun, h.slot (x := .nothing) hm hx, rfl, rfl⟩

/-- The slot that `allocproc` takes. -/
def FirstUnused (s : Os) (np : Slot) : Prop :=
  (s.proc np).state = .unused ∧ ∀ i < np, (s.proc i).state ≠ .unused

theorem firstUnused_of_find
    (h : (List.finRange NPROC).find? (fun i => decide ((s.proc i).state = .unused)) = some np) :
    FirstUnused s np := by
  obtain ⟨hnp, as, bs, hlist, hbefore⟩ := find?_eq_some_iff_append.mp h
  refine ⟨by simpa using hnp, fun i hi => ?_⟩
  have hsorted : (List.finRange NPROC).Pairwise (· < ·) := pairwise_lt_finRange NPROC
  rw [hlist, pairwise_append] at hsorted
  have hmem : i ∈ as ++ np :: bs := hlist ▸ mem_finRange i
  rcases mem_append.mp hmem with hin | hin
  · simpa using hbefore i hin
  · rcases mem_cons.mp hin with rfl | hin
    · exact absurd hi (lt_irrefl i)
    · exact absurd (lt_trans hi ((pairwise_cons.mp hsorted.2.1).1 i hin)) (lt_irrefl i)

/-- A slot is taken, with a trapframe and a page table, or nothing is. -/
theorem allocproc_spec (h : OsInv s G)
    (hunused : ∀ i, (s.proc i).state = .unused → G.held i = .nothing) :
    ∃ r s', allocproc.run s = .ok (r, s') ∧ s'.file = s.file ∧
      ((r = none ∧ OsInv s' G ∧ (∀ i, (s'.proc i).state = (s.proc i).state ∧
          (s'.proc i).ofile = (s.proc i).ofile) ∧
          ((∀ i, (s.proc i).state ≠ .unused) ∨ s.phys.freelist.length < 5)) ∨
        ∃ np sp, r = some np ∧ FirstUnused s np ∧ sp.es = [] ∧
          OsInv s' (G.setHeld np (.space sp)) ∧ (∀ i, i ≠ np → s'.proc i = s.proc i) ∧
          (s'.proc np).state = .used ∧ (s'.proc np).ofile = (s.proc np).ofile) := by
  unfold allocproc
  rw [run_bind_ok (StateT.run_get s)]
  dsimp only
  cases hfind : (List.finRange NPROC).find? fun i => decide ((s.proc i).state = .unused) with
  | none =>
    refine ⟨none, s, rfl, rfl, Or.inl ⟨rfl, h, fun _ => ⟨rfl, rfl⟩, Or.inl fun i => ?_⟩⟩
    simpa using find?_eq_none.mp hfind i (mem_finRange i)
  | some np =>
    have hfirst := firstUnused_of_find hfind
    have hst := hfirst.1
    have hheld := hunused np hst
    have hslot := h.slots np
    rw [hheld] at hslot
    obtain ⟨htf, hpt, hsz⟩ := hslot
    -- a failure gives everything back: the slot ends as it was, except for `pid`
    have hback : ∀ {s₂ : Os} {x : Held} {q : UProc}, OsInv s₂ (G.setHeld np x) →
        s₂.file = s.file → s₂.proc = update s.proc np q → q.ofile = (s.proc np).ofile →
        ∃ s', (do freeproc np; return none : OsM (Option Slot)).run s₂ = .ok (none, s') ∧
          s'.file = s.file ∧ OsInv s' G ∧ ∀ i, (s'.proc i).state = (s.proc i).state ∧
            (s'.proc i).ofile = (s.proc i).ofile := by
      intro s₂ x q h₂ hfile hproc₂ hofile
      obtain ⟨s', hrun, hinv, hfile', hproc⟩ := freeproc_spec h₂ np
      rw [setHeld_setHeld, ← hheld, setHeld_self] at hinv
      refine ⟨s', ?_, hfile'.trans hfile, hinv, fun i => ?_⟩
      · rw [run_bind_ok hrun]
        rfl
      · rw [hproc, hproc₂, update_idem, update_self]
        by_cases hi : i = np
        · rw [hi, update_self]
          exact ⟨hst.symm, hofile⟩
        · rw [update_of_ne hi]
          exact ⟨rfl, rfl⟩
    -- the slot is marked
    set s₁ : Os := { s.setProc np { s.proc np with pid := s.nextpid, state := .used } with
      nextpid := s.nextpid + 1 } with hs₁
    have hproc₁ : s₁.proc np = { s.proc np with pid := s.nextpid, state := .used } :=
      update_self _ _ _
    have h₁ : OsInv s₁ G := by
      have hset : OsInv (s.setProc np { s.proc np with pid := s.nextpid, state := .used }) G :=
        h.setProc rfl rfl rfl
      exact hset.of_eq rfl rfl rfl fun _ => ⟨rfl, rfl, rfl⟩
    rw [run_bind_ok (show (modify _ : OsM Unit).run s = .ok ((), s₁) from rfl)]
    cases hfree : s₁.phys.freelist with
    | nil =>
      have h₂ : OsInv (s₁.setProc np { s₁.proc np with trapframe := 0 })
          (G.setHeld np .nothing) := by
        rw [← hheld, setHeld_self]
        exact h₁.setProc (by rw [hproc₁]; exact htf.symm) rfl rfl
      obtain ⟨s', hrun, hfile, hinv, hproc⟩ := hback h₂ rfl (update_idem ..)
        (by rw [hproc₁])
      have hfew : s.phys.freelist.length < 5 := by
        rw [show s.phys.freelist = [] from hfree]
        decide
      refine ⟨none, s', ?_, hfile, Or.inl ⟨rfl, hinv, hproc, Or.inr hfew⟩⟩
      rw [run_bind_ok (onPhys_run (kalloc_none hfree))]
      exact hrun
    | cons trapframe free =>
      -- the trapframe
      have hm₂ : Moves ramPages s₁.phys (G.held np).pages
          ⟨fill s₁.phys.mem trapframe 5 PGSIZE, free⟩ (Held.frame trapframe).pages := by
        rw [hheld]
        exact moves_kalloc hfree []
      have h₂ := h₁.slot (x := .frame trapframe)
        (q := { s₁.proc np with trapframe := trapframe }) hm₂
        ⟨rfl, by rw [hproc₁]; exact hpt, by rw [hproc₁]; exact hsz⟩
      set s₂ : Os := { s₁.setProc np { s₁.proc np with trapframe := trapframe } with
        phys := ⟨fill s₁.phys.mem trapframe 5 PGSIZE, free⟩ } with hs₂
      have hall₂ (q : UProc) : update s₂.proc np q = update s.proc np q := by
        show update (update (update s.proc np _) np _) np q = _
        rw [update_idem, update_idem]
      have hproc₂ : s₂.proc np = { s₁.proc np with trapframe := trapframe } :=
        update_self _ _ _
      have hpage : IsPage trapframe := by
        have ho := h₂.slot_owns np
        rw [setHeld_held] at ho
        exact ho.own_valid mem_cons_self
      rw [run_bind_ok (onPhys_run (kalloc_some hfree))]
      dsimp only
      rw [run_bind_ok (show (modifyProc np _ : OsM Unit).run _ = .ok ((), s₂) from rfl)]
      obtain ⟨r, ph₃, hrun₃, hcase⟩ := proc_pagetable_spec hpage h₂.free_owns
      rcases hcase with ⟨rfl, hfew₃, hm₃⟩ | ⟨d, rfl, hc₃, hm₃⟩
      · have h₃ := (h₂.onFree hm₃).setProc (p := np) (q := { s₂.proc np with pagetable := 0 }) rfl
          (by show 0 = (s₂.proc np).pagetable; rw [hproc₂, hproc₁]; exact hpt.symm) rfl
        obtain ⟨s', hrun, hfile, hinv, hproc⟩ := hback h₃ rfl (hall₂ _)
          (by rw [hproc₂, hproc₁])
        have hfew : s.phys.freelist.length < 5 := by
          rw [show s.phys.freelist = trapframe :: free from hfree]
          exact Nat.succ_lt_succ hfew₃
        refine ⟨none, s', ?_, hfile, Or.inl ⟨rfl, hinv, hproc, Or.inr hfew⟩⟩
        rw [run_bind_ok (onPhys_run hrun₃)]
        exact hrun
      · have hm₃' : Moves ramPages s₂.phys ((G.setHeld np (.frame trapframe)).held np).pages ph₃
            (Held.space ⟨trapframe, d, []⟩).pages := by
          rw [setHeld_held]
          show Moves ramPages _ [trapframe] _ (trapframe :: spacePages d [])
          rw [spacePages, map_nil, append_nil]
          exact hm₃.cons trapframe
        have hsz₂ : (s₂.proc np).sz = 0 := by rw [hproc₂, hproc₁]; exact hsz
        have h₃ := h₂.slot (x := .space ⟨trapframe, d, []⟩)
          (q := { s₂.proc np with pagetable := d.root }) hm₃'
          ⟨by rw [hproc₂], rfl, ⟨hc₃, by rw [hsz₂]; rfl, by rw [hsz₂]; exact Nat.zero_le _⟩,
            by simp⟩
        rw [setHeld_setHeld] at h₃
        refine ⟨some np, { s₂.setProc np { s₂.proc np with pagetable := d.root } with phys := ph₃ },
          ?_, rfl, Or.inr ⟨np, ⟨trapframe, d, []⟩, rfl, hfirst, rfl, h₃, ?_⟩⟩
        · rw [run_bind_ok (onPhys_run hrun₃)]
          rfl
        · show (∀ i, i ≠ np → update s₂.proc np _ i = _) ∧ (update s₂.proc np _ np).state = _ ∧
            (update s₂.proc np _ np).ofile = _
          rw [hall₂, update_self, hproc₂, hproc₁]
          exact ⟨fun i hi => update_of_ne hi _ _, rfl, rfl⟩

/-! ### `sbrk` -/

/-- No process changes its state or its descriptors, and no file changes. A slot holds what it held,
or another address space. -/
theorem Inv.of_held {s' : Os} {G' : Ghost} (h : Inv s G) (hinv : OsInv s' G')
    (hargs : G'.args = G.args ∧ G'.aside = G.aside) (hpipes : G'.pipes = G.pipes)
    (hheld : ∀ i, G'.held i = G.held i ∨ G.held i ≠ .nothing ∧ ∃ sp, G'.held i = .space sp)
    (hproc : ∀ i, (s'.proc i).state = (s.proc i).state ∧ (s'.proc i).ofile = (s.proc i).ofile)
    (hfile : s'.file = s.file) : CallPost G s' G' := by
  refine ⟨⟨hinv, ⟨hargs.1.trans h.settled.args, fun i hi => ?_, fun i hi => ?_⟩,
    ⟨fun g => ?_, fun i hi fd => ?_⟩⟩, fun pi hpi => Or.inl (hpipes ▸ hpi), hargs.2⟩
  · rw [(hproc i).1] at hi
    have hnothing := h.settled.unused i hi
    exact (hheld i).elim (·.trans hnothing) fun hne => absurd hnothing hne.1
  · rw [(hproc i).1] at hi
    exact (hheld i).elim (fun heq => heq ▸ h.settled.used i hi) And.right
  · rw [hfile, h.files.count g, fdcount_congr fun i => (hproc i).2]
  · rw [(hproc i).1] at hi
    rw [(hproc i).2]
    exact h.files.closed i hi fd

/-- The slots hold what they held. -/
theorem Inv.of_same {s' : Os} (h : Inv s G) (hinv : OsInv s' G)
    (hproc : ∀ i, (s'.proc i).state = (s.proc i).state ∧ (s'.proc i).ofile = (s.proc i).ofile)
    (hfile : s'.file = s.file) : CallPost G s' G :=
  h.of_held hinv ⟨rfl, rfl⟩ rfl (fun _ => Or.inl rfl) hproc hfile

/-- One process gets another address space. -/
theorem Inv.of_space {s' : Os} {sp' : Space} (h : Inv s G) (hp : G.held p = .space sp)
    (hinv : OsInv s' (G.setHeld p (.space sp')))
    (hproc : ∀ i, (s'.proc i).state = (s.proc i).state ∧ (s'.proc i).ofile = (s.proc i).ofile)
    (hfile : s'.file = s.file) : CallPost G s' (G.setHeld p (.space sp')) := by
  refine h.of_held hinv ⟨rfl, rfl⟩ rfl (fun i => ?_) hproc hfile
  by_cases hi : i = p
  · rw [hi, setHeld_held, hp]
    exact Or.inr ⟨nofun, sp', rfl⟩
  · exact Or.inl (setHeld_held_ne hi ..)

/-- A process changes its size and its pages. -/
theorem Inv.resize (h : Inv s G) (hp : G.held p = .space sp) {es' : List Entry} {sz : Nat}
    {ph' : Phys} (hm : Moves ramPages s.phys (spacePages sp.d sp.es) ph' (spacePages sp.d es'))
    (hsp : UserSpace ph'.mem sp.trapframe sp.d es' sz) :
    CallPost G { s.setProc p { s.proc p with sz := sz } with phys := ph' }
      (G.setHeld p (.space { sp with es := es' })) := by
  refine h.of_space hp (h.sys.onSpace hp hm rfl rfl hsp) (fun i => ?_) rfl
  show (update s.proc p _ i).state = _ ∧ (update s.proc p _ i).ofile = _
  by_cases hi : i = p
  · rw [hi, update_self]
    exact ⟨rfl, rfl⟩
  · rw [update_of_ne hi]
    exact ⟨rfl, rfl⟩

/-- The size that `growproc` computes. -/
def wrapSize (sz : Nat) (n : CInt) : Nat := (sz + n.toNat) % 2 ^ 32

theorem wrapSize_eq {sz : Nat} (hsz : sz ≤ TRAPFRAME) (n : CInt) :
    (wrapSize sz n : Int) = sz + n.toInt ∨
      ((wrapSize sz n : Int) = sz + n.toInt + 2 ^ 32 ∧ (sz : Int) + n.toInt < 0) := by
  unfold wrapSize
  unfold TRAPFRAME MAXVA at hsz
  have hlt := n.isLt
  rw [BitVec.toInt_eq_toNat_cond]
  split <;> omega

section Growproc

variable {d : Dirs} {tf : Entry} {es : List Entry} {other : List Nat}

/-- How `growproc` ends: the pages of the new size, of which the first hold what they held, or
nothing new. -/
theorem growproc_exact (h : AddressSpace s.phys d tf es other)
    (hroot : (s.proc p).pagetable = d.root) (hlen : es.length = npages (s.proc p).sz)
    (hsz : (s.proc p).sz ≤ TRAPFRAME) (n : CInt) :
    ∃ r s', (growproc p n).run s = .ok (r, s') ∧ (s'.proc p).pagetable = d.root ∧
      ((r = 0 ∧
        (s'.proc p).sz = (if n.toInt < 0 then min (s.proc p).sz (wrapSize (s.proc p).sz n)
          else wrapSize (s.proc p).sz n) ∧
        s' = { s.setProc p { s.proc p with sz := (s'.proc p).sz } with phys := s'.phys } ∧
        ∃ es', es'.length = npages (s'.proc p).sz ∧ (s'.proc p).sz ≤ TRAPFRAME ∧
          Chain s'.phys.mem d (userMap (some tf) es') ∧
          Moves ramPages s.phys (spacePages d es) s'.phys (spacePages d es') ∧
          (∀ e ∈ es', e ∈ es ∨ e.flags = PTE_USER) ∧
          ∀ c, PagesHold s.phys.mem es c →
            PagesHold s'.phys.mem (es'.take (min es.length es'.length)) c) ∨
      (r = -1 ∧ 0 < n.toInt ∧ s' = { s with phys := s'.phys } ∧
        Chain s'.phys.mem d (userMap (some tf) es) ∧
        Moves ramPages s.phys (spacePages d es) s'.phys (spacePages d es))) := by
  have ho : Owns ramPages s.phys (spacePages d es) :=
    (h.owns.perm (perm_append_singleton _ _)).of_append.of_append
  have hmod : (s.proc p).sz % 2 ^ 32 = (s.proc p).sz := by
    unfold TRAPFRAME MAXVA at hsz
    omega
  have hset : ∀ (ph : Phys) (sz : Nat),
      Os.proc { s.setProc p { s.proc p with sz := sz } with phys := ph } p
        = { s.proc p with sz := sz } := fun _ _ => update_self _ _ _
  have hwrap := wrapSize_eq hsz n
  unfold growproc
  rw [run_bind_ok (StateT.run_get s)]
  dsimp only
  rw [hmod, hroot]
  unfold wrapSize at hwrap ⊢
  generalize ((s.proc p).sz + n.toNat) % 2 ^ 32 = newsz at hwrap ⊢
  rcases Int.lt_trichotomy n.toInt 0 with hneg | hzero | hpos
  · -- pages are given back
    rw [if_neg (by omega), if_pos hneg]
    have hperm := spacePages_split d es (npages (min (s.proc p).sz newsz))
    obtain ⟨ph', hrun, hc', hm⟩ := uvmdealloc_exact newsz h.chain hlen hsz
      (ho.perm hperm.symm).of_append
    have hlt : min (s.proc p).sz newsz % 2 ^ 32 = min (s.proc p).sz newsz := by
      unfold TRAPFRAME MAXVA at hsz
      omega
    have hle : min (s.proc p).sz newsz ≤ TRAPFRAME := by omega
    have htake : (es.take (npages (min (s.proc p).sz newsz))).length
        = npages (min (s.proc p).sz newsz) := by
      rw [length_take, hlen]
      exact Nat.min_eq_left (npages_mono (Nat.min_le_left _ _) hsz)
    rw [run_bind_ok (onPhys_run hrun), hlt]
    refine ⟨0, { s.setProc p { s.proc p with sz := min (s.proc p).sz newsz } with phys := ph' },
      rfl, ?_⟩
    rw [hset]
    refine ⟨hroot, Or.inl ⟨rfl, (if_pos hneg).symm, by rw [← hroot], _, htake, hle, hc',
      (Moves.of_perm hperm.symm).trans (hm.frame _), fun e he => .inl (mem_of_mem_take he),
      fun c hbytes => ?_⟩⟩
    exact PagesHold.take (PagesHold.kept (hbytes.take _) hm (ho.perm hperm.symm)
      fun e he => mem_map_of_mem he) _
  · -- nothing to do
    have hsame : newsz = (s.proc p).sz := by
      unfold TRAPFRAME MAXVA at hsz
      omega
    rw [if_neg (by omega), if_neg (by omega)]
    refine ⟨0, { s.setProc p { s.proc p with sz := (s.proc p).sz } with phys := s.phys }, rfl, ?_⟩
    rw [hset]
    refine ⟨hroot, Or.inl ⟨rfl, ?_, by rw [← hroot], es, hlen, hsz, h.chain, Moves.refl _ _,
      fun _ => .inl, fun c hbytes => hbytes.take _⟩⟩
    rw [if_neg (by omega), hsame]
  · rw [if_pos hpos]
    have hgrow : (s.proc p).sz < newsz := by omega
    by_cases hbig : MAXVA - PGSIZE ≤ newsz
    · rw [if_pos hbig]
      exact ⟨-1, s, rfl, hroot, Or.inr ⟨rfl, hpos, rfl, h.chain, Moves.refl _ _⟩⟩
    rw [if_neg hbig]
    have hle : newsz ≤ TRAPFRAME := by unfold TRAPFRAME; omega
    -- the new size is below the trapframe, so there is no panic
    obtain ⟨r, ph', hrun, hpost⟩ := wp_returns (wp_mono
      (uvmalloc_exact newsz h.chain hlen hsz ho.of_append) (fun _ _ h => h)
      fun e he => absurd he.2.1 (by omega))
    rw [run_bind_ok (onPhys_run hrun)]
    rcases hpost with ⟨hshrink, -⟩ | ⟨-, ⟨hr, -, new, hlaid, hnew, hflags⟩ | ⟨hr, hc, hm, -⟩⟩
    · omega
    · have hlt : r % 2 ^ 32 = newsz := by
        unfold TRAPFRAME MAXVA at hle
        omega
      rw [hlt, if_neg (by omega)]
      refine ⟨0, { s.setProc p { s.proc p with sz := newsz } with phys := ph' }, rfl, ?_⟩
      rw [hset]
      refine ⟨hroot, Or.inl ⟨rfl, (if_neg (by omega)).symm, by rw [← hroot], es ++ new, hnew, hle,
        hlaid.chain, hlaid.added.moves, fun e he => (mem_append.mp he).imp_right (hflags e),
        fun c hbytes => ?_⟩⟩
      have hmin : min es.length (es ++ new).length = es.length :=
        Nat.min_eq_left (by rw [length_append]; omega)
      rw [hmin, take_left]
      exact hbytes.kept hlaid.moves ho fun e he => mem_map_of_mem he
    · rw [hr, if_pos (by decide)]
      exact ⟨-1, { s with phys := ph' }, rfl, hroot, Or.inr ⟨rfl, hpos, rfl, hc, hm.frame _⟩⟩

end Growproc

/-- `growproc` keeps the invariant. -/
theorem growproc_spec (h : Inv s G) (hp : (s.proc p).state ≠ .unused) (n : CInt) :
    ∃ r s' G', (growproc p n).run s = .ok (r, s') ∧ CallPost G s' G' := by
  obtain ⟨sp, hheld⟩ := h.settled.used p hp
  obtain ⟨-, hroot, hsp⟩ := h.sys.space hheld
  obtain ⟨r, s', hrun, -, ⟨-, -, hs', es', hlen, hle, hc, hm, hflags, -⟩ | ⟨-, -, hs', hc, hm⟩⟩ :=
    growproc_exact (h.sys.addressSpace hheld) hroot hsp.length hsp.le n
  · have huser : ∀ e ∈ es', UserFlags e.flags := fun e he => (hflags e he).elim (hsp.flags e) .inl
    have hpost := h.resize hheld hm ⟨⟨hc, hlen, hle⟩, huser⟩
    rw [← hs'] at hpost
    exact ⟨r, s', _, hrun, hpost⟩
  · have hinv := h.sys.onContents hheld hm hc
    rw [← hs'] at hinv
    have hproc := congrArg Os.proc hs'
    refine ⟨r, s', G, hrun, h.of_same hinv
      (fun i => ?_) (by rw [hs'])⟩
    rw [hproc]
    exact ⟨rfl, rfl⟩

/-- `sbrk` keeps the invariant. -/
theorem sys_sbrk_spec (h : Inv s G) (hp : (s.proc p).state ≠ .unused) (n : CInt) :
    ∃ r s' G', (sys_sbrk p n).run s = .ok (r, s') ∧ CallPost G s' G' := by
  obtain ⟨r, s', G', hrun, hinv⟩ := growproc_spec h hp n
  unfold sys_sbrk
  rw [run_bind_ok (StateT.run_get s)]
  dsimp only
  rw [run_bind_ok hrun]
  split
  · exact ⟨_, s', G', rfl, hinv⟩
  · exact ⟨_, s', G', rfl, hinv⟩

/-! ### `fork` -/

/-- The state of the loop in `dupFiles`: the child has the descriptors that were copied so far. -/
structure Duping (s : Os) (G : Ghost) (np : Slot) (rest : List (Fin NOFILE)) (t : Os) :
    Prop where
  inv : OsInv t G
  proc : ∃ o, t.proc = Function.update s.proc np { s.proc np with ofile := o } ∧
    ∀ fd ∈ rest, o fd = none
  count : ∀ g, (t.file g).ref = fdcount t.proc g

/-- `fork` gives the child the open files of its parent. -/
theorem dupFiles_spec (h : OsInv s G) (hne : p ≠ np)
    (hcount : ∀ g, (s.file g).ref = fdcount s.proc g) (hnone : ∀ fd, (s.proc np).ofile fd = none) :
    ∃ s', (dupFiles p np).run s = .ok ((), s') ∧ Duping s G np [] s' := by
  have hinit : Duping s G np (List.finRange NOFILE) s :=
    ⟨h, ⟨(s.proc np).ofile, by rw [update_eq_self], fun fd _ => hnone fd⟩, hcount⟩
  suffices hwp : wp (dupFiles p np) (fun _ t => Duping s G np [] t) (fun _ => False) s by
    obtain ⟨_, s', hrun, hdup⟩ := wp_returns hwp
    exact ⟨s', hrun, hdup⟩
  refine wp_forM hinit ?_
  rintro fd rest t ⟨done, hlist⟩ ht
  obtain ⟨hinv, ⟨o, hproc, ho⟩, hcnt⟩ := ht
  have hnodup : (fd :: rest).Nodup := by
    have := nodup_finRange NOFILE
    rw [hlist] at this
    exact (nodup_append.mp this).2.1
  have hp : t.proc p = s.proc p := by rw [hproc, update_of_ne hne]
  have hnp : (t.proc np).ofile = o := by rw [hproc, update_self]
  rw [wp_bind]
  refine wp_of_ok (StateT.run_get t) ?_
  cases hfd : (t.proc p).ofile fd with
  | none => exact ⟨hinv, ⟨o, hproc, fun i hi => ho i (mem_cons_of_mem _ hi)⟩, hcnt⟩
  | some f =>
    obtain ⟨t₁, hrun₁, hinv₁, hproc₁, href₁⟩ := filedup_spec hinv (hcnt f ▸ fdcount_pos hfd)
    dsimp only
    rw [wp_bind]
    refine wp_of_ok hrun₁ ?_
    have hfree : (t₁.proc np).ofile fd = none := by
      rw [hproc₁, hnp]
      exact ho fd mem_cons_self
    refine ⟨(fdStep_setFd hinv₁ np fd (some f)).inv, ⟨update o fd (some f), ?_, ?_⟩,
      fun g => ?_⟩
    · show setFd t₁.proc np fd (some f) = _
      unfold setFd
      rw [hproc₁, hproc, update_self, update_idem]
    · intro i hi
      have hif : i ≠ fd := by
        rintro rfl
        exact (nodup_cons.mp hnodup).1 hi
      rw [update_of_ne hif]
      exact ho i (mem_cons_of_mem _ hi)
    · show (t₁.file g).ref = fdcount (setFd t₁.proc np fd (some f)) g
      rw [fdcount_open hfree, href₁, hcnt, hproc₁]

/-- `uvmcopy` for a child that has an address space without pages. -/
theorem uvmcopy_sys (h : OsInv s G) (hne : p ≠ np) {new : Space} (hp : G.held p = .space sp)
    (hnp : G.held np = .space new) (hnil : new.es = []) :
    ∃ r ph', (uvmcopy (s.proc p).pagetable (s.proc np).pagetable (s.proc p).sz).run s.phys
        = .ok (r, ph') ∧
      ((r = 0 ∧ ∃ es', Moves ramPages s.phys (spacePages new.d new.es) ph' (spacePages new.d es') ∧
          UserSpace ph'.mem new.trapframe new.d es' (s.proc p).sz) ∨
        (r = -1 ∧ Moves ramPages s.phys (spacePages new.d new.es) ph' (spacePages new.d new.es) ∧
          Chain ph'.mem new.d (userMap (some (tfEntry new.trapframe)) new.es))) := by
  obtain ⟨-, hroot, hsp⟩ := h.space hp
  obtain ⟨-, hroot', hnew⟩ := h.space hnp
  have ho := h.two_owns hne hnp hp
  have hempty : spacePages new.d [] = new.d.list := append_nil _
  rw [hnil, hempty] at ho
  rw [hnil]
  have hc := hnew.chain
  rw [hnil] at hc
  obtain ⟨r, ph', hrun, hcase⟩ :=
    uvmcopy_spec hsp.chain (holds_bytesOf _ _) hc hsp.flags hsp.length hsp.le ho
  rw [hroot, hroot']
  refine ⟨r, ph', hrun, ?_⟩
  rcases hcase with ⟨rfl, es', hlaid, hflags⟩ | ⟨rfl, hc', hm, -⟩
  · have hadd := hlaid.added
    refine Or.inl ⟨rfl, es', hadd.moves, ⟨hadd.chain, ?_, hsp.le⟩, fun e he => ?_⟩
    · have hlen := congrArg List.length hflags
      rw [length_map, length_map] at hlen
      rw [hlen, hsp.length]
    · have hmem : e.flags ∈ sp.es.map Entry.flags := hflags ▸ mem_map_of_mem he
      obtain ⟨e', he', heq⟩ := mem_map.mp hmem
      exact heq ▸ hsp.flags e' he'
  · rw [hempty]
    exact Or.inr ⟨rfl, hm, hc'⟩

/-- A slot is taken into use, with an address space. -/
theorem Inv.of_child {t : Os} (h : Inv s G) (hinv : OsInv t (G.setHeld np (.space sp)))
    (hother : ∀ i, i ≠ np → t.proc i = s.proc i) (hnp : Active t np)
    (hcount : ∀ g, (t.file g).ref = fdcount t.proc g) :
    CallPost G t (G.setHeld np (.space sp)) := by
  refine ⟨⟨hinv, ⟨h.settled.args, fun i hi => ?_, fun i hi => ?_⟩,
    ⟨hcount, fun i hi fd => ?_⟩⟩, fun _ hpi => Or.inl hpi, rfl⟩
  · grind [h.settled.unused i, setHeld_held_ne, Active]
  · have := h.settled.used i
    grind [setHeld_held, setHeld_held_ne]
  · grind [h.files.closed i, Active]

/-- A write to a page of memory that is the trapframe of a slot. -/
theorem store64_outside {mem : Bytes} {pg off v : Nat} (hoff : off + 8 ≤ PGSIZE) {a : Nat}
    (ha : ¬ InPage ramPages pg a) : putLE mem (pg + off) 8 v a = mem a := by
  have hsize : ramPages.size = PGSIZE := rfl
  unfold InPage at ha
  rw [hsize] at ha
  exact putLE_apply_of_not_mem (by omega)

theorem store64_run (ph : Phys) (a v : Nat) :
    (store64 a v).run ph = .ok ((), ⟨putLE ph.mem a 8 v, ph.freelist⟩) := rfl

/-- `fork` keeps the invariant. -/
theorem fork_spec (h : Inv s G) (hp : Active s p) :
    ∃ r s' G', (fork p).run s = .ok (r, s') ∧ CallPost G s' G' := by
  obtain ⟨r, s₁, hrun₁, hfile₁, hcase⟩ := allocproc_spec h.sys h.settled.unused
  unfold fork
  rw [run_bind_ok hrun₁]
  rcases hcase with ⟨rfl, hinv₁, hproc₁, -⟩ |
    ⟨np, new, rfl, ⟨hunused, -⟩, hnil, hinv₁, hother₁, hst₁, hof₁⟩
  · exact ⟨-1, s₁, G, rfl, h.of_same hinv₁
      hproc₁ hfile₁⟩
  have hne : p ≠ np := by
    rintro rfl
    exact hp.1 hunused
  obtain ⟨sp, hheld⟩ := h.settled.used p hp.1
  have hheld₁ : (G.setHeld np (.space new)).held p = .space sp := by
    rw [setHeld_held_ne hne, hheld]
  have hnone : ∀ fd, (s.proc np).ofile fd = none := h.files.closed np (Or.inl hunused)
  obtain ⟨r, ph₂, hrun₂, hcase⟩ := uvmcopy_sys hinv₁ hne hheld₁ (setHeld_held _ _ _) hnil
  dsimp only
  rw [run_bind_ok (StateT.run_get s₁), run_bind_ok (onPhys_run hrun₂)]
  rcases hcase with ⟨rfl, es', hm₂, hsp₂⟩ | ⟨rfl, hm₂, hc₂⟩
  swap
  · -- out of memory: the child is freed again
    have hinv₂ := hinv₁.onContents (setHeld_held _ _ _) hm₂ hc₂
    obtain ⟨s₃, hrun₃, hinv₃, hfile₃, hproc₃⟩ := freeproc_spec hinv₂ np
    rw [setHeld_setHeld, ← h.settled.unused np hunused, setHeld_self] at hinv₃
    refine ⟨-1, s₃, G, ?_, h.of_same hinv₃
      (fun i => ?_) (hfile₃.trans hfile₁)⟩
    · rw [if_pos (by decide), run_bind_ok hrun₃]
      rfl
    · rw [hproc₃]
      by_cases hi : i = np
      · rw [hi, update_self]
        exact ⟨hunused.symm, hof₁⟩
      · rw [update_of_ne hi]
        show (s₁.proc i).state = _ ∧ (s₁.proc i).ofile = _
        rw [hother₁ i hi]
        exact ⟨rfl, rfl⟩
  · -- the child has its pages
    have hinv₃ := hinv₁.onSpace (p := np) (q := { s₁.proc np with sz := (s₁.proc p).sz })
      (setHeld_held _ _ _) hm₂ rfl rfl hsp₂
    rw [setHeld_setHeld] at hinv₃
    set G₃ := G.setHeld np (.space { new with es := es' }) with hG₃
    set s₃ : Os := { s₁.setProc np { s₁.proc np with sz := (s₁.proc p).sz } with
      phys := ph₂ } with hs₃
    have hheld₃ : G₃.held np = .space { new with es := es' } := setHeld_held _ _ _
    have hproc₃ : s₃.proc = update s₁.proc np { s₁.proc np with sz := (s₁.proc p).sz } :=
      rfl
    have htf : (s₁.proc np).trapframe = new.trapframe := (hinv₁.space (setHeld_held _ _ _)).1
    rw [if_neg (by decide), run_bind_ok (show (modifyProc np _ : OsM Unit).run _
      = .ok ((), s₃) from rfl)]
    -- the trapframe is copied, and `fork` returns 0 in the child
    set mem₄ := putBytes s₃.phys.mem (s₁.proc np).trapframe
      (getBytes s₃.phys.mem (s₁.proc p).trapframe TF_SIZE) with hmem₄
    have hlen : 0 + (getBytes s₃.phys.mem (s₁.proc p).trapframe TF_SIZE).length ≤ PGSIZE := by
      rw [getBytes, length_map, length_range]
      decide
    have hinv₄ : OsInv { s₃ with phys := ⟨mem₄, s₃.phys.freelist⟩ } G₃ := by
      refine hinv₃.onTrapframe hheld₃ fun a ha => ?_
      rw [hmem₄, htf]
      exact putBytes_outside hlen ha
    have hinv₅ : OsInv { s₃ with phys :=
        ⟨putLE mem₄ ((s₁.proc np).trapframe + TF_A0) 8 0, s₃.phys.freelist⟩ } G₃ := by
      refine hinv₄.onTrapframe hheld₃ fun a ha => ?_
      rw [htf]
      exact store64_outside (by decide) ha
    rw [run_bind_ok (onPhys_run (memmove_run _ _ _ _)),
      run_bind_ok (onPhys_run (store64_run _ _ _))]
    -- the files
    have hcount₅ : ∀ g, (s₃.file g).ref = fdcount s₃.proc g := by
      intro g
      show (s₁.file g).ref = _
      rw [hfile₁, h.files.count, hproc₃]
      refine (fdcount_congr (fun i => ?_) g).symm
      by_cases hi : i = np
      · rw [hi, update_self]
        exact hof₁
      · rw [update_of_ne hi, hother₁ i hi]
    have hnone₅ : ∀ fd, (s₃.proc np).ofile fd = none := by
      intro fd
      rw [hproc₃, update_self]
      show (s₁.proc np).ofile fd = none
      rw [hof₁, hnone]
    obtain ⟨s₆, hrun₆, hinv₆, ⟨o, hproc₆, -⟩, hcount₆⟩ := dupFiles_spec hinv₅ hne hcount₅ hnone₅
    rw [run_bind_ok hrun₆, run_bind_ok (StateT.run_get s₆)]
    have hfin : (do
        modifyProc np fun q => { q with parent := some p }
        modifyProc np fun q => { q with state := .runnable }
        return (s₆.proc np).pid.toInt : OsM Int).run s₆ = .ok ((s₆.proc np).pid.toInt,
          s₆.setProc np { s₆.proc np with parent := some p, state := .runnable }) := by
      show Except.ok (_, Os.setProc (Os.setProc s₆ np _) np _) = _
      unfold Os.setProc
      dsimp only
      rw [update_self, update_idem]
    refine ⟨_, _, G₃, hfin, ?_⟩
    have hproc₇ : ∀ i, i ≠ np → (s₆.setProc np { s₆.proc np with
        parent := some p, state := .runnable }).proc i = s.proc i := by
      intro i hi
      show update s₆.proc np _ i = _
      rw [update_of_ne hi, hproc₆, update_of_ne hi]
      show s₃.proc i = _
      rw [hproc₃, update_of_ne hi, hother₁ i hi]
    have hstate₇ : ((s₆.setProc np { s₆.proc np with
        parent := some p, state := .runnable }).proc np).state = .runnable := by
      show (update s₆.proc np _ np).state = _
      rw [update_self]
    refine h.of_child (hinv₆.setProc rfl rfl rfl) hproc₇ ⟨?_, ?_⟩ fun g => ?_
    · rw [hstate₇]
      decide
    · rw [hstate₇]
      decide
    · refine (hcount₆ g).trans (fdcount_congr (fun i => ?_) g).symm
      show (update s₆.proc np _ i).ofile = _
      by_cases hi : i = np
      · rw [hi, update_self]
      · rw [update_of_ne hi]

/-! ### `exit` -/

/-- The state of the loop in `closeFiles`. -/
structure Closing (s : Os) (G : Ghost) (p : Slot) (rest : List (Fin NOFILE)) (t : Os) :
    Prop where
  step : ∃ G', FdStep s G p t G'
  proc : ∃ o, t.proc = Function.update s.proc p { s.proc p with ofile := o } ∧
    ∀ fd, fd ∉ rest → o fd = none
  count : ∀ g, (t.file g).ref = fdcount t.proc g

/-- `exit` closes all open files. -/
theorem closeFiles_spec (h : Inv s G) (p : Slot) :
    ∃ s', (closeFiles p).run s = .ok ((), s') ∧ Closing s G p [] s' := by
  have hinit : Closing s G p (List.finRange NOFILE) s :=
    ⟨⟨G, FdStep.refl h.sys p⟩, ⟨(s.proc p).ofile, by rw [update_eq_self],
      fun fd hfd => absurd (mem_finRange fd) hfd⟩, h.files.count⟩
  suffices hwp : wp (closeFiles p) (fun _ t => Closing s G p [] t) (fun _ => False) s by
    obtain ⟨_, s', hrun, hclose⟩ := wp_returns hwp
    exact ⟨s', hrun, hclose⟩
  refine wp_forM hinit ?_
  rintro fd rest t - ⟨⟨G₁, hstep⟩, ⟨o, hproc, ho⟩, hcount⟩
  have hp : (t.proc p).ofile = o := by rw [hproc, update_self]
  have hrest : ∀ i, i ∉ rest → i ≠ fd → o i = none := fun i hi hne =>
    ho i fun hmem => (mem_cons.mp hmem).elim hne hi
  rw [wp_bind]
  refine wp_of_ok (StateT.run_get t) ?_
  cases hfd : (t.proc p).ofile fd with
  | none =>
    refine ⟨⟨G₁, hstep⟩, ⟨o, hproc, fun i hi => ?_⟩, hcount⟩
    by_cases hi' : i = fd
    · rw [hi', ← hp, hfd]
    · exact hrest i hi hi'
  | some f =>
    -- the file is closed before its descriptor is cleared
    obtain ⟨t₁, G₂, hrun₁, hstep₁, href₁⟩ :=
      fileclose_spec hstep.inv (f := f) (hcount f ▸ fdcount_pos hfd)
    have hstep₂ := fdStep_setFd hstep₁.inv p fd none
    dsimp only
    rw [wp_bind]
    refine wp_of_ok hrun₁ ?_
    refine ⟨⟨G₂, hstep.trans ((hstep₁.fdStep p).trans hstep₂)⟩,
      ⟨update o fd none, ?_, fun i hi => ?_⟩, fun g => ?_⟩
    · show setFd t₁.proc p fd none = _
      unfold setFd
      rw [hstep₁.proc, hproc, update_self, update_idem]
    · by_cases hi' : i = fd
      · rw [hi', update_self]
      · rw [update_of_ne hi']
        exact hrest i hi hi'
    · show (t₁.file g).ref = fdcount (setFd t₁.proc p fd none) g
      rw [hstep₁.proc]
      have hclose := fdcount_close hfd g
      have := hcount g
      have := href₁ g
      omega

/-- `exit` keeps the invariant. -/
theorem exit_spec (h : Inv s G) (hp : Active s p) (hne : p ≠ initproc) (status : CInt) :
    ∃ s' G', (exit p status).run s = .ok ((), s') ∧ CallPost G s' G' := by
  obtain ⟨s₁, hrun₁, ⟨G₁, hstep₁⟩, ⟨o, hproc₁, ho⟩, hcount₁⟩ := closeFiles_spec h p
  have hpost := h.post_fdStep hp hstep₁ hcount₁
  have h₁ := hpost.inv
  have hnone : ∀ fd, (s₁.proc p).ofile fd = none := by
    intro fd
    rw [hproc₁, update_self]
    exact ho fd (not_mem_nil)
  -- the children are handed to init
  set s₂ : Os := { s₁ with proc := fun i => if (s₁.proc i).parent = some p
    then { s₁.proc i with parent := some initproc } else s₁.proc i } with hs₂
  have hproc₂ : ∀ i, (s₂.proc i).state = (s₁.proc i).state ∧
      (s₂.proc i).ofile = (s₁.proc i).ofile ∧ (s₂.proc i).trapframe = (s₁.proc i).trapframe ∧
      (s₂.proc i).pagetable = (s₁.proc i).pagetable ∧ (s₂.proc i).sz = (s₁.proc i).sz := by
    intro i
    rw [hs₂]
    dsimp only
    split
    · exact ⟨rfl, rfl, rfl, rfl, rfl⟩
    · exact ⟨rfl, rfl, rfl, rfl, rfl⟩
  have hinv₂ : OsInv s₂ G₁ := h₁.sys.of_eq rfl rfl rfl fun i => (hproc₂ i).2.2
  have h₂ : Inv s₂ G₁ := (h₁.of_same hinv₂
    (fun i => ⟨(hproc₂ i).1, (hproc₂ i).2.1⟩) rfl).inv
  set q : UProc := { s₂.proc p with xstate := status, state := .zombie } with hq
  have hactive : (s₂.proc p).state ≠ .unused := by
    rw [(hproc₂ p).1, hstep₁.state]
    exact hp.1
  have hother : ∀ i, i ≠ p → (s₂.setProc p q).proc i = s₂.proc i :=
    fun i hi => update_of_ne hi _ _
  have hself : (s₂.setProc p q).proc p = q := update_self _ _ _
  refine ⟨s₂.setProc p q, G₁, ?_, ⟨h₂.sys.setProc rfl rfl rfl, ⟨h₂.settled.args, fun i hi => ?_,
    fun i hi => ?_⟩, ⟨fun g => ?_, fun i hi fd => ?_⟩⟩, hpost.pipes, hpost.aside⟩
  · unfold exit
    rw [if_neg hne, run_bind_ok hrun₁]
    rfl
  · grind [h₂.settled.unused i]
  · have := h₂.settled.used i
    grind
  · refine (h₂.files.count g).trans (fdcount_congr (fun i => ?_) g).symm
    by_cases hip : i = p
    · rw [hip, hself]
    · rw [hother i hip]
  · by_cases hip : i = p
    · rw [hip, hself]
      show (s₂.proc p).ofile fd = none
      rw [(hproc₂ p).2.1]
      exact hnone fd
    · rw [hother i hip] at hi ⊢
      exact h₂.files.closed i hi fd

/-! ### `wait` -/

/-- A zombie is freed. -/
theorem freeproc_zombie (h : Inv s G) (np : Slot) (hz : (s.proc np).state = .zombie) :
    ∃ s' G', (freeproc np).run s = .ok ((), s') ∧ CallPost G s' G' := by
  obtain ⟨s', hrun, hinv, hfile, hproc⟩ := freeproc_spec h.sys np
  have hself : s'.proc np = freed_proc (s.proc np) := by rw [hproc, update_self]
  have hother : ∀ i, i ≠ np → s'.proc i = s.proc i := fun i hi => by
    rw [hproc, update_of_ne hi]
  refine ⟨s', _, hrun, ⟨hinv, ⟨h.settled.args, fun i hi => ?_, fun i hi => ?_⟩,
    ⟨fun g => ?_, fun i hi fd => ?_⟩⟩, fun _ hpi => Or.inl hpi, rfl⟩
  · grind [h.settled.unused i, setHeld_held, setHeld_held_ne]
  · have := h.settled.used i
    grind [setHeld_held_ne, freed_proc]
  · rw [hfile, h.files.count]
    refine (fdcount_congr (fun i => ?_) g).symm
    by_cases hin : i = np
    · rw [hin, hself]
      rfl
    · rw [hother i hin]
  · by_cases hin : i = np
    · rw [hin, hself]
      exact h.files.closed np (Or.inr hz) fd
    · rw [hother i hin] at hi ⊢
      exact h.files.closed i hi fd

section

variable (h : Inv s G) (hp : (s.proc p).state ≠ .unused)
include h hp

/-- `copyout` keeps the invariant. -/
theorem Inv.copyout (dstva : Nat) (src : List UInt8) :
    ∃ r s', (onPhys (copyout (s.proc p).pagetable dstva src)).run s = .ok (r, s') ∧ Inv s' G ∧
      s'.proc = s.proc := by
  obtain ⟨sp, hheld⟩ := h.settled.used p hp
  obtain ⟨r, s', hrun, hstep, hfile⟩ := onPhys_copyout h.sys hheld dstva src
  exact ⟨r, s', hrun, (h.of_same hstep.inv
    (fun i => by rw [hstep.proc]; exact ⟨rfl, rfl⟩) hfile).inv, hstep.proc⟩

/-- The loop of `wait` keeps the invariant. -/
theorem waitScan_spec (addr : Nat) (slots : List Slot) :
    ∀ havekids, ∃ r s' G', (waitScan p addr slots havekids).run s = .ok (r, s') ∧
      CallPost G s' G' := by
  induction slots with
  | nil =>
    intro havekids
    rw [waitScan, run_bind_ok (StateT.run_get s)]
    split
    · exact ⟨_, s, G, rfl, h.post⟩
    · exact ⟨_, s, G, rfl, h.post⟩
  | cons np rest ih =>
    intro havekids
    rw [waitScan, run_bind_ok (StateT.run_get s)]
    by_cases hparent : (s.proc np).parent = some p
    swap
    · rw [if_neg hparent]
      exact ih havekids
    rw [if_pos hparent]
    by_cases hz : (s.proc np).state = .zombie
    swap
    · rw [if_neg hz]
      exact ih true
    rw [if_pos hz]
    -- after the status is copied out
    have hdone : ∀ (r : Int) (s₁ : Os), Inv s₁ G → s₁.proc = s.proc →
        ∃ r' s' G', (if r < 0 then pure (some (-1)) else do
          freeproc np
          pure (some (s.proc np).pid.toInt) : OsM (Option Int)).run s₁ = .ok (r', s') ∧
          CallPost G s' G' := by
      intro r s₁ h₁ hproc₁
      by_cases hneg : r < 0
      · rw [if_pos hneg]
        exact ⟨_, s₁, G, rfl, h₁.post⟩
      · obtain ⟨s₂, G₂, hrun₂, h₂⟩ := freeproc_zombie h₁ np (by rw [hproc₁]; exact hz)
        rw [if_neg hneg, run_bind_ok hrun₂]
        exact ⟨_, s₂, G₂, rfl, h₂⟩
    dsimp only
    by_cases haddr : addr ≠ 0
    · obtain ⟨r, s₁, hrun₁, h₁, hproc₁⟩ := h.copyout hp addr
        (leBytes 4 (s.proc np).xstate.toNat)
      rw [if_pos haddr, run_bind_ok hrun₁]
      exact hdone r s₁ h₁ hproc₁
    · rw [if_neg haddr]
      exact hdone 0 s h rfl

theorem wait_spec (addr : Nat) : ∃ r s' G', (wait p addr).run s = .ok (r, s') ∧ CallPost G s' G' :=
  waitScan_spec h hp addr _ _

end

end Procs

end Xv6.Proofs
