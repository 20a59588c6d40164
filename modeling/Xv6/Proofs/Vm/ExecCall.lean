import Xv6.Proofs.Vm.Image
import Xv6.Proofs.Vm.Procs

/-!
# `Xv6.Proofs.Vm.ExecCall`: `exec` in the running system

`exec` takes the pages of the new image next to those of the old one and then frees the old ones.
`sys_exec` keeps its arguments in pages of its own meanwhile; these are the `args` of `Ghost`.
The only panic is that of `execImage`.
-/

set_option autoImplicit false

namespace Xv6.Proofs

open Lib List
open Function (update_of_ne update_self)

variable {sp : Space}

section ExecCall

variable {s : Os} {G : Ghost} {p : Slot}

/-! ### `exec` -/

/-- The old image is freed next to a new one, after some writes to the trapframe. -/
theorem freeOld_spec {ph ph₁ : Phys} {d : Dirs} {es : List Entry} {osz sz : Nat} {mem : Bytes}
    (ho : Owns ramPages ph (Held.space sp).pages)
    (hold : UserSpace ph.mem sp.trapframe sp.d sp.es osz)
    (hm : Moves ramPages ph [] ph₁ (spacePages d es))
    (hnew : UserSpace ph₁.mem sp.trapframe d es sz)
    (hmem : ∀ a, ¬ InPage ramPages sp.trapframe a → mem a = ph₁.mem a) :
    ∃ ph', (proc_freepagetable sp.d.root osz).run ⟨mem, ph₁.freelist⟩ = .ok ((), ph') ∧
      Moves ramPages ph (Held.space sp).pages ph' (Held.space ⟨sp.trapframe, d, es⟩).pages ∧
      UserSpace ph'.mem sp.trapframe d es sz ∧
      ∀ pg ∈ sp.trapframe :: spacePages d es, ∀ a, InPage ramPages pg a → ph'.mem a = mem a := by
  set old := spacePages sp.d sp.es with hold'
  set new := spacePages d es with hnew'
  have htf : IsPage sp.trapframe := ho.own_valid mem_cons_self
  -- both images side by side, and the trapframe
  have hm₁ : Moves ramPages ph (sp.trapframe :: old) ph₁ (new ++ sp.trapframe :: old) := hm.frame _
  set ph₂ : Phys := ⟨mem, ph₁.freelist⟩ with hph₂
  have hm₂ : Moves ramPages ph₁ (new ++ sp.trapframe :: old) ph₂ (new ++ sp.trapframe :: old) :=
    Moves.write (by simp) hmem
  have hperm : (old ++ (sp.trapframe :: new)).Perm (new ++ sp.trapframe :: old) := by
    have hcomm : ((sp.trapframe :: old) ++ new).Perm (new ++ sp.trapframe :: old) :=
      perm_append_comm
    exact perm_middle.trans hcomm
  have hboth := (hm₁.trans hm₂).trans (Moves.of_perm hperm)
  have ho₂ : Owns ramPages ph₂ (old ++ (sp.trapframe :: new)) := ho.moves hboth
  have hout : ∀ pgs : List Nat, sp.trapframe ∉ pgs → ∀ pg ∈ pgs, IsPage pg → ∀ a,
      InPage ramPages pg a → mem a = ph₁.mem a := fun pgs hnot pg hpg hpage a ha =>
    hmem a fun hin => hnot ((inPage_unique (K := ramPages) htf hpage hin ha) ▸ hpg)
  have hnodup := (nodup_append.mp ho₂.nodup).2.1
  have hnotOld : sp.trapframe ∉ sp.d.list := fun hin =>
    (nodup_append.mp hnodup).2.2 _ (mem_append_left _ hin) _ mem_cons_self rfl
  have hnotNew : sp.trapframe ∉ d.list := fun hin =>
    (nodup_cons.mp (nodup_append.mp hnodup).2.1).1 (mem_append_left _ hin)
  have hc₁ : Chain ph₁.mem sp.d (userMap (some (tfEntry sp.trapframe)) sp.es) :=
    hold.chain.kept hm ho fun pg hpg => mem_cons_of_mem _ (mem_append_left _ hpg)
  have hc₂ : Chain ph₂.mem sp.d (userMap (some (tfEntry sp.trapframe)) sp.es) :=
    hc₁.congr fun pg hpg => hout _ hnotOld pg hpg (hc₁.pages pg hpg)
  have hn₂ : Chain ph₂.mem d (userMap (some (tfEntry sp.trapframe)) es) :=
    hnew.chain.congr fun pg hpg => hout _ hnotNew pg hpg (hnew.chain.pages pg hpg)
  obtain ⟨ph', hrun, hm₃⟩ := proc_freepagetable_spec hc₂ hold.length hold.le ho₂.of_append
  refine ⟨ph', hrun, hboth.trans (hm₃.frame _), { hnew with chain := ?_ },
    fun pg hpg a ha => hm₃.kept ho₂ hpg ha⟩
  exact hn₂.kept hm₃ ho₂ fun pg hpg =>
    mem_cons_of_mem _ (mem_append_left _ hpg)

/-- Memory after `exec` has written the trapframe. -/
def execTrapframe (mem : Bytes) (trapframe : Nat) (im : Image) : Bytes :=
  putLE (putLE (putLE mem (trapframe + TF_A1) 8 im.sp) (trapframe + TF_ERA) 8 im.entry)
    (trapframe + TF_SP) 8 im.sp

theorem execTrapframe_outside {mem : Bytes} {trapframe : Nat} (im : Image) {a : Nat}
    (ha : ¬ InPage ramPages trapframe a) : execTrapframe mem trapframe im a = mem a := by
  unfold execTrapframe
  rw [store64_outside (by decide) ha, store64_outside (by decide) ha,
    store64_outside (by decide) ha]

/-- The process takes over a complete image. -/
theorem install_run {ph₁ ph' : Phys} (im : Image)
    (hfree : (proc_freepagetable (s.proc p).pagetable (s.proc p).sz).run
      ⟨execTrapframe ph₁.mem (s.proc p).trapframe im, ph₁.freelist⟩ = .ok ((), ph')) :
    (do
      onPhys (store64 ((s.proc p).trapframe + TF_A1) im.sp)
      modifyProc p fun q => { q with pagetable := im.pagetable, sz := im.sz }
      onPhys (store64 ((s.proc p).trapframe + TF_ERA) im.entry)
      onPhys (store64 ((s.proc p).trapframe + TF_SP) im.sp)
      onPhys (proc_freepagetable (s.proc p).pagetable (s.proc p).sz)
      return im.argc : OsM Int).run { s with phys := ph₁ }
    = .ok (im.argc, { s.setProc p { s.proc p with pagetable := im.pagetable, sz := im.sz } with
        phys := ph' }) := by
  rw [run_bind_ok (onPhys_run (store64_run _ _ _)), run_bind_ok (show
      (modifyProc p _ : OsM Unit).run _ = .ok ((), _) from rfl),
    run_bind_ok (onPhys_run (store64_run _ _ _)),
    run_bind_ok (onPhys_run (store64_run _ _ _)), run_bind_ok (onPhys_run hfree)]
  rfl

/-- The words that `exec` writes. -/
theorem execTrapframe_words (mem : Bytes) (trapframe : Nat) {im : Image} (hsp : im.sp < 2 ^ 64)
    (hentry : im.entry < 2 ^ 64) :
    getLE (execTrapframe mem trapframe im) (trapframe + TF_SP) 8 = im.sp ∧
    getLE (execTrapframe mem trapframe im) (trapframe + TF_A1) 8 = im.sp ∧
    getLE (execTrapframe mem trapframe im) (trapframe + TF_ERA) 8 = im.entry := by
  have hpow : 256 ^ 8 = 2 ^ 64 := by decide
  have hoffs : TF_SP = 16 ∧ TF_A1 = 32 ∧ TF_ERA = 264 := ⟨rfl, rfl, rfl⟩
  unfold execTrapframe
  refine ⟨?_, ?_, ?_⟩
  · rw [getLE_putLE_self, hpow, Nat.mod_eq_of_lt hsp]
  · rw [getLE_putLE_of_disjoint (by omega), getLE_putLE_of_disjoint (by omega), getLE_putLE_self,
      hpow, Nat.mod_eq_of_lt hsp]
  · rw [getLE_putLE_of_disjoint (by omega), getLE_putLE_self, hpow, Nat.mod_eq_of_lt hentry]

/-- The process `p` has started the program. -/
structure Started (s : Os) (p : Slot) (file : List UInt8) (argv : List (List UInt8)) (r : Int)
    (s' : Os) (im : Image) (d : Dirs) (es : List Entry) (addrs : List Nat) (c : Bytes) : Prop where
  ret : r = argv.length
  proc : s'.proc p = { s.proc p with pagetable := d.root, sz := im.sz }
  image : NewImage argv im s'.phys.mem es addrs c
  file : Describes file im c
  space : AddressSpace s'.phys d (tfEntry (s.proc p).trapframe) es []
  regs : getLE s'.phys.mem ((s.proc p).trapframe + TF_SP) 8 = im.sp ∧
    getLE s'.phys.mem ((s.proc p).trapframe + TF_A1) 8 = im.sp ∧
    getLE s'.phys.mem ((s.proc p).trapframe + TF_ERA) 8 = im.entry

theorem NewImage.sp_le {argv : List (List UInt8)} {im : Image} {mem : Bytes} {es : List Entry}
    {addrs : List Nat} {c : Bytes} (h : NewImage argv im mem es addrs c) : im.sp ≤ im.sz := by
  obtain ⟨base, -, hfits⟩ := h.fits
  have hlast := hfits.getLastD_le
  rw [h.slots] at hlast
  simpa using hlast

/-- `exec` leaves the process as it was, or starts the image that was built. -/
theorem exec_exact (h : OsInv s G) (hp : G.held p = .space sp) (file : List UInt8)
    (argv : List (List UInt8)) :
    wp (exec p (some file) argv)
      (fun r s' => (r = -1 ∧ ∃ ph, (execImage sp.trapframe file argv).run s.phys = .ok (none, ph) ∧
          s' = { s with phys := ph }) ∨
        ∃ im d es addrs c, Started s p file argv r s' im d es addrs c ∧
          im.pagetable = d.root ∧
          (∃ ph, (execImage sp.trapframe file argv).run s.phys = .ok (some im, ph)) ∧
          OsInv s' (G.setHeld p (.space ⟨sp.trapframe, d, es⟩)) ∧ s'.file = s.file ∧
          ∀ i ≠ p, s'.proc i = s.proc i)
      (fun e => (execImage sp.trapframe file argv).run s.phys = .error e) s := by
  obtain ⟨htf, hroot, hsp⟩ := h.space hp
  have ho := h.slot_owns p
  rw [hp] at ho
  unfold exec
  dsimp only
  rw [wp_bind]
  refine wp_of_ok (StateT.run_get s) ?_
  rw [wp_bind, wp_onPhys, htf]
  cases hbuild : (execImage sp.trapframe file argv).run s.phys with
  | error e => exact wp_of_error hbuild rfl
  | ok res =>
  obtain ⟨r, ph₁⟩ := res
  refine wp_of_ok hbuild ?_
  obtain ⟨⟨rfl, -⟩ | ⟨im, d, es, addrs, c, rfl, him, himage, hfile, hnew, hm₁⟩, -⟩ :=
    wp_ok (execImage_spec file argv ho) hbuild
  · exact Or.inl ⟨rfl, ph₁, rfl, rfl⟩
  obtain ⟨ph', hfree, hm, hsp', hkept⟩ :=
    freeOld_spec ho hsp hm₁ hnew fun a ha => execTrapframe_outside im ha
  have ho' : Owns ramPages ph' (sp.trapframe :: spacePages d es) := ho.moves hm
  set s' : Os := { s.setProc p { s.proc p with pagetable := im.pagetable, sz := im.sz } with
    phys := ph' } with hs'
  have hinv : OsInv s' (G.setHeld p (.space ⟨sp.trapframe, d, es⟩)) :=
    h.slot (by rw [hp]; exact hm) ⟨htf, him, hsp'⟩
  rw [← htf, ← hroot] at hfree
  rw [← htf]
  refine wp_of_ok (install_run im hfree) (Or.inr ⟨im, d, es, addrs, c,
    ⟨?_, ?_, ?_, hfile, ?_, ?_⟩, him, ⟨ph₁, rfl⟩, by rwa [htf], rfl,
    fun i hi => update_of_ne hi _ _⟩)
  · rw [himage.argc]
  · rw [← him]
    exact update_self _ _ _
  · -- the pages of the image, which are neither the trapframe nor freed
    refine { himage with holds := himage.holds.congr fun e he a ha => ?_ }
    have hmem : e.page ∈ spacePages d es := mem_append_right _ (mem_map_of_mem he)
    rw [hkept _ (mem_cons_of_mem _ hmem) a ha]
    refine execTrapframe_outside im fun hin => ?_
    obtain ⟨hnot, -⟩ := nodup_cons.mp (nodup_append.mp ho'.nodup).2.1
    rw [inPage_unique (K := ramPages) (ho'.own_valid mem_cons_self)
      (ho'.own_valid (mem_cons_of_mem _ hmem)) hin ha] at hnot
    exact hnot hmem
  · rw [htf]
    refine ⟨hsp'.chain, show PTE_TRAPFRAME &&& PTE_PLV = 0 by decide, ?_, ?_⟩
    · rw [hsp'.length]
      exact npages_le hsp'.le
    · rw [append_nil]
      exact ho'
  · have hentry : im.entry < 2 ^ 64 := by
      rw [hfile.1]
      exact field_lt _ 24 8
    have hle := hnew.le
    have hspsz := himage.sp_le
    unfold TRAPFRAME MAXVA at hle
    have hsame : ∀ off, off + 8 ≤ PGSIZE → getLE ph'.mem (sp.trapframe + off) 8
        = getLE (execTrapframe ph₁.mem sp.trapframe im) (sp.trapframe + off) 8 := by
      intro off hoff
      refine getLE_congr fun a hlo hhi => hkept _ mem_cons_self a ⟨by omega, ?_⟩
      show a < sp.trapframe + PGSIZE
      omega
    rw [htf]
    show getLE ph'.mem _ 8 = _ ∧ getLE ph'.mem _ 8 = _ ∧ getLE ph'.mem _ 8 = _
    rw [hsame _ (by decide), hsame _ (by decide), hsame _ (by decide)]
    exact execTrapframe_words _ _ (by omega) hentry

/-- The condition under which `exec` panics. -/
def ExecPanics (ph : Phys) (file : Option (List UInt8)) : Prop :=
  ∃ f, file = some f ∧ EXEC_PAGES ≤ ph.freelist.length ∧ fileRunsOver f = true

/-- `exec` returned -1 and the process has its old image, or it has the new image. -/
def ExecResult (s : Os) (p : Slot) (file : Option (List UInt8)) (argv : List (List UInt8))
    (r : Int) (s' : Os) : Prop :=
  (r = -1 ∧ s'.proc p = s.proc p) ∨
  (r = argv.length ∧ ∃ f im ph, file = some f ∧
    (execImage (s.proc p).trapframe f argv).run s.phys = .ok (some im, ph) ∧
    s'.proc p = { s.proc p with pagetable := im.pagetable, sz := im.sz })

/-- How `exec` returns. -/
structure ExecPost (s : Os) (G : Ghost) (p : Slot) (file : Option (List UInt8))
    (argv : List (List UInt8)) (r : Int) (s' : Os) (sp' : Space) : Prop where
  inv : OsInv s' (G.setHeld p (.space sp'))
  files : s'.file = s.file
  other : ∀ i, i ≠ p → s'.proc i = s.proc i
  self : (s'.proc p).toProc = (s.proc p).toProc ∧ (s'.proc p).ofile = (s.proc p).ofile
  result : ExecResult s p file argv r s'

/-- `exec` keeps the invariant, unless it panics. -/
theorem exec_spec (h : OsInv s G) (hp : G.held p = .space sp) (file : Option (List UInt8))
    (argv : List (List UInt8)) :
    wp (exec p file argv)
      (fun r s' => (∃ sp', ExecPost s G p file argv r s' sp') ∧ ¬ ExecPanics s.phys file)
      (fun e => e = .remap ∧ ExecPanics s.phys file) s := by
  have hself : OsInv s (G.setHeld p (.space sp)) := by
    rw [← hp, setHeld_self]
    exact h
  cases file with
  | none =>
    exact ⟨⟨sp, hself, rfl, fun _ _ => rfl, ⟨rfl, rfl⟩, Or.inl ⟨rfl, rfl⟩⟩, nofun⟩
  | some file =>
    have ho := h.slot_owns p
    rw [hp] at ho
    have himage := execImage_spec file argv ho
    have hcalm : ∀ {P : Prop},
        (EXEC_PAGES ≤ s.phys.freelist.length → fileRunsOver file = false ∧ P) →
        ¬ ExecPanics s.phys (some file) := by
      rintro P hcalm ⟨f, hf, hmany, hover⟩
      obtain rfl : file = f := Option.some.inj hf
      rw [(hcalm hmany).1] at hover
      exact absurd hover (by decide)
    refine wp_mono (exec_exact h hp file argv) ?_ fun e herror => ?_
    · rintro r s' (⟨rfl, ph, hnone, rfl⟩ |
        ⟨im, d, es, addrs, c, hstart, him, ⟨ph, hsome⟩, hinv, hrest⟩)
      · obtain ⟨⟨-, hm⟩ | ⟨im, d, es, addrs, c, hsome, -⟩, hno⟩ := wp_ok himage hnone
        · exact ⟨⟨sp, hself.onFree hm, rfl, fun _ _ => rfl, ⟨rfl, rfl⟩, Or.inl ⟨rfl, rfl⟩⟩,
            hcalm hno⟩
        · cases hsome
      · refine ⟨⟨_, hinv, hrest.1, hrest.2, ?_, Or.inr ⟨hstart.ret, file, im, ph, rfl, ?_, ?_⟩⟩,
          hcalm (wp_ok himage hsome).2⟩
        · rw [hstart.proc]
          exact ⟨rfl, rfl⟩
        · rw [(h.space hp).1]
          exact hsome
        · rw [hstart.proc, him]
    · obtain ⟨he, hmany, hover, -⟩ := wp_error himage herror
      exact ⟨he, file, rfl, hmany, hover⟩

/-! ### The arguments -/

/-- A step that only concerns the pages of the arguments. -/
structure ArgStep (s : Os) (G : Ghost) (pages : List Nat) (s' : Os) : Prop where
  inv : OsInv s' { G with args := pages }
  proc : s'.proc = s.proc
  file : s'.file = s.file

/-- `fetchaddr` changes nothing. -/
theorem fetchaddr_run (h : OsInv s G) (hp : G.held p = .space sp) (addr : Nat) :
    ∃ r, (fetchaddr p addr).run s = .ok (r, s) := by
  unfold fetchaddr
  rw [run_bind_ok (StateT.run_get s)]
  dsimp only
  split
  · exact ⟨none, rfl⟩
  · obtain ⟨bs, r, hrun, -⟩ := copyinLoop_exact (h.addressSpace hp) 8 addr 8 le_rfl
    rw [(h.space hp).2.1, copyin, run_bind_ok (onPhys_run hrun)]
    dsimp only
    split <;> exact ⟨_, rfl⟩

/-- `fetchstr` changes nothing, and returns at most `max` bytes. -/
theorem fetchstr_run (h : OsInv s G) (hp : G.held p = .space sp) (addr max : Nat) :
    ∃ bs len, (fetchstr p addr max).run s = .ok ((bs, len), s) ∧ bs.length ≤ max := by
  have hrun := copyinstr_scan (h.addressSpace hp) addr max
  unfold fetchstr
  rw [run_bind_ok (StateT.run_get s)]
  dsimp only
  rw [(h.space hp).2.1, run_bind_ok (onPhys_run hrun)]
  split <;> exact ⟨_, _, rfl, scanStr_length max addr⟩

/-- The loop of `sys_exec` takes a page for each argument. -/
theorem fetchArgs_spec (uargv rounds : Nat) :
    ∀ {s : Os} {G : Ghost} (pages : List Nat) (argv : List (List UInt8)),
      OsInv s { G with args := pages } → G.held p = .space sp →
      ∃ pages' r s', (fetchArgs p uargv rounds pages argv).run s = .ok ((pages', r), s') ∧
        ArgStep s G pages' s' := by
  induction rounds with
  | zero => exact fun pages _ h _ => ⟨pages, none, _, rfl, h, rfl, rfl⟩
  | succ rounds ih =>
    intro s G pages argv h hp
    obtain ⟨r, hrun⟩ := fetchaddr_run h hp ((uargv + 8 * argv.length) % 2 ^ 64)
    rw [fetchArgs, run_bind_ok hrun]
    cases r with
    | none => exact ⟨pages, none, s, rfl, h, rfl, rfl⟩
    | some uarg =>
      by_cases hz : uarg = 0
      · dsimp only
        rw [if_pos hz]
        exact ⟨pages, some argv, s, rfl, h, rfl, rfl⟩
      dsimp only
      rw [if_neg hz]
      cases hfree : s.phys.freelist with
      | nil =>
        rw [run_bind_ok (onPhys_run (kalloc_none hfree))]
        exact ⟨pages, none, s, rfl, h, rfl, rfl⟩
      | cons page free =>
        rw [run_bind_ok (onPhys_run (kalloc_some hfree))]
        -- the page is one more page of the arguments
        have hm : Moves ramPages s.phys pages ⟨fill s.phys.mem page 5 PGSIZE, free⟩
            (pages ++ [page]) :=
          (moves_kalloc hfree pages).trans (Moves.of_perm (perm_append_singleton _ _))
        have h₁ := h.onArgs hm
        obtain ⟨bs, len, hstr, hlen⟩ := fetchstr_run h₁ hp uarg PGSIZE
        have hout : ∀ a, ¬ InPage ramPages page a →
            putBytes (fill s.phys.mem page 5 PGSIZE) (page + 0) bs a
              = fill s.phys.mem page 5 PGSIZE a :=
          fun a ha => putBytes_outside (by omega) ha
        have h₂ := h₁.onArgs (Moves.write (mem_append_right _ mem_cons_self) hout)
        dsimp only
        rw [run_bind_ok hstr]
        dsimp only
        rw [run_bind_ok (onPhys_run (store_run _ _ _))]
        by_cases hneg : len < 0
        · rw [if_pos hneg]
          exact ⟨_, none, _, rfl, h₂, rfl, rfl⟩
        · rw [if_neg hneg]
          obtain ⟨pages', r, s', hrun', hinv, hproc, hfile⟩ :=
            ih (pages ++ [page]) (argv ++ [bs.dropLast]) h₂ hp
          exact ⟨pages', r, s', hrun', hinv, hproc, hfile⟩

/-- The pages of the arguments are freed. -/
theorem freeArgs_spec (pages : List Nat) :
    ∀ {s : Os} {G : Ghost}, OsInv s { G with args := pages } →
      ∃ s', (pages.forM fun page => onPhys (kfree page) : OsM Unit).run s = .ok ((), s') ∧
        ArgStep s G [] s' := by
  induction pages with
  | nil => exact fun h => ⟨_, rfl, h, rfl, rfl⟩
  | cons page pages ih =>
    intro s G h
    have hpage : IsPage page := mem_allPages.mp (h.pages.subset (by
      simp [Ghost.pages, Ghost.kernel]))
    have hm : Moves ramPages s.phys (page :: pages) _ pages := moves_kfree
    have h₁ := h.onArgs hm
    obtain ⟨s', hrun, hinv, hproc, hfile⟩ := ih h₁
    refine ⟨s', ?_, hinv, hproc, hfile⟩
    show (onPhys (kfree page) >>= fun _ => pages.forM fun page => onPhys (kfree page)).run s = _
    rw [run_bind_ok (onPhys_run (kfree_run hpage)), hrun]

/-- `exec` in a state in which all slots are settled. -/
theorem ExecPost.inv_of {t s' : Os} {sp' : Space} {pages : List Nat} {file : Option (List UInt8)}
    {argv : List (List UInt8)} {r : Int} (h : Inv s G) (hp : G.held p = .space sp)
    (ht : ArgStep s G pages t) (hpost : ExecPost t { G with args := pages } p file argv r s' sp')
    {s'' : Os} (hlast : ArgStep s' (G.setHeld p (.space sp')) [] s'') :
    CallPost G s'' (G.setHeld p (.space sp')) := by
  have hinv : OsInv s'' (G.setHeld p (.space sp')) := by
    have := hlast.inv
    rwa [← h.settled.args] at this
  refine h.of_space hp hinv (fun i => ?_) ?_
  · rw [hlast.proc]
    by_cases hip : i = p
    · obtain ⟨hproc, hofile⟩ := hpost.self
      rw [hip, hofile, hproc, ht.proc]
      exact ⟨rfl, rfl⟩
    · rw [hpost.other i hip, ht.proc]
      exact ⟨rfl, rfl⟩
  · rw [hlast.file, hpost.files, ht.file]

/-- `sys_exec` keeps the invariant, unless `exec` panics. -/
theorem sys_exec_spec (h : Inv s G) (hp : Active s p) (upath uargv : Nat)
    (fs : List UInt8 → Option (List UInt8)) :
    wp (sys_exec p upath uargv fs) (fun _ s' => ∃ G', CallPost G s' G') (fun e => e = .remap)
      s := by
  obtain ⟨sp, hheld⟩ := h.settled.used p hp.1
  obtain ⟨path, len, hpath, -⟩ := fetchstr_run h.sys hheld upath MAXPATH
  unfold sys_exec
  rw [wp_bind]
  refine wp_of_ok hpath ?_
  by_cases hneg : len < 0
  · dsimp only
    rw [if_pos hneg]
    exact ⟨G, h.post⟩
  · dsimp only
    rw [if_neg hneg]
    have hargs : OsInv s { G with args := [] } := by
      have := h.sys
      rwa [← h.settled.args]
    obtain ⟨pages, argv, s₁, hrun₁, hstep₁⟩ := fetchArgs_spec uargv MAXARG [] [] hargs hheld
    rw [wp_bind]
    refine wp_of_ok hrun₁ ?_
    dsimp only
    cases argv with
    | none =>
      obtain ⟨s₂, hrun₂, hinv₂, hproc₂, hfile₂⟩ := freeArgs_spec pages hstep₁.inv
      rw [← h.settled.args] at hinv₂
      dsimp only
      rw [wp_bind, wp_pure, wp_bind]
      refine wp_of_ok hrun₂ ⟨G, h.of_same hinv₂
        (fun i => ?_) (hfile₂.trans hstep₁.file)⟩
      rw [hproc₂, hstep₁.proc]
      exact ⟨rfl, rfl⟩
    | some argv =>
      dsimp only
      rw [wp_bind]
      refine wp_mono (exec_spec hstep₁.inv hheld (fs path.dropLast) argv) ?_ fun _ he => he.1
      rintro r s₂ ⟨⟨sp', hpost⟩, -⟩
      obtain ⟨s₃, hrun₃, hstep₃⟩ :=
        freeArgs_spec (G := G.setHeld p (.space sp')) pages hpost.inv
      rw [wp_bind]
      exact wp_of_ok hrun₃ ⟨_, hpost.inv_of h hheld hstep₁ hstep₃⟩

end ExecCall

end Xv6.Proofs
