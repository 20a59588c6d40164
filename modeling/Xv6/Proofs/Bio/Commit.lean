import Xv6.Proofs.Bio.Steps

/-!
# `Xv6.Proofs.Bio.Commit`: the statements of `commit`

`write_log` copies an entry to the log area (`core_bwrite_log`, `core_copied`),
`install_trans` copies it home and unpins it (`core_bwrite_home`, `core_bunpin`), and
`log.lh.n = 0` empties the list (`core_clear`). Each of them moves one of the three counts of
`Core` by one entry. `commitStep_inv` puts them together: a statement of `commit` keeps the
invariant of the whole system.
-/

set_option autoImplicit false

namespace Xv6.Proofs

open Function (update update_of_ne update_self)
open List

variable {b c k m : Nat} {data : Block} {pc : CommitPc} {s s' : Sys}

/-! ### Writing to the disk -/

/-- `bwrite` changes the contents only. -/
theorem core_bwrite {c' k' : Nat} {disk : Disk} (h : Core s c k m) (i : Fin NBUF) (hmk : m ≤ k')
    (hkc : k' ≤ c') (hcontents : Contents { s with
      bc := s.bc.set i { s.bc.buf i with data := data }, disk := disk } c' k') :
    Core { s with bc := s.bc.set i { s.bc.buf i with data := data }, disk := disk } c' k' m := by
  have hk : SameKeys s.bc (s.bc.set i { s.bc.buf i with data := data }) := sameKeys_set rfl rfl
  have hvalid := set_field Buf.valid s.bc i { s.bc.buf i with data := data } rfl
  refine ⟨?_, ?_, ?_, hcontents, h.nodup, h.outside, hmk, hkc⟩
  · exact h.keys.congr hk fun v hv => ⟨v, hv, rfl⟩
  · exact h.refs.congr hk (set_field Buf.refcnt _ _ _ rfl) (fun j => (hvalid j).trans)
      fun _ => rfl
  · exact h.locks.congr (set_field Buf.lock _ _ _ rfl) (fun j => (hvalid j).trans)
      (fun _ => rfl) fun v hv => ⟨v, hv, rfl, rfl, rfl, rfl⟩

/-- `bwrite` of a log block that holds no copy yet. -/
theorem core_bwrite_log (h : Core s c k m) {i : Fin NBUF} (hdev : (s.bc.buf i).dev = s.log.dev)
    (harea : s.log.InArea (s.bc.buf i).blockno)
    (hnew : ∀ t < c, t < s.log.lh.n.toNat → s.log.start + t + 1 ≠ (s.bc.buf i).blockno)
    (data : Block) :
    Core { s with
      bc := s.bc.set i { s.bc.buf i with data := data }
      disk := update s.disk (s.bc.buf i).blockno data } c k m := by
  refine core_bwrite h i h.unpinned_le h.installed_le ⟨?_, ?_, ?_, ?_, ?_⟩
  · have := h.contents.clean
    grind [set_buf]
  · have := h.contents.logClean
    have := fun j hj => h.keys.uniq j i hj hdev
    grind [set_buf]
  · have := h.contents.home
    grind
  · have := h.contents.logged
    grind [set_buf]
  · have := h.contents.copies
    grind

/-- `write_log` has written the entry `c`: its holder is the committing process, so no one
can change it any more. -/
theorem core_copied (h : Core s c k m) {p : Nat} {j : Fin NBUF} (hc : c < s.log.lh.n.toNat)
    (hu : ⟨p, j, .held false false⟩ ∈ s.uses) (hblock : (s.bc.buf j).blockno = s.log.lh.block c)
    (hcopy : s.disk (s.log.start + c + 1) = s.abs (s.log.lh.block c)) : Core s (c + 1) k m := by
  refine { h with
    contents := { h.contents with logged := ?_, copies := ?_ }
    installed_le := Nat.le_succ_of_le h.installed_le }
  · intro u hu' d hd
    have hmem := h.contents.logged u hu' d hd
    rw [drop_lhList hc] at hmem
    refine (mem_cons.mp hmem).resolve_left fun heq => ?_
    -- a logged holder of entry `c` would be a second holder of its buffer
    have hbuf : u.buf = j := h.keys.uniq _ _ (h.keys.useDev u hu') (h.keys.useDev _ hu)
      (heq.trans hblock.symm)
    have := h.locks.unique hu' hu hbuf (by rw [hd]; rfl) rfl
    rw [this] at hd
    cases hd
  · intro t htc htn
    by_cases ht : t = c
    · rw [ht]
      exact hcopy
    · exact h.contents.copies t (by omega) htn

/-- `install_trans` writes the entry `k` home. -/
theorem core_bwrite_home (h : Core s c k m) {i : Fin NBUF}
    (hroom : ∀ t < s.log.lh.n.toNat, s.log.InArea (s.log.start + t + 1)) (hkc : k < c)
    (hkn : k < s.log.lh.n.toNat) (hdev : (s.bc.buf i).dev = s.log.dev)
    (hblock : (s.bc.buf i).blockno = s.log.lh.block k) (hdata : data = s.abs (s.log.lh.block k)) :
    Core { s with
      bc := s.bc.set i { s.bc.buf i with data := data }
      disk := update s.disk (s.bc.buf i).blockno data } c (k + 1) m := by
  have hout : ¬ s.log.InArea (s.bc.buf i).blockno :=
    h.outside _ (mem_lhList.mpr ⟨k, hkn, hblock.symm⟩)
  refine core_bwrite h i (Nat.le_succ_of_le h.unpinned_le) hkc ⟨?_, ?_, ?_, ?_, ?_⟩
  · have := h.contents.clean
    grind [set_buf]
  · have := h.contents.logClean
    have := fun j hj => h.keys.uniq j i hj hdev
    grind [set_buf]
  · have := h.contents.home
    rw [drop_lhList hkn] at this
    grind
  · have := h.contents.logged
    grind [set_buf]
  · have := h.contents.copies
    grind

/-- `bunpin` of the entry `m`, which is installed. -/
theorem core_bunpin (h : Core s c k m) {i : Fin NBUF} (hmk : m < k) (hmn : m < s.log.lh.n.toNat)
    (hdev : (s.bc.buf i).dev = s.log.dev) (hblock : (s.bc.buf i).blockno = s.log.lh.block m) :
    Core { s with bc := s.bc.bunpin i } c k (m + 1) := by
  have hk : SameKeys s.bc (s.bc.bunpin i) := sameKeys_set rfl rfl
  have hvalid : ∀ j, ((s.bc.bunpin i).buf j).valid = (s.bc.buf j).valid :=
    set_field Buf.valid s.bc i _ rfl
  have hlast : s.log.lh.block m ∉ (lhList s.log).drop (m + 1) :=
    block_not_mem_drop h.nodup (Nat.lt_succ_self m) hmn
  refine { h with keys := ?_, refs := ?_, locks := ?_, contents := ?_, unpinned_le := hmk }
  · exact h.keys.congr hk fun v hv => ⟨v, hv, rfl⟩
  · refine ⟨?_, ?_⟩
    · intro j
      have hrc := h.refs.refcnt j
      have huniq := h.keys.uniq j i
      rw [drop_lhList hmn] at hrc
      grind [BCache.bunpin, set_buf, pins]
    · intro b hb
      obtain ⟨j, hd, hn, hv⟩ := h.refs.pinValid b (mem_drop_of_le (Nat.le_succ m) hb)
      exact ⟨j, (hk.dev j).trans hd, (hk.blockno j).trans hn, (hvalid j).trans hv⟩
  · exact h.locks.congr (set_field Buf.lock s.bc i _ rfl) (fun j => (hvalid j).trans)
      (fun _ => rfl) fun v hv => ⟨v, hv, rfl, rfl, rfl, rfl⟩
  · exact h.contents.congr hk rfl rfl rfl (set_field Buf.data s.bc i _ rfl) hvalid
      (fun _ hv _ => hv) fun _ hv _ _ => hv

/-- `log.lh.n = 0` after everything is installed and unpinned. -/
theorem core_clear {n : Nat} (h : Core s n n n) (hn : s.log.lh.n.toNat ≤ n) :
    Core { s with log := s.log.setN 0 } 0 0 0 := by
  have hdone : (lhList s.log).drop n = [] :=
    drop_eq_nil_of_le (by rw [length_lhList]; exact hn)
  have hrefs := h.refs
  rw [hdone] at hrefs
  refine ⟨h.keys, hrefs, h.locks, ?_, ?_, ?_, Nat.le_refl 0, Nat.le_refl 0⟩
  · refine { h.contents with home := ?_, logged := ?_, copies := ?_ }
    · intro b hb _
      exact h.contents.home b hb (by rw [hdone]; exact not_mem_nil)
    · intro u hu d hd
      have := h.contents.logged u hu d hd
      rw [hdone] at this
      cases this
    · intro t ht
      exact absurd ht (Nat.not_lt_zero t)
  · exact nodup_nil
  · intro b hb
    cases hb

/-! ### The buffers of the committing process -/

section HasUse

variable {uses : List Use} {p q : Nat} {i j : Fin NBUF}

theorem HasUse.cons (h : HasUse uses p i) (u : Use) : HasUse (u :: uses) p i := by
  grind [HasUse]

/-- Another reference goes away. -/
theorem HasUse.erase (h : HasUse uses p i) {ph : Phase}
    (hne : q ≠ p ∨ j ≠ i ∨ ph = .releasing) : HasUse (uses.erase ⟨q, j, ph⟩) p i := by
  have hkept := (erase_spec uses ⟨q, j, ph⟩).2
  grind [HasUse]

/-- `acquiresleep` and the read of the disk take a reference to the next phase of `bread`. -/
theorem HasUse.advance (h : HasUse uses p i) {ph ph' : Phase}
    (hph' : ph' = .reading ∨ ph' = .held false false) :
    HasUse (⟨q, j, ph'⟩ :: uses.erase ⟨q, j, ph⟩) p i := by
  by_cases hne : q ≠ p ∨ j ≠ i
  · exact (h.erase (hne.imp_right Or.inl)).cons _
  · obtain ⟨rfl, rfl⟩ : q = p ∧ j = i := by simpa [not_or] using hne
    rcases hph' with rfl | rfl
    · exact Or.inr (Or.inl mem_cons_self)
    · exact Or.inr (Or.inr mem_cons_self)

theorem HasUse.exists_use (h : HasUse uses p i) : ∃ u ∈ uses, u.buf = i := by
  rcases h with h | h | h <;> exact ⟨_, h, rfl⟩

end HasUse

/-! ### The calls as transitions -/

/-- `s'` differs from `s` in the cache and the references only. -/
structure SameLog (s s' : Sys) : Prop where
  log : s'.log = s.log
  active : s'.active = s.active
  commit : s'.commit = s.commit

/-- `bread` gives its caller a buffer of the block. -/
theorem startBread_spec {p : Nat} {i : Fin NBUF} (h : Core s c k m)
    (hs : s.startBread p b = some (i, s')) :
    Core s' c k m ∧ Has s' p i b ∧ (∀ q j b', Has s q j b' → Has s' q j b') ∧ SameLog s s' := by
  unfold Sys.startBread at hs
  obtain ⟨⟨i', bc'⟩, hget, heq⟩ := Option.map_eq_some_iff.mp hs
  obtain ⟨rfl, rfl⟩ := Prod.mk.inj heq
  simp only at heq ⊢
  rcases bget_cases hget with ⟨hdev, hbno, rfl⟩ | ⟨hmiss, hz, rfl⟩
  · have hk : SameKeys s.bc (s.bc.set i' { s.bc.buf i' with
        refcnt := (s.bc.buf i').refcnt + 1 }) := sameKeys_set rfl rfl
    refine ⟨core_bget_hit h p hdev, ⟨Or.inl mem_cons_self, ?_⟩, ?_, ⟨rfl, rfl, rfl⟩⟩
    · exact (hk.blockno i').trans hbno
    · intro q j b' hhas
      exact ⟨hhas.1.cons _, (hk.blockno j).trans hhas.2⟩
  · refine ⟨core_bget_miss h p b hmiss hz, ⟨Or.inl mem_cons_self, ?_⟩, ?_, ⟨rfl, rfl, rfl⟩⟩
    · simp
    · intro q j b' hhas
      obtain ⟨u, hu, rfl⟩ := hhas.1.exists_use
      have hrc := h.refs.refcnt i'
      have hne : u.buf ≠ i' := users_eq_zero (by omega) u hu
      exact ⟨hhas.1.cons _, by rw [set_buf_of_ne _ _ hne]; exact hhas.2⟩

/-- `releasesleep` takes the buffer from its holder. -/
theorem releasesleep_spec {p : Nat} {i : Fin NBUF} (h : Core s c k m)
    (hs : s.releasesleep p i = some s') :
    Core s' c k m ∧ (∀ q j b', q ≠ p ∨ j ≠ i → Has s q j b' → Has s' q j b') ∧ SameLog s s' := by
  unfold Sys.releasesleep at hs
  obtain ⟨f, hf, hs⟩ := Option.bind_eq_some_iff.mp hs
  split at hs
  · rename_i hrule
    cases hs
    refine ⟨core_releasesleep h (heldBy_mem hf) hrule.2, ?_, ⟨rfl, rfl, rfl⟩⟩
    intro q j b' hne hhas
    have hk : SameKeys s.bc (s.bc.set i { s.bc.buf i with lock := none }) := sameKeys_set rfl rfl
    refine ⟨(hhas.1.erase ?_).cons _, (hk.blockno j).trans hhas.2⟩
    exact hne.imp Ne.symm fun hj => Or.inl (Ne.symm hj)
  · cases hs

theorem bwrite_some {p : Nat} {i : Fin NBUF} (hs : s.bwrite p i data = some s') :
    s' = { s with
      bc := s.bc.set i { s.bc.buf i with data := data }
      disk := update s.disk (s.bc.buf i).blockno data } := by
  unfold Sys.bwrite at hs
  split at hs
  · cases hs
    rfl
  · cases hs

/-- What `commit` has depends on the list and on its buffers only. -/
theorem PcOk.congr {p : Nat} (h : PcOk s p pc) (hlog : s'.log = s.log)
    (hhas : ∀ i b, Has s p i b → Has s' p i b) : PcOk s' p pc := by
  cases pc <;> grind [PcOk]

/-! ### One statement of `commit` -/

theorem LogOk.congr (h : LogOk s) (hs : SameLog s s') : LogOk s' := by
  obtain ⟨hlog, hactive, hcommit⟩ := hs
  obtain ⟨h1, h2, h3, h4, h5, h6⟩ := h
  constructor <;> simpa only [hlog, hactive, hcommit]

/-- The log blocks of the listed entries are in the log area. -/
theorem LogOk.inArea (h : LogOk s) {t : Nat} (ht : t < s.log.lh.n.toNat) :
    s.log.InArea (s.log.start + t + 1) := by
  have := h.room
  have := h.nonneg
  unfold Log.InArea
  omega

/-- So is the header block. -/
theorem LogOk.inArea_start (h : LogOk s) : s.log.InArea s.log.start := by
  have := h.room
  have := h.nonneg
  unfold Log.InArea
  omega

/-- The committing process holds the contents of an entry of the list. -/
theorem data_eq_abs {p : Nat} {j : Fin NBUF} (h : Core s c k m) (hhas : Has s p j b)
    (hidle : s.idle p = true) (hb : ¬ s.log.InArea b) : (s.bc.buf j).data = s.abs b := by
  have hu := hhas.held hidle
  have hbno := hhas.2
  rw [← hbno] at hb ⊢
  refine h.contents.clean j (h.keys.useDev _ hu) (h.locks.heldValid _ hu rfl) hb ?_
  intro u hu' hbuf hph
  have := h.locks.unique hu' hu hbuf (by rw [hph]; rfl) rfl
  rw [this] at hph
  cases hph

/-- The committing process holds the contents of a log block. -/
theorem data_eq_disk {p : Nat} {j : Fin NBUF} (h : Core s c k m) (hhas : Has s p j b)
    (hidle : s.idle p = true) (hb : s.log.InArea b) : (s.bc.buf j).data = s.disk b := by
  have hu := hhas.held hidle
  have hbno := hhas.2
  rw [← hbno] at hb ⊢
  exact h.contents.logClean j (h.keys.useDev _ hu) (h.locks.heldValid _ hu rfl) hb

theorem Has.dev {p : Nat} {j : Fin NBUF} (hhas : Has s p j b) (h : Core s c k m) :
    (s.bc.buf j).dev = s.log.dev := by
  obtain ⟨u, hu, rfl⟩ := hhas.1.exists_use
  exact h.keys.useDev u hu

theorem has_bwrite {p q : Nat} {i j : Fin NBUF} (h : Has s q j b) :
    Has { s with
      bc := s.bc.set i { s.bc.buf i with data := data }
      disk := update s.disk p data } q j b := by
  have hk : SameKeys s.bc (s.bc.set i { s.bc.buf i with data := data }) := sameKeys_set rfl rfl
  exact ⟨h.1, (hk.blockno j).trans h.2⟩

/-- The process in `commit` moves on to `pc` in a state that fits. -/
theorem sysInv_goto {p : Nat}
    (hcore : Core s (CommitPc.copied s.log.lh.n.toNat pc) (CommitPc.installed s.log.lh.n.toNat pc)
      (CommitPc.unpinned s.log.lh.n.toNat pc)) (hlog : LogOk s) (hsome : s.commit.isSome = true)
    (hpc : PcOk s p pc) : SysInv (s.goto p pc) where
  core := { hcore with contents := { hcore.contents with } }
  log := ⟨hlog.outstanding, hlog.committing.trans hsome, fun _ => hlog.quiet hsome, hlog.nonneg,
    hlog.room, nofun⟩
  pc := by
    intro q pc' heq
    cases heq
    exact hpc.congr rfl fun _ _ hhas => hhas

/-- Going on from `pc` to `pc'` moves none of the three counts. -/
def SameCounts (n : Nat) (pc pc' : CommitPc) : Prop :=
  CommitPc.copied n pc' = CommitPc.copied n pc ∧
  CommitPc.installed n pc' = CommitPc.installed n pc ∧
  CommitPc.unpinned n pc' = CommitPc.unpinned n pc

/-- The statements that call `bread`. -/
theorem commit_bread {p : Nat} {next : Fin NBUF → CommitPc} (h : SysInv s)
    (hcommit : s.commit = some (p, pc))
    (hs : (s.startBread p b).map (fun r => r.2.goto p (next r.1)) = some s')
    (hcounts : ∀ i, SameCounts s.log.lh.n.toNat pc (next i))
    (hpc : ∀ s'' i, s''.log = s.log → Has s'' p i b → (∀ j b', Has s p j b' → Has s'' p j b') →
      PcOk s'' p (next i)) : SysInv s' := by
  obtain ⟨⟨i, s''⟩, hb, rfl⟩ := Option.map_eq_some_iff.mp hs
  have hcore := h.core
  simp only [copied, installed, unpinned, commitCount, hcommit] at hcore
  obtain ⟨hcore', hhas, hkeep, hsame⟩ := startBread_spec hcore hb
  refine sysInv_goto ?_ (h.log.congr hsame) ?_ (hpc s'' i hsame.log hhas (hkeep p))
  · rw [hsame.log, (hcounts i).1, (hcounts i).2.1, (hcounts i).2.2]
    exact hcore'
  · rw [hsame.commit, hcommit]
    rfl

/-- The statements that call `brelse`. -/
theorem commit_brelse {p : Nat} {i : Fin NBUF} {next : CommitPc} (h : SysInv s)
    (hcommit : s.commit = some (p, pc))
    (hs : (s.releasesleep p i).map (fun s'' => s''.goto p next) = some s')
    (hcounts : SameCounts s.log.lh.n.toNat pc next)
    (hpc : ∀ s'', s''.log = s.log → (∀ j b', j ≠ i → Has s p j b' → Has s'' p j b') →
      PcOk s'' p next) : SysInv s' := by
  obtain ⟨s'', hb, rfl⟩ := Option.map_eq_some_iff.mp hs
  have hcore := h.core
  simp only [copied, installed, unpinned, commitCount, hcommit] at hcore
  obtain ⟨hcore', hkeep, hsame⟩ := releasesleep_spec hcore hb
  refine sysInv_goto ?_ (h.log.congr hsame) ?_
    (hpc s'' hsame.log fun j b' hj => hkeep p j b' (Or.inr hj))
  · rw [hsame.log, hcounts.1, hcounts.2.1, hcounts.2.2]
    exact hcore'
  · rw [hsame.commit, hcommit]
    rfl

/-- Every statement of `commit` keeps the invariant. -/
theorem commitStep_inv (h : SysInv s) (hs : s.commitStep = some s') : SysInv s' := by
  unfold Sys.commitStep at hs
  cases hcommit : s.commit with
  | none => rw [hcommit] at hs; cases hs
  | some c =>
  obtain ⟨p, pc⟩ := c
  simp only [hcommit] at hs
  split at hs
  case isFalse => cases hs
  case isTrue hidle =>
  have hsome : s.commit.isSome = true := by rw [hcommit]; rfl
  have hpc := h.pc p pc hcommit
  have hcore := h.core
  have hn := h.log.nonneg
  simp only [copied, installed, unpinned, commitCount, hcommit] at hcore
  -- an entry and its log block are in different buffers
  have hapart : ∀ {t i j}, t < s.log.lh.n.toNat → Has s p i (s.log.start + t + 1) →
      Has s p j (s.log.lh.block t) → i ≠ j := by
    rintro t i j ht hi hj rfl
    refine hcore.outside _ (mem_lhList.mpr ⟨t, ht, rfl⟩) ?_
    rw [← hj.2, hi.2]
    exact h.log.inArea ht
  cases pc with
  | wlTo t | itLog t =>
    simp only at hs
    split at hs
    · refine commit_bread h hcommit hs (fun _ => ⟨rfl, rfl, rfl⟩) ?_
      intro s'' i hlog hhas _
      exact ⟨by rw [hlog]; omega, by rwa [hlog]⟩
    · cases hs
      have ht : t = s.log.lh.n.toNat := by
        have : t ≤ s.log.lh.n.toNat := hpc
        omega
      subst ht
      exact sysInv_goto hcore h.log hsome (by first | trivial | (intro hc; cases hc))
  | wlFrom t i | itDst t i =>
    refine commit_bread h hcommit hs (fun _ => ⟨rfl, rfl, rfl⟩) ?_
    intro s'' j hlog hhas hkeep
    exact ⟨hlog ▸ hpc.1, hkeep _ _ (hlog ▸ hpc.2), by rwa [hlog]⟩
  | wlCopy t i j =>
    obtain ⟨s'', hb, rfl⟩ := Option.map_eq_some_iff.mp hs
    obtain rfl := bwrite_some hb
    obtain ⟨ht, hi, hj⟩ := hpc
    have harea := h.log.inArea ht
    have hout := hcore.outside _ (mem_lhList.mpr ⟨t, ht, rfl⟩)
    have hdata := data_eq_abs hcore hj hidle hout
    have hwrite := core_bwrite_log hcore (hi.dev hcore) (by rwa [hi.2])
      (by intro t' ht' _; rw [hi.2]; simp only [CommitPc.copied] at ht'; omega)
      (s.bc.buf j).data
    refine sysInv_goto (core_copied hwrite ht (hj.held hidle) ?_ ?_) (h.log.congr ⟨rfl, rfl, rfl⟩)
      hsome ⟨ht, has_bwrite hi, has_bwrite hj⟩
    · exact (has_bwrite hj).2
    · show update s.disk (s.bc.buf i).blockno (s.bc.buf j).data (s.log.start + t + 1) = _
      rw [hi.2, update_self, hdata]
  | wlRelFrom t i j =>
    refine commit_brelse h hcommit hs ⟨rfl, rfl, rfl⟩ fun s'' hlog hkeep => ?_
    have hne := hapart hpc.1 hpc.2.1 hpc.2.2
    exact ⟨hlog ▸ hpc.1, hkeep _ _ hne (hlog ▸ hpc.2.1)⟩
  | wlRelTo t i | itRelDst t i =>
    refine commit_brelse h hcommit hs ⟨rfl, rfl, rfl⟩ fun s'' hlog _ => ?_
    show t + 1 ≤ s''.log.lh.n.toNat
    rw [hlog]
    exact hpc.1
  | hdBread cleared =>
    refine commit_bread h hcommit hs (fun _ => ⟨rfl, rfl, rfl⟩) ?_
    intro s'' i hlog hhas _
    exact ⟨hlog ▸ hpc, hlog ▸ hhas⟩
  | hdWrite cleared i =>
    obtain ⟨s'', hb, rfl⟩ := Option.map_eq_some_iff.mp hs
    obtain rfl := bwrite_some hb
    have hi := hpc.2
    have hwrite := core_bwrite_log hcore (hi.dev hcore)
      (by rw [hi.2]; exact h.log.inArea_start) (by intro t' _ _; rw [hi.2]; omega)
      (putHead s.log.lh (s.bc.buf i).data)
    exact sysInv_goto hwrite (h.log.congr ⟨rfl, rfl, rfl⟩) hsome ⟨hpc.1, has_bwrite hi⟩
  | hdRel cleared i =>
    refine commit_brelse h hcommit hs ?_ fun s'' hlog _ => ?_
    · cases cleared <;> exact ⟨rfl, rfl, rfl⟩
    · cases cleared with
      | true =>
        show s''.log.lh.n = 0
        rw [hlog]
        exact hpc.1 rfl
      | false => exact Nat.zero_le _
  | itCopy t i j =>
    obtain ⟨s'', hb, rfl⟩ := Option.map_eq_some_iff.mp hs
    obtain rfl := bwrite_some hb
    obtain ⟨ht, hi, hj⟩ := hpc
    -- the log block still holds what write_log put there
    have hdata : (s.bc.buf i).data = s.abs (s.log.lh.block t) :=
      (data_eq_disk hcore hi hidle (h.log.inArea ht)).trans (hcore.contents.copies t ht ht)
    have hwrite := core_bwrite_home hcore (fun _ => h.log.inArea) ht ht (hj.dev hcore) hj.2 hdata
    exact sysInv_goto hwrite (h.log.congr ⟨rfl, rfl, rfl⟩) hsome
      ⟨ht, has_bwrite hi, has_bwrite hj⟩
  | itUnpin t i j =>
    cases hs
    obtain ⟨ht, hi, hj⟩ := hpc
    have hk : SameKeys s.bc (s.bc.bunpin j) := sameKeys_set rfl rfl
    show SysInv ({ s with bc := s.bc.bunpin j }.goto p (.itRelLog t i j))
    exact sysInv_goto (core_bunpin hcore (Nat.lt_succ_self t) ht (hj.dev hcore) hj.2)
      (h.log.congr ⟨rfl, rfl, rfl⟩) hsome
      ⟨ht, ⟨hi.1, (hk.blockno i).trans hi.2⟩, ⟨hj.1, (hk.blockno j).trans hj.2⟩⟩
  | itRelLog t i j =>
    refine commit_brelse h hcommit hs ⟨rfl, rfl, rfl⟩ fun s'' hlog hkeep => ?_
    have hne := hapart hpc.1 hpc.2.1 hpc.2.2
    exact ⟨hlog ▸ hpc.1, hkeep _ _ (Ne.symm hne) (hlog ▸ hpc.2.2)⟩
  | clear =>
    cases hs
    have hroom := h.log.room
    show SysInv ({ s with log := s.log.setN 0 }.goto p (.hdBread true))
    refine sysInv_goto (core_clear hcore (Nat.le_refl _)) ?_ hsome fun _ => rfl
    exact ⟨h.log.outstanding, h.log.committing, h.log.quiet, Int.le_refl 0, by
      show (0 : Int) ≤ s.log.size - 1
      omega, fun hnone => by rw [hcommit] at hnone; cases hnone⟩
  | done =>
    cases hs
    have hzero : s.log.lh.n = 0 := hpc
    simp only [CommitPc.copied, hzero] at hcore
    refine ⟨{ hcore with contents := { hcore.contents with } }, ?_, nofun⟩
    exact ⟨h.log.outstanding, rfl, nofun, h.log.nonneg, h.log.room, fun _ _ => hzero⟩

end Xv6.Proofs
