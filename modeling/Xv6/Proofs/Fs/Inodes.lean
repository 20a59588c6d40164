import Xv6.Proofs.Fs.Contents
import Mathlib.Algebra.BigOperators.Fin
import Mathlib.Algebra.Order.BigOperators.Group.Finset

/-!
# `Xv6.Proofs.Fs.Inodes`: references to inodes

`iget`, `idup`, `ilock`, `iunlock` and `iput`, as long as `iput` does not free the inode. They
change the table only, and they do not change the view of the inodes: an entry that is filled by
`ilock` holds what the disk has, and an entry that `iput` gives up does not hold anything else.

`refsTo` counts the references to an inode number, and `InodesHeld` is what holds of the table
between the calls of one process: entries that have been read agree with the disk, and only the
inode that the process has locked is locked.
-/

set_option autoImplicit false

namespace Xv6.Proofs

open Lib Fs List
open Function (update_of_ne update_self)

variable {i : Inode} {n : Nat}

/-! ### `iget` -/

/-- Only the table has changed. -/
structure TableOnly (s s' : Fs) : Prop where
  disk : s'.disk = s.disk
  sb : s'.sb = s.sb
  log : s'.log = s.log
  writes : s'.writes = s.writes

theorem TableOnly.refl (s : Fs) : TableOnly s s := ⟨rfl, rfl, rfl, rfl⟩

theorem TableOnly.trans {s s₁ s₂ : Fs} (h : TableOnly s s₁) (h' : TableOnly s₁ s₂) :
    TableOnly s s₂ :=
  ⟨h'.disk.trans h.disk, h'.sb.trans h.sb, h'.log.trans h.log, h'.writes.trans h.writes⟩

/-- Inode `n` has an entry, or there is a free one. -/
def CanGet (s : Fs) (n : Nat) : Prop :=
  (∃ ip, 0 < (s.itable ip).ref ∧ (s.itable ip).inum = n) ∨ ∃ ip, (s.itable ip).ref = 0

/-- What `iget` does to the table. -/
inductive Igot (s : Fs) (n : Nat) (ip : InodeId) : Inode → Prop where
  | found (href : 0 < (s.itable ip).ref) (hinum : (s.itable ip).inum = n) :
      Igot s n ip { s.itable ip with ref := (s.itable ip).ref + 1 }
  | filled (hnone : ∀ jp, 0 < (s.itable jp).ref → (s.itable jp).inum ≠ n)
      (hfree : (s.itable ip).ref = 0) :
      Igot s n ip { s.itable ip with inum := n, ref := 1, valid := false }

variable {s s' : Fs} {ip : InodeId}

theorem wp_modifyTable {f : Inode → Inode} {Q : Unit → Fs → Prop} {E : FsPanic → Prop}
    (h : ∀ s', TableOnly s s' → s'.itable = Function.update s.itable ip (f (s.itable ip)) →
      Q () s') : wp (modifyInode ip f) Q E s := by
  unfold modifyInode
  rw [wp_modify]
  exact h _ ⟨rfl, rfl, rfl, rfl⟩ rfl

/-- `iget` finds the entry of the inode or fills a free one, and panics if there is none. -/
theorem iget_run (n : Nat) (s : Fs) :
    wp (iget n) (fun ip s' => TableOnly s s' ∧
        ∃ i, Igot s n ip i ∧ s'.itable = Function.update s.itable ip i)
      (fun e => e = .iget ∧ ¬ CanGet s n) s := by
  unfold iget
  rw [wp_bind, wp_get]
  cases hfind : (List.finRange NINODE).find? fun ip =>
      0 < (s.itable ip).ref ∧ (s.itable ip).inum = n with
  | some ip =>
    have hip := find?_some hfind
    simp only [decide_eq_true_eq] at hip
    show wp (modifyInode ip _ >>= fun _ => _) _ _ _
    rw [wp_bind]
    exact wp_modifyTable fun s' hs htable => ⟨hs, _, .found hip.1 hip.2, htable⟩
  | none =>
    have hnone : ∀ jp, 0 < (s.itable jp).ref → (s.itable jp).inum ≠ n := by
      intro jp href hinum
      have := find?_eq_none.mp hfind jp (mem_finRange jp)
      simp [href, hinum] at this
    cases hfree : (List.finRange NINODE).find? fun ip => (s.itable ip).ref = 0 with
    | some ip =>
      have hip := find?_some hfree
      simp only [decide_eq_true_eq] at hip
      show wp (modifyInode ip _ >>= fun _ => _) _ _ _
      rw [wp_bind]
      exact wp_modifyTable fun s' hs htable => ⟨hs, _, .filled hnone hip, htable⟩
    | none =>
      refine ⟨rfl, ?_⟩
      rintro (⟨jp, href, hinum⟩ | ⟨jp, href⟩)
      · exact hnone jp href hinum
      · have := find?_eq_none.mp hfree jp (mem_finRange jp)
        simp [href] at this

theorem Igot.inum (h : Igot s n ip i) : i.inum = n := by
  cases h <;> grind

theorem Igot.canGet (h : Igot s n ip i) : CanGet s n := by
  cases h with
  | found href hinum => exact .inl ⟨ip, href, hinum⟩
  | filled _ hfree => exact .inr ⟨ip, hfree⟩

theorem Igot.ref_pos (h : Igot s n ip i) : 0 < i.ref := by
  cases h <;> grind

/-- An entry that is used keeps its inode number. -/
theorem Igot.inum_update (h : Igot s n ip i) {jp : InodeId} (href : 0 < (s.itable jp).ref) :
    (Function.update s.itable ip i jp).inum = (s.itable jp).inum := by
  cases h <;> grind

/-! ### Counting references -/

/-- The references in an entry to inode `n`. -/
def Inode.refsTo (i : Inode) (n : Nat) : Nat := if i.inum = n then i.ref else 0

/-- The references to inode `n`. -/
def refsTo (s : Fs) (n : Nat) : Nat := ∑ ip, Inode.refsTo (s.itable ip) n

/-- The references to an inode when one entry changes. -/
theorem refsTo_update {i' : Inode} (htable : s'.itable = Function.update s.itable ip i') (n : Nat) :
    refsTo s' n + Inode.refsTo (s.itable ip) n = refsTo s n + Inode.refsTo i' n := by
  unfold refsTo
  rw [← Finset.add_sum_erase _ _ (Finset.mem_univ ip),
    ← Finset.add_sum_erase Finset.univ (fun jp => Inode.refsTo (s.itable jp) n)
      (Finset.mem_univ ip)]
  have hother : ∑ jp ∈ Finset.univ.erase ip, Inode.refsTo (s'.itable jp) n
      = ∑ jp ∈ Finset.univ.erase ip, Inode.refsTo (s.itable jp) n := by
    refine Finset.sum_congr rfl fun jp hjp => ?_
    rw [htable, update_of_ne (Finset.ne_of_mem_erase hjp)]
  rw [hother, htable, update_self]
  omega

/-- An inode has one entry, which counts all references to it. -/
theorem refsTo_entry (h : TableOk s) (href : 0 < (s.itable ip).ref) :
    refsTo s (s.itable ip).inum = (s.itable ip).ref := by
  unfold refsTo
  rw [Finset.sum_eq_single ip]
  · exact if_pos rfl
  · intro jp _ hjp
    unfold Inode.refsTo
    split
    · rename_i hinum
      exact Nat.eq_zero_of_not_pos fun hpos => hjp (h.unique jp ip hpos href hinum)
    · rfl
  · exact fun hnot => absurd (Finset.mem_univ ip) hnot

theorem refsTo_pos (href : 0 < (s.itable ip).ref) : 0 < refsTo s (s.itable ip).inum := by
  have hle : Inode.refsTo (s.itable ip) (s.itable ip).inum ≤ refsTo s (s.itable ip).inum :=
    Finset.single_le_sum (f := fun jp => Inode.refsTo (s.itable jp) (s.itable ip).inum)
      (fun _ _ => Nat.zero_le _) (Finset.mem_univ ip)
  rw [Inode.refsTo, if_pos rfl] at hle
  omega

theorem exists_entry_of_refsTo (h : 0 < refsTo s n) :
    ∃ ip, 0 < (s.itable ip).ref ∧ (s.itable ip).inum = n := by
  obtain ⟨ip, -, hip⟩ := Finset.exists_ne_zero_of_sum_ne_zero (Nat.pos_iff_ne_zero.mp h)
  unfold Inode.refsTo at hip
  split at hip
  · exact ⟨ip, Nat.pos_of_ne_zero hip, ‹_›⟩
  · exact absurd rfl hip

/-- The inodes that have an entry. -/
def inTable (s : Fs) : Finset Nat :=
  (Finset.univ.filter fun ip => 0 < (s.itable ip).ref).image fun ip => (s.itable ip).inum

/-- The table has room for the inodes `ns` along with those that are in it. -/
def TableHolds (s : Fs) (ns : Finset Nat) : Prop := (ns ∪ inTable s).card ≤ NINODE

instance (s : Fs) (ns : Finset Nat) : Decidable (TableHolds s ns) :=
  inferInstanceAs (Decidable (_ ≤ _))

/-- An inode is in the table if there is a reference to it. -/
theorem mem_inTable_iff : n ∈ inTable s ↔ 0 < refsTo s n := by
  unfold inTable
  constructor
  · intro hmem
    obtain ⟨ip, hip, rfl⟩ := Finset.mem_image.mp hmem
    exact refsTo_pos (Finset.mem_filter.mp hip).2
  · intro hpos
    obtain ⟨ip, href, hinum⟩ := exists_entry_of_refsTo hpos
    exact Finset.mem_image.mpr ⟨ip, Finset.mem_filter.mpr ⟨Finset.mem_univ ip, href⟩, hinum⟩

/-- `iget` finds an entry exactly if the table has room for one more inode. -/
theorem TableOk.canGet_iff (h : TableOk s) : CanGet s n ↔ TableHolds s {n} := by
  -- different entries are for different inodes
  have hcard : (inTable s).card = (Finset.univ.filter fun ip => 0 < (s.itable ip).ref).card := by
    refine Finset.card_image_of_injOn fun ip hip jp hjp heq => ?_
    rw [Finset.mem_coe, Finset.mem_filter] at hip hjp
    exact h.unique ip jp hip.2 hjp.2 heq
  have hsplit := Finset.card_filter_add_card_filter_not (s := Finset.univ)
    fun ip => 0 < (s.itable ip).ref
  rw [Finset.card_univ, Fintype.card_fin, ← hcard] at hsplit
  unfold TableHolds
  rw [← Finset.insert_eq]
  by_cases hmem : n ∈ inTable s
  · rw [Finset.insert_eq_of_mem hmem]
    exact iff_of_true (.inl (exists_entry_of_refsTo (mem_inTable_iff.mp hmem))) (by omega)
  · rw [Finset.card_insert_of_notMem hmem]
    constructor
    · rintro (⟨ip, href, rfl⟩ | ⟨ip, href⟩)
      · exact absurd (mem_inTable_iff.mpr (refsTo_pos href)) hmem
      · have hfree : 0 < (Finset.univ.filter fun ip => ¬ 0 < (s.itable ip).ref).card :=
          Finset.card_pos.mpr ⟨ip, Finset.mem_filter.mpr ⟨Finset.mem_univ ip, by omega⟩⟩
        omega
    · intro hle
      obtain ⟨ip, hip⟩ := Finset.card_pos.mp
        (show 0 < (Finset.univ.filter fun ip => ¬ 0 < (s.itable ip).ref).card by omega)
      exact .inr ⟨ip, Nat.eq_zero_of_not_pos (Finset.mem_filter.mp hip).2⟩

/-! ### The table between two calls -/

/-- Entries that have been read agree with the disk. -/
def Synced (s : Fs) : Prop :=
  ∀ ip, Cached s ip → dinodeOf s.sb s.disk (s.itable ip).inum = (s.itable ip).toDinode

/-- The state `s₁` is `s` with references to the inodes `extra`; the inodes `lock` are locked. -/
structure InodesHeld (s s₁ : Fs) (extra : List Nat) (lock : Finset InodeId) : Prop where
  only : TableOnly s s₁
  ok : FsOk s₁
  eff : eff s₁ = eff s
  synced : Synced s₁
  refs : ∀ n, refsTo s₁ n = refsTo s n + extra.count n
  locked : ∀ jp, (s₁.itable jp).locked = true ↔ jp ∈ lock
  holder : ∀ jp ∈ lock, 0 < (s₁.itable jp).ref
  /-- entries in use stay the entries of their inodes -/
  kept : ∀ jp, 0 < (s.itable jp).ref →
    (s₁.itable jp).inum = (s.itable jp).inum ∧ 0 < (s₁.itable jp).ref

/-- No inode is locked. -/
theorem InodesHeld.init (hok : FsOk s) (hsync : Synced s)
    (hfree : ∀ jp, (s.itable jp).locked = false) :
    InodesHeld s s [] ∅ where
  only := .refl s
  ok := hok
  eff := rfl
  synced := hsync
  refs n := by rw [count_nil, Nat.add_zero]
  locked jp := by simp [hfree jp]
  holder jp h := absurd h (Finset.notMem_empty jp)
  kept jp h := ⟨rfl, h⟩

section

variable {s₁ s₂ : Fs} {extra : List Nat} {lock : Finset InodeId}

/-- The table and the disk agree about every inode, so the view does not depend on what is in the
table. -/
theorem Synced.eff_eq (h : Synced s) (hok : TableOk s) {i : Nat} (hi : i < s.sb.ninodes) :
    eff s i = dinodeOf s.sb s.disk i := by
  by_cases hex : ∃ ip, Cached s ip ∧ (s.itable ip).inum = i
  · obtain ⟨ip, hc, rfl⟩ := hex
    rw [eff_cached hok hc, h ip hc]
  · exact eff_disk hi fun ip hc heq => hex ⟨ip, hc, heq⟩

theorem Synced.eff_congr (h : Synced s) (hok : TableOk s) (h' : Synced s') (hok' : TableOk s')
    (honly : TableOnly s s') : eff s' = eff s := by
  funext i
  by_cases hi : i < s.sb.ninodes
  · rw [h.eff_eq hok hi, h'.eff_eq hok' (honly.sb.symm ▸ hi), honly.sb, honly.disk]
  · have hge := Nat.le_of_not_lt hi
    rw [eff_of_ge hge, eff_of_ge (honly.sb.symm ▸ hge)]

theorem FsOk.tableOnly (hok : FsOk s) (htable : TableOk s') (honly : TableOnly s s')
    (heff : Proofs.eff s' = Proofs.eff s) : FsOk s' := by
  refine ⟨honly.sb ▸ hok.layout, htable, ?_⟩
  rw [heff, honly.sb, honly.disk]
  exact hok.alloc

/-- One entry changes. What is left to show is about this entry. -/
theorem InodesHeld.set (h : InodesHeld s s₁ extra lock) {extra' : List Nat} {lock' : Finset InodeId}
    (honly : TableOnly s₁ s₂) (htable : s₂.itable = Function.update s₁.itable ip i)
    (htab : TableOk s₂)
    (hsync : 0 < i.ref → i.valid = true → dinodeOf s.sb s.disk i.inum = i.toDinode)
    (hrefs : ∀ n, Inode.refsTo i n + extra.count n
      = Inode.refsTo (s₁.itable ip) n + extra'.count n)
    (hlocked : ∀ jp, (if jp = ip then i.locked else (s₁.itable jp).locked) = true ↔ jp ∈ lock')
    (hholder : ∀ jp ∈ lock', if jp = ip then 0 < i.ref else 0 < (s₁.itable jp).ref)
    (hinum : 0 < (s₁.itable ip).ref → i.inum = (s₁.itable ip).inum) :
    InodesHeld s s₂ extra' lock' := by
  have hat := congrFun htable
  have honly' := h.only.trans honly
  have hsynced : Synced s₂ := by
    intro jp hc
    rw [honly'.sb, honly'.disk]
    have hold := h.synced jp
    rw [h.only.sb, h.only.disk] at hold
    grind [Cached]
  have heff := h.synced.eff_congr h.ok.table hsynced htab honly
  have hrefs' : ∀ n, refsTo s₂ n = refsTo s n + extra'.count n := by
    intro n
    have hcount := refsTo_update htable n
    have hold := h.refs n
    have hnew := hrefs n
    omega
  refine ⟨honly', h.ok.tableOnly htab honly heff, heff.trans h.eff, hsynced, hrefs',
    fun jp => ?_, fun jp hjp => ?_, fun jp hjp => ?_⟩
  · grind
  · grind
  · obtain ⟨hold, hpos⟩ := h.kept jp hjp
    by_cases heq : jp = ip
    · subst heq
      rw [htable, update_self]
      refine ⟨(hinum hpos).trans hold, Nat.pos_of_ne_zero fun hzero => ?_⟩
      -- the references would be in another entry for the same inode
      have hcount : 0 < refsTo s₂ (s.itable jp).inum := by
        have := refsTo_pos hjp
        have := hrefs' (s.itable jp).inum
        omega
      obtain ⟨kp, hkp, hkinum⟩ := exists_entry_of_refsTo hcount
      have hunique := h.ok.table.unique kp jp
      grind
    · grind

/-- The locks stay as they are. -/
theorem InodesHeld.locked_set (h : InodesHeld s s₁ extra lock)
    (hi : i.locked = (s₁.itable ip).locked) (jp : InodeId) :
    (if jp = ip then i.locked else (s₁.itable jp).locked) = true ↔ jp ∈ lock := by
  have := h.locked
  grind

/-- An entry that is free is filled with an inode that is not in the table. -/
theorem TableOk.fill (h : TableOk s) (honly : TableOnly s s')
    (htable : s'.itable = Function.update s.itable ip i)
    (hnone : ∀ jp, 0 < (s.itable jp).ref → (s.itable jp).inum ≠ i.inum)
    (hn : 1 ≤ i.inum ∧ i.inum < s.sb.ninodes) (hvalid : i.valid = false) : TableOk s' := by
  have hsb := honly.sb
  have hat := congrFun htable
  obtain ⟨hunique, hinum, hfits⟩ := h
  constructor <;> grind [Cached]

/-- After `iget`. -/
theorem InodesHeld.got (h : InodesHeld s s₁ extra lock) (hgot : Igot s₁ n ip i)
    (honly : TableOnly s₁ s₂) (htable : s₂.itable = Function.update s₁.itable ip i)
    (hn : 1 ≤ n ∧ n < s.sb.ninodes) : InodesHeld s s₂ (n :: extra) lock := by
  have hlt : 1 ≤ n ∧ n < s₁.sb.ninodes := h.only.sb.symm ▸ hn
  have hholder := h.holder
  cases hgot with
  | found href hinum =>
    have htab := h.ok.table.set honly.sb htable rfl (fun _ => href)
      fun _ hv => h.ok.table.fits ip ⟨href, hv⟩
    refine h.set honly htable htab (fun _ hv => ?_) (fun m => ?_) (h.locked_set rfl)
      (fun jp hjp => ?_) fun _ => rfl
    · have := h.synced ip ⟨href, hv⟩
      rwa [h.only.sb, h.only.disk] at this
    · grind [Inode.refsTo]
    · grind
  | filled hnone hfree =>
    have htab := h.ok.table.fill honly htable hnone hlt rfl
    refine h.set honly htable htab (fun _ hv => absurd hv Bool.false_ne_true) (fun m => ?_)
      (h.locked_set rfl) (fun jp hjp => ?_) fun hpos => absurd hfree (Nat.ne_of_gt hpos)
    · grind [Inode.refsTo]
    · grind

/-- `idup` adds a reference. -/
theorem InodesHeld.idup (h : InodesHeld s s₁ extra lock) (href : 0 < (s₁.itable ip).ref) :
    wp (Fs.idup ip) (fun _ s₂ => InodesHeld s s₂ ((s₁.itable ip).inum :: extra) lock ∧
      (s₂.itable ip).inum = (s₁.itable ip).inum ∧ 0 < (s₂.itable ip).ref) (fun _ => False) s₁ := by
  unfold Fs.idup
  refine wp_modifyTable fun s₂ honly htable => ?_
  have hinum := h.ok.table.inum ip href
  refine ⟨h.got (.found href rfl) honly htable (h.only.sb ▸ hinum), ?_, ?_⟩
  · rw [htable, update_self]
  · rw [htable, update_self]
    exact Nat.succ_pos _

/-- `ilock` fills the entry from the disk if that has not been done. -/
theorem InodesHeld.ilock (h : InodesHeld s s₁ extra lock) (href : 0 < (s₁.itable ip).ref)
    (hlock : ip ∉ lock) (hlive : Live s.sb (Proofs.eff s) (s₁.itable ip).inum) :
    wp (Fs.ilock ip) (fun _ s₂ => InodesHeld s s₂ extra (insert ip lock) ∧
      (s₂.itable ip).inum = (s₁.itable ip).inum ∧ (s₂.itable ip).valid = true ∧
      ∀ jp, jp ≠ ip → s₂.itable jp = s₁.itable jp) (fun _ => False) s₁ := by
  have hinum := h.ok.table.inum ip href
  have hfree : (s₁.itable ip).locked = false := by
    rw [← Bool.not_eq_true, h.locked ip]
    exact hlock
  -- what the entry holds after the call
  have hset : ∀ (i : Inode) (s₂ : Fs), TableOnly s₁ s₂ →
      s₂.itable = Function.update s₁.itable ip i → i.inum = (s₁.itable ip).inum →
      i.ref = (s₁.itable ip).ref → i.locked = true → i.valid = true →
      i.toDinode = dinodeOf s₁.sb s₁.disk (s₁.itable ip).inum →
      InodesHeld s s₂ extra (insert ip lock) ∧ (s₂.itable ip).inum = (s₁.itable ip).inum ∧
        (s₂.itable ip).valid = true ∧ ∀ jp, jp ≠ ip → s₂.itable jp = s₁.itable jp := by
    intro i s₂ honly htable hi hr hl hv hd
    have htab := h.ok.table.set honly.sb htable hi (fun _ => href) fun _ _ => by
      rw [hd]
      exact fits_getDinode _ _
    have hself : s₂.itable ip = i := by rw [htable, update_self]
    refine ⟨h.set honly htable htab (fun _ _ => ?_) (fun m => ?_) (fun jp => ?_)
      (fun jp hjp => ?_) fun _ => hi, by rw [hself, hi], by rw [hself, hv],
      fun jp hjp => by rw [htable, update_of_ne hjp]⟩
    · rw [hd, hi, h.only.sb, h.only.disk]
    · unfold Inode.refsTo
      rw [hi, hr]
    · have := h.locked
      grind
    · have := h.holder
      grind
  unfold Fs.ilock
  rw [wp_bind, wp_get]
  refine wp_ite (fun hlt => absurd hlt (Nat.not_lt.mpr href)) fun _ => ?_
  refine wp_ite (fun hl => absurd hl (by simp [hfree])) fun _ => ?_
  refine wp_ite (fun hv => ?_) fun hv => ?_
  · exact wp_modifyTable fun s₂ honly htable =>
      hset _ s₂ honly htable rfl rfl rfl hv (h.synced ip ⟨href, hv⟩).symm
  · -- the inode on disk is allocated
    have htype : (dinode s₁ (s₁.itable ip).inum).type ≠ 0 := by
      have hne := hlive.2.2
      rwa [← h.eff, h.synced.eff_eq h.ok.table hinum.2] at hne
    rw [wp_bind]
    refine wp_modifyTable fun s₂ honly htable => ?_
    refine wp_ite (fun hzero => absurd hzero htype) fun _ => ?_
    exact hset _ s₂ honly htable rfl rfl rfl rfl rfl

/-- `iunlock` gives up the lock and keeps the reference. -/
theorem InodesHeld.iunlock (h : InodesHeld s s₁ extra (insert ip lock)) (hlock : ip ∉ lock) :
    wp (Fs.iunlock ip) (fun _ s₂ => InodesHeld s s₂ extra lock ∧
      ∀ jp, (s₂.itable jp).inum = (s₁.itable jp).inum ∧ (s₂.itable jp).ref = (s₁.itable jp).ref)
      (fun _ => False) s₁ := by
  have href := h.holder ip (Finset.mem_insert_self ip lock)
  have hlocked := (h.locked ip).mpr (Finset.mem_insert_self ip lock)
  unfold Fs.iunlock
  rw [wp_bind, wp_get]
  refine wp_ite (fun hbad => ?_) fun _ => wp_modifyTable fun s₂ honly htable => ?_
  · rw [hlocked] at hbad
    rcases hbad with hbad | hbad
    · exact absurd hbad.symm Bool.false_ne_true
    · omega
  · have htab := h.ok.table.set honly.sb htable rfl (fun _ => href)
      fun _ hv => h.ok.table.fits ip ⟨href, hv⟩
    refine ⟨h.set honly htable htab (fun _ hv => ?_) (fun m => rfl) (fun jp => ?_)
      (fun jp hjp => ?_) fun _ => rfl, fun jp => ?_⟩
    · have := h.synced ip ⟨href, hv⟩
      rwa [h.only.sb, h.only.disk] at this
    · have := h.locked
      grind
    · have := h.holder
      grind
    · have := congrFun htable
      grind

/-- The entries of the inodes `held` stay. -/
def Stays (s s' : Fs) (held : List Nat) : Prop :=
  ∀ jp, 0 < (s.itable jp).ref → (s.itable jp).inum ∈ held →
    (s'.itable jp).inum = (s.itable jp).inum ∧ 0 < (s'.itable jp).ref

/-- `iput` of an inode that has a name, or that others hold, does not free it. -/
theorem InodesHeld.iput (h : InodesHeld s s₁ extra lock) (href : 0 < (s₁.itable ip).ref)
    (hmem : (s₁.itable ip).inum ∈ extra)
    (hlock : ip ∈ lock → (s₁.itable ip).inum ∈ extra.erase (s₁.itable ip).inum)
    (hkeep : 0 < (Proofs.eff s (s₁.itable ip).inum).nlink ∨ 0 < refsTo s (s₁.itable ip).inum) :
    wp (Fs.iput ip) (fun _ s₂ => InodesHeld s s₂ (extra.erase (s₁.itable ip).inum) lock ∧
      Stays s₁ s₂ (extra.erase (s₁.itable ip).inum)) (fun _ => False) s₁ := by
  have hrefs := h.refs (s₁.itable ip).inum
  rw [refsTo_entry h.ok.table href] at hrefs
  have hcount := count_pos_iff.mpr hmem
  unfold Fs.iput
  rw [wp_bind, wp_get]
  refine wp_ite (fun hfree => ?_) fun _ => wp_modifyTable fun s₂ honly htable => ?_
  · obtain ⟨hone, hv, hzero⟩ := hfree
    rcases hkeep with hlink | hothers
    · rw [← h.eff, eff_cached h.ok.table ⟨href, hv⟩] at hlink
      omega
    · omega
  · have htab := h.ok.table.set honly.sb htable rfl (fun _ => href)
      fun _ hv => h.ok.table.fits ip ⟨href, hv⟩
    refine ⟨h.set honly htable htab (fun _ hv => ?_) (fun m => ?_) (h.locked_set rfl)
      (fun jp hjp => ?_) fun _ => rfl, fun jp hj hheld => ?_⟩
    · have := h.synced ip ⟨href, hv⟩
      rwa [h.only.sb, h.only.disk] at this
    · grind [Inode.refsTo]
    · -- a locked inode is held twice
      have hold := h.holder jp hjp
      have htwice := fun heq : jp = ip => count_pos_iff.mpr (hlock (heq ▸ hjp))
      grind
    · -- so is one that stays
      have htwice := count_pos_iff.mpr hheld
      have hat := congrFun htable jp
      grind

/-- `iunlockput` gives up the lock and the reference. -/
theorem InodesHeld.iunlockput (h : InodesHeld s s₁ extra (insert ip lock)) (hlock : ip ∉ lock)
    (hmem : (s₁.itable ip).inum ∈ extra)
    (hkeep : 0 < (Proofs.eff s (s₁.itable ip).inum).nlink ∨ 0 < refsTo s (s₁.itable ip).inum) :
    wp (Fs.iunlockput ip) (fun _ s₂ => InodesHeld s s₂ (extra.erase (s₁.itable ip).inum) lock ∧
      Stays s₁ s₂ (extra.erase (s₁.itable ip).inum)) (fun _ => False) s₁ := by
  unfold Fs.iunlockput
  rw [wp_bind]
  refine wp_post (h.iunlock hlock) ?_
  rintro - s₂ ⟨h₂, hsame⟩
  rw [← (hsame ip).1] at hmem hkeep ⊢
  refine wp_post (h₂.iput ((hsame ip).2.symm ▸ h.holder ip (Finset.mem_insert_self ip lock)) hmem
    (fun hin => absurd hin hlock) hkeep) ?_
  rintro - s₃ ⟨h₃, hstays⟩
  refine ⟨h₃, fun jp hj hheld => ?_⟩
  obtain ⟨hinum, href⟩ := hsame jp
  rw [← hinum] at hheld ⊢
  exact hstays jp (href.symm ▸ hj) hheld

/-- The references that have been taken are to inodes that have an entry then. -/
theorem InodesHeld.inTable_eq (h : InodesHeld s s₁ extra lock) :
    inTable s₁ = inTable s ∪ extra.toFinset := by
  ext n
  rw [Finset.mem_union, mem_toFinset, mem_inTable_iff, mem_inTable_iff, h.refs n, ← count_pos_iff]
  omega

/-- Whether an inode can be had depends on the inodes that are held only. -/
theorem InodesHeld.canGet_iff (h : InodesHeld s s₁ extra lock) :
    CanGet s₁ n ↔ TableHolds s (insert n extra.toFinset) := by
  rw [h.ok.table.canGet_iff, TableHolds, TableHolds, h.inTable_eq]
  have hset : {n} ∪ (inTable s ∪ extra.toFinset) = insert n extra.toFinset ∪ inTable s := by
    ext m
    simp only [Finset.mem_union, Finset.mem_singleton, Finset.mem_insert]
    tauto
  rw [hset]

end

end Xv6.Proofs
