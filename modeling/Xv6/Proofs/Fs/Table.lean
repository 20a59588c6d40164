import Xv6.Proofs.Fs.Inv
import Xv6.Proofs.Log.Ops
import Xv6.Lib.Wp

/-!
# `Xv6.Proofs.Fs.Table`: the inode table in front of the disk

An inode that is in the table and has been read from disk is what its entry says, any other inode is
what the disk says. `eff` is this view. Changes of an entry change one inode of the view
(`eff_set`), and `iupdate` does not change the view at all.

The file system fails in two ways that no invariant excludes: the disk is full, or the log is.
`IoErr room` are these two errors under the condition that there is not enough `room`. So one
specification says both what a function does and that it does not fail if there is room. The room in
the log is counted in blocks (`Room`): `log_write` panics when the log is full, even for a block
that is in it already. So the blocks in the log, together with all that come before the last one,
have to be fewer than the log holds.
-/

set_option autoImplicit false

namespace Xv6.Proofs

open Lib Fs List
open Function (update_of_ne update_self)

variable {log : Log} {must : Finset Nat} {ws ws' : List Nat}

/-! ### The view -/

/-- The entry is in use and has been read from disk. -/
def Cached (s : Fs) (ip : InodeId) : Prop := 0 < (s.itable ip).ref ∧ (s.itable ip).valid = true

instance (s : Fs) (ip : InodeId) : Decidable (Cached s ip) := inferInstanceAs (Decidable (_ ∧ _))

/-- The entry that holds inode `i`. -/
def entryOf (s : Fs) (i : Nat) : Option InodeId :=
  (List.finRange NINODE).find? fun ip => Cached s ip ∧ (s.itable ip).inum = i

/-- Inode `i` as the file system sees it. -/
def eff (s : Fs) (i : Nat) : Dinode :=
  if i < s.sb.ninodes then
    (entryOf s i).elim (dinodeOf s.sb s.disk i) fun ip => (s.itable ip).toDinode
  else Dinode.zero

structure TableOk (s : Fs) : Prop where
  unique : ∀ ip jp, 0 < (s.itable ip).ref → 0 < (s.itable jp).ref →
    (s.itable ip).inum = (s.itable jp).inum → ip = jp
  inum : ∀ ip, 0 < (s.itable ip).ref → 1 ≤ (s.itable ip).inum ∧ (s.itable ip).inum < s.sb.ninodes
  fits : ∀ ip, Cached s ip → FieldsFit (s.itable ip).toDinode

variable {s s' : Fs} {ip : InodeId}

/-- An entry that has been read is what the file system sees of its inode. -/
theorem eff_cached (h : TableOk s) (hc : Cached s ip) :
    eff s (s.itable ip).inum = (s.itable ip).toDinode := by
  have hsome : entryOf s (s.itable ip).inum = some ip := by
    cases hfind : entryOf s (s.itable ip).inum with
    | none =>
      have hnone := find?_eq_none.mp hfind ip (mem_finRange ip)
      simp [hc] at hnone
    | some jp =>
      have hjp := find?_some hfind
      simp only [decide_eq_true_eq] at hjp
      rw [h.unique jp ip hjp.1.1 hc.1 hjp.2]
  rw [eff, if_pos (h.inum ip hc.1).2, hsome]
  rfl

theorem eff_disk {i : Nat} (hi : i < s.sb.ninodes)
    (hnone : ∀ ip, Cached s ip → (s.itable ip).inum ≠ i) : eff s i = dinodeOf s.sb s.disk i := by
  have hnone : entryOf s i = none := by
    refine find?_eq_none.mpr fun ip _ => ?_
    simp only [decide_eq_true_eq]
    rintro ⟨hc, hinum⟩
    exact hnone ip hc hinum
  rw [eff, if_pos hi, hnone]
  rfl

theorem eff_of_ge {i : Nat} (hi : s.sb.ninodes ≤ i) : eff s i = Dinode.zero :=
  if_neg (Nat.not_lt.mpr hi)

/-- The view of a changed state, inode by inode. -/
theorem eff_ext {node : Nat → Dinode} (h : TableOk s) (hge : ∀ i, s.sb.ninodes ≤ i →
      node i = Dinode.zero)
    (hcached : ∀ ip, Cached s ip → node (s.itable ip).inum = (s.itable ip).toDinode)
    (hdisk : ∀ i, i < s.sb.ninodes → (∀ ip, Cached s ip → (s.itable ip).inum ≠ i) →
      node i = dinodeOf s.sb s.disk i) : eff s = node := by
  funext i
  by_cases hi : i < s.sb.ninodes
  · by_cases hex : ∃ ip, Cached s ip ∧ (s.itable ip).inum = i
    · obtain ⟨ip, hc, rfl⟩ := hex
      rw [eff_cached h hc, hcached ip hc]
    · have hnone : ∀ ip, Cached s ip → (s.itable ip).inum ≠ i := fun ip hc heq => hex ⟨ip, hc, heq⟩
      rw [eff_disk hi hnone, hdisk i hi hnone]
  · rw [eff_of_ge (Nat.le_of_not_lt hi), hge i (Nat.le_of_not_lt hi)]

/-- One entry changes, and it stays the entry of its inode. -/
theorem TableOk.set (h : TableOk s) (hsb : s'.sb = s.sb) {i' : Inode}
    (htable : s'.itable = Function.update s.itable ip i') (hinum : i'.inum = (s.itable ip).inum)
    (href : 0 < i'.ref → 0 < (s.itable ip).ref)
    (hfits : 0 < i'.ref → i'.valid = true → FieldsFit i'.toDinode) : TableOk s' := by
  have hat := congrFun htable
  obtain ⟨hunique, hrange, hfit⟩ := h
  constructor <;> grind [Cached]

/-- The view after a change of an entry that has been read; its inode may change on disk as well. -/
theorem eff_set (h : TableOk s) (hc : Cached s ip) (hsb : s'.sb = s.sb) {i' : Inode}
    (htable : s'.itable = Function.update s.itable ip i') (hinum : i'.inum = (s.itable ip).inum)
    (href : 0 < i'.ref) (hvalid : i'.valid = true) (hfits : FieldsFit i'.toDinode)
    (hdisk : ∀ j, j < s.sb.ninodes → j ≠ (s.itable ip).inum →
      dinodeOf s.sb s'.disk j = dinodeOf s.sb s.disk j) :
    TableOk s' ∧ eff s' = Function.update (eff s) (s.itable ip).inum i'.toDinode := by
  have htable' : TableOk s' := h.set hsb htable hinum (fun _ => hc.1) fun _ _ => hfits
  have hat := congrFun htable
  have hcached : ∀ jp, Cached s' jp ↔ Cached s jp := by grind [Cached]
  refine ⟨htable', eff_ext htable' (fun j hj => ?_) (fun jp hjc => ?_) fun j hj hnone => ?_⟩
  · have hlt := (h.inum ip hc.1).2
    rw [hsb] at hj
    rw [update_of_ne (by omega), eff_of_ge hj]
  · have hunique := h.unique jp ip
    have hold := eff_cached h ((hcached jp).mp hjc)
    grind [Cached]
  · have hnone' : ∀ jp, Cached s jp → (s.itable jp).inum ≠ j := by grind
    rw [hsb] at hj
    rw [update_of_ne (hnone' ip hc).symm, eff_disk hj hnone', hsb,
      hdisk j hj (hnone' ip hc).symm]

/-! ### Room in the log -/

/-- The blocks that are in the log. -/
def logged (log : Log) : Finset Nat := (Finset.range log.lh.n.toNat).image log.lh.block

/-- The number of blocks at which `log_write` panics. -/
def capacity (log : Log) : Int := min LOGSIZE (log.size - 1)

/-- `log_write` does not panic. -/
def LogFits (log : Log) : Prop := 1 ≤ log.outstanding ∧ log.lh.n < capacity log

/-- The header counts its blocks, and lists each of them once. -/
structure HeaderOk (log : Log) : Prop where
  nonneg : 0 ≤ log.lh.n
  distinct : Set.InjOn log.lh.block (Finset.range log.lh.n.toNat)

/-- In a transaction, the log has room for the blocks `must`, and for one more that comes last. -/
structure Room (log : Log) (must : Finset Nat) : Prop extends HeaderOk log where
  outstanding : 1 ≤ log.outstanding
  room : ((logged log ∪ must).card : Int) < capacity log

theorem HeaderOk.card (h : HeaderOk log) : ((logged log).card : Int) = log.lh.n := by
  rw [logged, Finset.card_image_of_injOn h.distinct, Finset.card_range]
  exact Int.toNat_of_nonneg h.nonneg

theorem Room.fits (h : Room log must) : LogFits log := by
  have hcard := h.card
  have hsub : (logged log).card ≤ (logged log ∪ must).card :=
    Finset.card_le_card Finset.subset_union_left
  have hroom := h.room
  exact ⟨h.outstanding, by omega⟩

theorem Room.mono {must' : Finset Nat} (h : Room log must) (hmust : must' ⊆ must) :
    Room log must' := by
  refine ⟨h.toHeaderOk, h.outstanding, ?_⟩
  have hsub : (logged log ∪ must').card ≤ (logged log ∪ must).card :=
    Finset.card_le_card (Finset.union_subset_union_right hmust)
  have hroom := h.room
  omega

/-- The log after `log_write` of the blocks `ws`. -/
structure Logged (log log' : Log) (ws : List Nat) : Prop where
  outstanding : log'.outstanding = log.outstanding
  committing : log'.committing = log.committing
  size : log'.size = log.size
  mem : 0 ≤ log.lh.n → 0 ≤ log'.lh.n ∧ logged log' = logged log ∪ ws.toFinset
  ok : HeaderOk log → HeaderOk log'

theorem Logged.refl (log : Log) : Logged log log [] :=
  ⟨rfl, rfl, rfl, fun h => ⟨h, (Finset.union_empty _).symm⟩, id⟩

/-- Two calls, one after the other. -/
theorem Logged.trans {log₁ log₂ : Log} (h : Logged log log₁ ws) (h' : Logged log₁ log₂ ws') :
    Logged log log₂ (ws ++ ws') := by
  refine ⟨h'.outstanding.trans h.outstanding, h'.committing.trans h.committing,
    h'.size.trans h.size, fun hn => ?_, fun hok => h'.ok (h.ok hok)⟩
  obtain ⟨hn₁, hlogged₁⟩ := h.mem hn
  obtain ⟨hn₂, hlogged₂⟩ := h'.mem hn₁
  refine ⟨hn₂, ?_⟩
  rw [hlogged₂, hlogged₁, toFinset_append, Finset.union_assoc]

theorem Logged.capacity {log' : Log} (h : Logged log log' ws) : capacity log' = capacity log := by
  unfold Proofs.capacity
  rw [h.size]

/-- Blocks that were to come have come. -/
theorem Logged.room {log' : Log} (h : Logged log log' ws) (hws : ws.toFinset ⊆ must)
    (hroom : Room log must) : Room log' must := by
  refine ⟨h.ok hroom.toHeaderOk, h.outstanding.symm ▸ hroom.outstanding, ?_⟩
  rw [(h.mem hroom.nonneg).2, Finset.union_assoc, Finset.union_eq_right.mpr hws, h.capacity]
  exact hroom.room

/-- The log with the blocks `ws` has room for one more, so there was room for them. -/
theorem Logged.room_of_fits {log' : Log} (h : Logged log log' ws) (hok : HeaderOk log)
    (hfits : LogFits log') : Room log ws.toFinset := by
  refine ⟨hok, h.outstanding ▸ hfits.1, ?_⟩
  rw [← (h.mem hok.nonneg).2, (h.ok hok).card, ← h.capacity]
  exact hfits.2

/-- The blocks in the log with one more. -/
theorem logged_insert (hn : 0 ≤ log.lh.n) (b : Nat) :
    (Finset.range (log.lh.n + 1).toNat).image
      (Function.update log.lh.block log.lh.n.toNat b) = insert b (logged log) := by
  have hsucc : (log.lh.n + 1).toNat = log.lh.n.toNat + 1 := by omega
  rw [hsucc, Finset.range_add_one, Finset.image_insert, update_self, logged]
  congr 1
  exact Finset.image_congr fun t ht =>
    update_of_ne (Nat.ne_of_lt (by simpa using ht)) _ _

/-- A block that is not in the header is put behind the others. -/
theorem HeaderOk.add (h : HeaderOk log) {b : Nat}
    (hnew : ∀ t < log.lh.n.toNat, log.lh.block t ≠ b) {log' : Log}
    (hn : log'.lh.n = log.lh.n + 1)
    (hblock : log'.lh.block = Function.update log.lh.block log.lh.n.toNat b) : HeaderOk log' := by
  have hnonneg := h.nonneg
  have hsucc : (log.lh.n + 1).toNat = log.lh.n.toNat + 1 := by omega
  have hold : ∀ t, t < log.lh.n.toNat →
      Function.update log.lh.block log.lh.n.toNat b t = log.lh.block t :=
    fun t ht => update_of_ne (Nat.ne_of_lt ht) _ _
  refine ⟨by omega, ?_⟩
  rw [hn, hblock, hsucc, Finset.range_add_one, Finset.coe_insert]
  refine (Set.injOn_insert (by simp)).mpr ⟨fun t ht t' ht' heq => ?_, ?_⟩
  · rw [hold t (by simpa using ht), hold t' (by simpa using ht')] at heq
    exact h.distinct ht ht' heq
  · rw [update_self]
    rintro ⟨t, ht, heq⟩
    rw [hold t (by simpa using ht)] at heq
    exact hnew t (by simpa using ht) heq

/-- `log_write` adds its block to the log, if it is not there yet. -/
theorem logged_of_logWrite {log' : Log} {b : Nat} {added : Bool}
    (h : log.logWrite b = .ok (log', added)) : Logged log log' [b] := by
  have hfields : log'.outstanding = log.outstanding ∧ log'.committing = log.committing ∧
      log'.size = log.size := by
    unfold Log.logWrite at h
    split at h
    · cases h
    split at h
    · cases h
    · simp only at h
      split at h <;> cases h <;> exact ⟨rfl, rfl, rfl⟩
  refine ⟨hfields.1, hfields.2.1, hfields.2.2, fun hn => ?_, fun hok => ?_⟩
  · obtain ⟨-, ⟨-, ⟨t, ht, hblock⟩, rfl⟩ | ⟨-, -, rfl⟩⟩ := logWrite_ok h hn
    · have hmem : b ∈ logged log' :=
        Finset.mem_image.mpr ⟨t, Finset.mem_range.mpr ht, hblock⟩
      simp [hn, hmem]
    · refine ⟨by simp; omega, ?_⟩
      rw [logged, logged_insert hn, toFinset_cons, toFinset_nil,
        Finset.union_insert, Finset.union_empty]
  · obtain ⟨-, ⟨-, -, rfl⟩ | ⟨-, hnew, rfl⟩⟩ := logWrite_ok h hok.nonneg
    · exact hok
    · exact hok.add hnew rfl rfl

/-! ### Errors -/

/-- The disk or the log is full, and there was no `room`. -/
def IoErr (room : Prop) (e : FsPanic) : Prop :=
  (e = .outOfBlocks ∨ ∃ l, e = .log l) ∧ ¬ room

theorem IoErr.mono {room room' : Prop} (h : room' → room) (e : FsPanic) (he : IoErr room e) :
    IoErr room' e := ⟨he.1, fun hr => he.2 (h hr)⟩

/-! ### What a function leaves alone -/

/-- The superblock stays, and `log_write` was called for the blocks `ws`. -/
structure Writes (s s' : Fs) (ws : List Nat) : Prop where
  sb : s'.sb = s.sb
  writes : s'.writes = s.writes ++ ws
  log : Logged s.log s'.log ws

theorem Writes.refl (s : Fs) : Writes s s [] := ⟨rfl, (append_nil _).symm, Logged.refl _⟩

theorem Writes.trans {s₁ s₂ : Fs} (h : Writes s s₁ ws) (h' : Writes s₁ s₂ ws') :
    Writes s s₂ (ws ++ ws') where
  sb := h'.sb.trans h.sb
  writes := by rw [h'.writes, h.writes, append_assoc]
  log := h.log.trans h'.log

/-- Nothing else on the disk changes. -/
structure Updates (s s' : Fs) (ws : List Nat) : Prop extends Writes s s' ws where
  disk : ∀ a, a ∉ ws → s'.disk a = s.disk a

theorem Updates.refl (s : Fs) : Updates s s [] := ⟨.refl s, fun _ _ => rfl⟩

theorem Updates.trans {s₁ s₂ : Fs} (h : Updates s s₁ ws) (h' : Updates s₁ s₂ ws') :
    Updates s s₂ (ws ++ ws') where
  toWrites := h.toWrites.trans h'.toWrites
  disk a ha := by
    rw [mem_append, not_or] at ha
    rw [h'.disk a ha.2, h.disk a ha.1]

/-- `log_write` changes the log only, and panics if it has no room. -/
theorem log_write_spec (b : Nat) (s : Fs) :
    wp (log_write b) (fun _ s' => LogFits s.log ∧ Writes s s' [b] ∧ s'.disk = s.disk ∧
        s'.itable = s.itable)
      (IoErr (LogFits s.log)) s := by
  cases hlog : s.log.logWrite b with
  | error e =>
    have hrun : (log_write b).run s = .error (.log e) := by simp [log_write, StateT.run, hlog]
    refine wp_of_error hrun ⟨.inr ⟨e, rfl⟩, fun hfits => ?_⟩
    have hlt := hfits.2
    have hout := hfits.1
    unfold capacity at hlt
    unfold Log.logWrite at hlog
    rw [if_neg (by omega), if_neg (by omega)] at hlog
    simp only at hlog
    split at hlog <;> cases hlog
  | ok r =>
    have hrun : (log_write b).run s
        = .ok ((), { s with log := r.1, writes := s.writes ++ [b] }) := by
      simp [log_write, StateT.run, hlog]
    refine wp_of_ok hrun ⟨?_, ⟨rfl, rfl, logged_of_logWrite hlog⟩, rfl, rfl⟩
    unfold Log.logWrite at hlog
    split at hlog
    · cases hlog
    split at hlog
    · cases hlog
    · unfold LogFits capacity
      omega

/-- A block is read, changed and logged. -/
theorem update_spec (b : Nat) (f : Block → Block) (s : Fs) :
    wp (update b f) (fun _ s' => LogFits s.log ∧ Updates s s' [b] ∧
        s'.disk = Function.update s.disk b (f (s.disk b)) ∧ s'.itable = s.itable)
      (IoErr (LogFits s.log)) s := by
  unfold update setBlock
  rw [wp_bind, wp_modify]
  refine wp_post (log_write_spec b _) ?_
  rintro - s' ⟨hfits, hw, hdisk, htable⟩
  refine ⟨hfits, ⟨⟨hw.sb, hw.writes, hw.log⟩, fun a ha => ?_⟩, hdisk, htable⟩
  rw [hdisk]
  exact update_of_ne (by simpa using ha) _ _

theorem wp_setBlock {b : Nat} {f : Block → Block} {Q : Unit → Fs → Prop} {E : FsPanic → Prop}
    (h : ∀ s', Writes s s' [] → s'.itable = s.itable →
      s'.disk = Function.update s.disk b (f (s.disk b)) → Q () s') :
    wp (setBlock b f) Q E s := by
  unfold setBlock
  rw [wp_modify]
  exact h _ ⟨rfl, (append_nil _).symm, .refl _⟩ rfl rfl

theorem wp_modifyInode {f : Inode → Inode} {Q : Unit → Fs → Prop} {E : FsPanic → Prop}
    (h : ∀ s', Updates s s' [] → s'.disk = s.disk →
      s'.itable = Function.update s.itable ip (f (s.itable ip)) → Q () s') :
    wp (modifyInode ip f) Q E s := by
  unfold modifyInode
  rw [wp_modify]
  exact h _ ⟨⟨rfl, (append_nil _).symm, .refl _⟩, fun _ _ => rfl⟩ rfl rfl

end Xv6.Proofs
