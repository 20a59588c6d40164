import Xv6.Proofs.Fs.Blocks
import Mathlib.Order.Interval.Finset.Nat

/-!
# `Xv6.Proofs.Fs.Contents`: files as arrays of bytes

The contents of an inode are the bytes at the offsets below its size. `readi` delivers them, and
`writei` replaces a range of them and extends them if the range ends behind the size.

The loops go over the blocks that a range of offsets touches. A round of `writei` adds a block to
the file if there is none (`Grown`) and then changes bytes of that block only. `FileWrote` is the
relation between the states before and after any number of rounds; its two parts for the bytes are
that the bytes outside the range are kept and that those inside are the ones of the source.
-/

set_option autoImplicit false

namespace Xv6.Proofs

open Lib Fs List
open Function (update_eq_self update_idem update_of_ne update_self)

variable {s : Fs} {ip : InodeId}

variable {b m : Nat}

/-- Offsets in one block. -/
theorem pos_split (off i : Nat) (hi : off % BSIZE + i < BSIZE) :
    (off + i) / BSIZE = off / BSIZE ∧ (off + i) % BSIZE = off % BSIZE + i := by
  rw [BSIZE_eq] at *
  omega

/-! ### Reading -/

/-- The bytes of a file from `off` on. -/
def bytesFrom (disk : Disk) (d : Dinode) (off n : Nat) : List UInt8 :=
  (List.range n).map fun i => byteAt disk d (off + i)

/-- The contents of inode `i`. -/
def contents (s : Fs) (i : Nat) : List UInt8 := bytesFrom s.disk (eff s i) 0 (eff s i).size

theorem bytesFrom_add (disk : Disk) (d : Dinode) (off m n : Nat) :
    bytesFrom disk d off (m + n) = bytesFrom disk d off m ++ bytesFrom disk d (off + m) n := by
  unfold bytesFrom
  rw [range_add, map_append, map_map]
  congr 2
  funext i
  rw [Function.comp_apply, Nat.add_assoc]

/-- The bytes that one round of `readi` copies. -/
theorem getBytes_block (disk : Disk) (d : Dinode) {off : Nat} (hm : off % BSIZE + m ≤ BSIZE) :
    getBytes (disk (fileBlock disk d (off / BSIZE))) (off % BSIZE) m = bytesFrom disk d off m := by
  unfold getBytes bytesFrom
  refine map_congr_left fun i hi => ?_
  have hsplit := pos_split off i (by have := mem_range.mp hi; omega)
  rw [byteAt, hsplit.1, hsplit.2]

/-- A read below the size changes nothing, and delivers the bytes if all copies succeed. -/
theorem readiLoop_spec {dst : Dest} (hfull : ∀ bn, bn * BSIZE < (s.itable ip).size →
      fileBlock s.disk (s.itable ip).toDinode bn ≠ 0) :
    ∀ rounds off tot n, n - tot ≤ rounds → tot ≤ n → off + (n - tot) ≤ (s.itable ip).size →
      wp (readiLoop ip dst rounds off tot n)
        (fun r s' => s' = s ∧ ((∀ tot m, dst tot m = true) →
          r = (bytesFrom s.disk (s.itable ip).toDinode off (n - tot), (n : Int))))
        (fun _ => False) s := by
  intro rounds
  induction rounds with
  | zero =>
    intro off tot n hrounds htot hsize
    obtain rfl : tot = n := by omega
    rw [readiLoop, wp_pure, Nat.sub_self]
    exact ⟨rfl, fun _ => rfl⟩
  | succ rounds ih =>
    intro off tot n hrounds htot hsize
    rw [readiLoop]
    refine wp_ite (fun hlt => ?_) fun hge => ?_
    · have hpos : off % BSIZE < BSIZE := Nat.mod_lt _ (by decide)
      have hne : fileBlock s.disk (s.itable ip).toDinode (off / BSIZE) ≠ 0 := by
        refine hfull _ ?_
        have := Nat.div_mul_le_self off BSIZE
        omega
      rw [wp_bind]
      refine wp_post (bmap_of_ne_zero hne) ?_
      rintro b s' ⟨rfl, rfl⟩
      rw [wp_bind, wp_get]
      set m := min (n - tot) (BSIZE - off % BSIZE) with hm
      refine wp_ite (fun _ => ?_) fun hcopy => ?_
      · rw [wp_bind]
        refine wp_post (ih (off + m) (tot + m) n (by omega) (by omega) (by omega)) ?_
        rintro r s' ⟨rfl, hr⟩
        rw [wp_pure]
        refine ⟨rfl, fun hdst => ?_⟩
        rw [hr hdst, getBytes_block _ _ (by omega), ← bytesFrom_add]
        congr 2
        omega
      · rw [wp_pure]
        exact ⟨rfl, fun hdst => absurd (hdst _ _) hcopy⟩
    · obtain rfl : tot = n := by omega
      rw [wp_pure, Nat.sub_self]
      exact ⟨rfl, fun _ => rfl⟩

/-- `readi` delivers the bytes from `off` up to the size. -/
theorem readi_spec {dst : Dest} (hfull : ∀ bn, bn * BSIZE < (s.itable ip).size →
      fileBlock s.disk (s.itable ip).toDinode bn ≠ 0) {off n : Nat} (hoff : off < 2 ^ 32)
    (hn : n < 2 ^ 32) :
    wp (readi ip dst off n)
      (fun r s' => s' = s ∧
        ((s.itable ip).size < off ∨ 2 ^ 32 ≤ off + n → r = ([], 0)) ∧
        (off ≤ (s.itable ip).size → off + n < 2 ^ 32 → (∀ tot m, dst tot m = true) →
          r = (bytesFrom s.disk (s.itable ip).toDinode off (min n ((s.itable ip).size - off)),
            ((min n ((s.itable ip).size - off) : Nat) : Int))))
      (fun _ => False) s := by
  unfold readi
  rw [wp_bind, wp_get]
  refine wp_ite (fun hout => ?_) fun hin => ?_
  · rw [wp_pure]
    exact ⟨rfl, fun _ => rfl, fun hle hlt _ => by omega⟩
  · have hlt : off + n < 2 ^ 32 := by omega
    rw [Nat.mod_eq_of_lt hlt]
    have hcut : (if (s.itable ip).size < off + n then (s.itable ip).size - off else n)
        = min n ((s.itable ip).size - off) := by
      split <;> omega
    simp only [hcut]
    have hloop := @readiLoop_spec s ip dst hfull (min n ((s.itable ip).size - off))
      off 0 (min n ((s.itable ip).size - off)) (by omega) (Nat.zero_le _) (by omega)
    rw [Nat.sub_zero] at hloop
    refine wp_post hloop ?_
    rintro r s' ⟨rfl, hr⟩
    exact ⟨rfl, fun hout => by omega, fun _ _ hdst => hr hdst⟩

/-! ### Outside of a transaction -/

section

variable {bn : Nat} (hout : s.log.outstanding < 1)
include hout

/-- Outside of a transaction, `log_write` panics. -/
theorem update_outside (b : Nat) (f : Block → Block) (Q : Unit → Fs → Prop) :
    wp (Fs.update b f) Q (fun _ => True) s := by
  have hpanics : ∃ e, s.log.logWrite b = .error e := by
    unfold Log.logWrite
    rw [if_pos hout]
    split <;> exact ⟨_, rfl⟩
  obtain ⟨e, he⟩ := hpanics
  unfold Fs.update
  rw [wp_bind]
  show wp (log_write b) Q _ _
  refine wp_of_error (e := .log e) ?_ trivial
  show log_write b _ = _
  unfold log_write
  simp only [he]

/-- Outside of a transaction, nothing can be allocated. -/
theorem balloc_outside : wp balloc (fun _ _ => False) (fun _ => True) s := by
  have hloop : ∀ rounds b, wp (ballocLoop rounds b) (fun _ _ => False) (fun _ => True) s := by
    intro rounds
    induction rounds with
    | zero => exact fun _ => trivial
    | succ rounds ih =>
      intro b
      rw [ballocLoop, wp_bind, wp_get]
      refine wp_ite (fun _ => ?_) fun _ => trivial
      split
      · exact ih _
      · rw [wp_bind]
        exact update_outside hout _ _ _
  unfold balloc
  rw [wp_bind, wp_get]
  exact hloop _ _

theorem getAddr_outside (k : Fin (NDIRECT + 1)) :
    wp (getAddr ip k) (fun a s' => a = (s.itable ip).addrs k ∧ a ≠ 0 ∧ s' = s) (fun _ => True)
      s := by
  unfold getAddr
  rw [wp_bind, wp_get]
  refine wp_ite (fun _ => ?_) fun hne => ⟨rfl, hne, rfl⟩
  rw [wp_bind]
  exact wp_post (balloc_outside hout) fun _ _ hfalse => hfalse.elim

/-- Outside of a transaction, `bmap` of a block that does not exist panics. -/
theorem bmap_outside (hnone : fileBlock s.disk (s.itable ip).toDinode bn = 0) :
    wp (bmap ip bn) (fun _ _ => False) (fun _ => True) s := by
  unfold bmap
  split
  · rename_i hbn
    rw [fileBlock_of_ptrOf (ptrOf_direct hbn)] at hnone
    exact wp_post (getAddr_outside hout _) fun a s' h => h.2.1 (h.1.trans hnone)
  · rename_i hbn
    refine wp_ite (fun hind => ?_) fun _ => trivial
    rw [fileBlock_of_ptrOf (ptrOf_indirect hbn hind), ptr_entry] at hnone
    rw [wp_bind]
    refine wp_post (getAddr_outside hout _) ?_
    rintro ind s' ⟨rfl, hne, rfl⟩
    rw [wp_bind, wp_get]
    refine wp_ite (fun _ => ?_) fun hentry => absurd ((if_neg hne).symm.trans hnone) hentry
    rw [wp_bind]
    exact wp_post (balloc_outside hout) fun _ _ hfalse => hfalse.elim

/-- Outside of a transaction, a read of a block that does not exist panics. -/
theorem readi_outside {dst : Dest} (hbn : bn * BSIZE < (s.itable ip).size)
    (hsize : (s.itable ip).size < 2 ^ 32)
    (hnone : fileBlock s.disk (s.itable ip).toDinode bn = 0) :
    wp (readi ip dst (bn * BSIZE) 1) (fun _ _ => False) (fun _ => True) s := by
  have hmod : (bn * BSIZE + 1) % 2 ^ 32 = bn * BSIZE + 1 := Nat.mod_eq_of_lt (by omega)
  unfold readi
  rw [wp_bind, wp_get, hmod]
  refine wp_ite (fun hout => by omega) fun _ => ?_
  simp only [if_neg (by omega : ¬ (s.itable ip).size < bn * BSIZE + 1)]
  rw [readiLoop, if_pos Nat.zero_lt_one, wp_bind, Nat.mul_div_cancel _ (by decide : 0 < BSIZE)]
  exact wp_post (bmap_outside hout hnone) fun _ _ hfalse => hfalse.elim

end

/-! ### Changing the bytes of a file -/

/-- A write to the file of `ip`: it may get blocks at the indices `T`, and bytes at the offsets `R`
may change. -/
structure FileWrote (s s' : Fs) (ip : InodeId) (T : Finset Nat) (R : Nat → Prop) (ws : List Nat) :
    Prop where
  ok : FsOk s'
  writes : Writes s s' ws
  itable : ∃ as, s'.itable = Function.update s.itable ip
    ((s.itable ip).withDinode ((s.itable ip).toDinode.withAddrs as))
  eff : ∀ j, j ≠ (s.itable ip).inum → eff s' j = eff s j
  live : Live s.sb (Proofs.eff s') (s.itable ip).inum
  others : ∀ j, Live s.sb (Proofs.eff s) j → j ≠ (s.itable ip).inum → ∀ x,
    fileBlock s.disk (Proofs.eff s j) (x / BSIZE) ≠ 0 →
    fileBlock s'.disk (Proofs.eff s j) (x / BSIZE) ≠ 0 ∧
    byteAt s'.disk (Proofs.eff s j) x = byteAt s.disk (Proofs.eff s j) x
  ind : (s.itable ip).ind ≠ 0 → (s'.itable ip).ind = (s.itable ip).ind
  blocks : ∀ bn, fileBlock s.disk (s.itable ip).toDinode bn ≠ 0 →
    fileBlock s'.disk (s'.itable ip).toDinode bn = fileBlock s.disk (s.itable ip).toDinode bn
  kept : ∀ bn, bn ∉ T →
    fileBlock s'.disk (s'.itable ip).toDinode bn = fileBlock s.disk (s.itable ip).toDinode bn
  bytes : ∀ x, fileBlock s.disk (s.itable ip).toDinode (x / BSIZE) ≠ 0 → ¬ R x →
    byteAt s'.disk (s'.itable ip).toDinode x = byteAt s.disk (s.itable ip).toDinode x

section

variable {s₁ s₂ : Fs} {T T' : Finset Nat} {R R' : Nat → Prop} {ws ws' : List Nat}

section

variable (h : FileWrote s s₁ ip T R ws)
include h

theorem FileWrote.entry :
    ∃ as, s₁.itable ip = (s.itable ip).withDinode ((s.itable ip).toDinode.withAddrs as) := by
  obtain ⟨as, htable⟩ := h.itable
  exact ⟨as, by rw [htable, update_self]⟩

theorem FileWrote.inum : (s₁.itable ip).inum = (s.itable ip).inum := by
  obtain ⟨as, hentry⟩ := h.entry
  rw [hentry]
  rfl

theorem FileWrote.cached (hc : Cached s ip) : Cached s₁ ip := by
  obtain ⟨as, hentry⟩ := h.entry
  unfold Cached
  rw [hentry]
  exact hc

theorem FileWrote.live' : Live s₁.sb (Proofs.eff s₁) (s₁.itable ip).inum := by
  rw [h.writes.sb, h.inum]
  exact h.live

end

theorem FileWrote.refl (hok : FsOk s) (hlive : Live s.sb (Proofs.eff s) (s.itable ip).inum) :
    FileWrote s s ip T R [] where
  ok := hok
  writes := .refl s
  itable := ⟨(s.itable ip).addrs, (update_eq_self ip s.itable).symm⟩
  eff _ _ := rfl
  live := hlive
  others _ _ _ _ hne := ⟨hne, rfl⟩
  ind _ := rfl
  blocks _ _ := rfl
  kept _ _ := rfl
  bytes _ _ _ := rfl

theorem FileWrote.mono (h : FileWrote s s₁ ip T R ws) (hT : T ⊆ T') (hR : ∀ x, R x → R' x) :
    FileWrote s s₁ ip T' R' ws :=
  { h with
    kept := fun bn hbn => h.kept bn fun hmem => hbn (hT hmem)
    bytes := fun x hx hnot => h.bytes x hx fun hr => hnot (hR x hr) }

/-- Two writes to one file. -/
theorem FileWrote.trans (h : FileWrote s s₁ ip T R ws) (h' : FileWrote s₁ s₂ ip T R ws') :
    FileWrote s s₂ ip T R (ws ++ ws') where
  ok := h'.ok
  writes := h.writes.trans h'.writes
  itable := by
    obtain ⟨as, htable⟩ := h.itable
    obtain ⟨as', htable'⟩ := h'.itable
    refine ⟨as', ?_⟩
    rw [htable', htable, update_self, update_idem]
    rfl
  eff j hj := by rw [h'.eff j (h.inum ▸ hj), h.eff j hj]
  live := by
    have hlive := h'.live
    rwa [h.writes.sb, h.inum] at hlive
  others j hj hne x hx := by
    obtain ⟨hblock, hbyte⟩ := h.others j hj hne x hx
    have heff := h.eff j hne
    have hj₁ : Live s₁.sb (Proofs.eff s₁) j := by
      unfold Live
      rw [h.writes.sb, heff]
      exact hj
    obtain ⟨hblock', hbyte'⟩ := h'.others j hj₁ (h.inum ▸ hne) x (heff.symm ▸ hblock)
    rw [heff] at hblock' hbyte'
    exact ⟨hblock', hbyte'.trans hbyte⟩
  ind hne := by
    have hind := h.ind hne
    rw [h'.ind (hind ▸ hne), hind]
  blocks bn hne := by
    have hblock := h.blocks bn hne
    rw [h'.blocks bn (hblock ▸ hne), hblock]
  kept bn hbn := by rw [h'.kept bn hbn, h.kept bn hbn]
  bytes x hx hR := by
    rw [h'.bytes x (h.blocks _ hx ▸ hx) hR, h.bytes x hx hR]

end

/-- `bmap` as a write of nothing. -/
theorem Bmapped.wrote {s' : Fs} {bn : Nat} {new ws : List Nat} (h : Bmapped s s' ip bn b new ws)
    (hok : FsOk s) (hc : Cached s ip) (hlive : Live s.sb (eff s) (s.itable ip).inum) :
    FileWrote s s' ip {bn} (fun _ => False) ws := by
  have heff : eff s (s.itable ip).inum = (s.itable ip).toDinode := eff_cached hok.table hc
  have heff' : eff s' (s.itable ip).inum = (s'.itable ip).toDinode := by
    rw [← h.inum]
    exact eff_cached h.ok.table (h.toMapped.cached hc)
  have hother : ∀ j, j ≠ (s.itable ip).inum → eff s' j = eff s j := by
    intro j hj
    obtain ⟨as, hnode⟩ := h.grown.addrs
    rw [hnode, update_of_ne hj]
  refine ⟨h.ok, h.writes.toWrites, h.itable, hother, (h.grown.live _).mpr hlive,
    fun j hj hne x hx => ?_, fun hne => h.ind (.inl hne), fun bn' hbn' => ?_,
    fun bn' hbn' => h.blocks bn' (by simpa using hbn'), fun x hx _ => ?_⟩
  · have hblock := h.grown.fileBlock_eq hj hx
    have hbyte := h.grown.byteAt_eq hj hx
    rw [hother j hne] at hblock hbyte
    exact ⟨hblock ▸ hx, hbyte⟩
  · rw [← heff] at hbn' ⊢
    rw [← heff', h.grown.fileBlock_eq hlive hbn']
  · rw [← heff] at hx ⊢
    rw [← heff', h.grown.byteAt_eq hlive hx]

/-- Bytes of one block of the file are stored. -/
theorem wrote_setBlock {s' : Fs} (hok : FsOk s) (hc : Cached s ip)
    (hlive : Live s.sb (eff s) (s.itable ip).inum) {bn : Nat} (hbn : bn < MAXFILE)
    (hne : fileBlock s.disk (s.itable ip).toDinode bn ≠ 0) {x : Block} {R : Nat → Prop}
    (hx : ∀ o, o < BSIZE → ¬ R (bn * BSIZE + o) →
      x o = s.disk (fileBlock s.disk (s.itable ip).toDinode bn) o)
    (hw : Writes s s' []) (htable : s'.itable = s.itable)
    (hdisk : s'.disk
      = Function.update s.disk (fileBlock s.disk (s.itable ip).toDinode bn) x) :
    FileWrote s s' ip {bn} R [] := by
  have heff : eff s (s.itable ip).inum = (s.itable ip).toDinode := eff_cached hok.table hc
  obtain ⟨p, hp⟩ := ptrOf_isSome hbn
  have hblock : fileBlock s.disk (s.itable ip).toDinode bn
      = ptr s.disk (eff s (s.itable ip).inum) p := by rw [fileBlock_of_ptrOf hp, heff]
  rw [hblock] at hne hx hdisk
  set a := ptr s.disk (eff s (s.itable ip).inum) p with ha
  have hpind : p ≠ .addr (Fin.last NDIRECT) := ptrOf_ne_ind hp
  have hrange := hok.alloc.ptr_range hlive hne
  obtain ⟨htab, heff'⟩ := @eff_set s s' ip hok.table hc hw.sb (s.itable ip)
    (by rw [htable, update_eq_self]) rfl hc.1 hc.2 (hok.table.fits ip hc)
    fun j hj _ => by rw [hdisk, dinodeOf_update_data hok.layout hrange.1 hj]
  rw [← heff, update_eq_self] at heff'
  -- all places are as before
  have hptr : ∀ j, Live s.sb (eff s) j → ∀ q, ptr s'.disk (eff s j) q = ptr s.disk (eff s j) q := by
    intro j hj q
    rw [hdisk]
    exact hok.alloc.ptr_write hlive hpind x hj q
  have hblocks : ∀ j, Live s.sb (eff s) j → ∀ bn',
      fileBlock s'.disk (eff s j) bn' = fileBlock s.disk (eff s j) bn' := by
    intro j hj bn'
    unfold fileBlock
    cases ptrOf bn' with
    | none => rfl
    | some q => exact hptr j hj q
  -- a byte changes only in this block of this file
  have hbytes : ∀ j, Live s.sb (eff s) j → ∀ y, fileBlock s.disk (eff s j) (y / BSIZE) ≠ 0 →
      (j = (s.itable ip).inum → ¬ R y) →
      byteAt s'.disk (eff s j) y = byteAt s.disk (eff s j) y := by
    intro j hj y hy hR
    have hfile : fileBlock s.disk (eff s (s.itable ip).inum) bn = a := fileBlock_of_ptrOf hp
    have hbyte := hok.alloc.byteAt_write hlive (hfile.symm ▸ hne) x hj hy
    rw [hfile, ← hdisk] at hbyte
    rw [hbyte]
    split
    · rename_i hsame
      obtain ⟨rfl, rfl⟩ := hsame
      rw [hx _ (Nat.mod_lt _ (by decide)) (by rw [Nat.div_add_mod']; exact hR rfl), byteAt, hfile]
    · rfl
  refine ⟨⟨hw.sb ▸ hok.layout, htab, ?_⟩, hw, ?_, fun j _ => congrFun heff' j,
    heff'.symm ▸ hlive, fun j hj hji y hy => ⟨(hblocks j hj _).symm ▸ hy,
      hbytes j hj y hy fun h => absurd h hji⟩, fun _ => by rw [htable], fun bn' _ => ?_,
    fun bn' _ => ?_, fun y hy hR => ?_⟩
  · rw [hw.sb, heff', hdisk]
    exact hok.alloc.write hlive hpind hne x
  · exact ⟨(s.itable ip).addrs, by rw [htable]; exact (update_eq_self ip s.itable).symm⟩
  · rw [htable, ← heff]
    exact hblocks _ hlive bn'
  · rw [htable, ← heff]
    exact hblocks _ hlive bn'
  · rw [htable, ← heff]
    exact hbytes _ hlive y (heff.symm ▸ hy) fun _ => hR

/-- The blocks of a file are data blocks. -/
theorem fileBlock_range (hok : FsOk s) (hc : Cached s ip)
    (hlive : Live s.sb (eff s) (s.itable ip).inum) {bn : Nat}
    (hne : fileBlock s.disk (s.itable ip).toDinode bn ≠ 0) :
    nmeta s.sb ≤ fileBlock s.disk (s.itable ip).toDinode bn ∧
      fileBlock s.disk (s.itable ip).toDinode bn < s.sb.size := by
  rw [← eff_cached hok.table hc] at hne ⊢
  unfold fileBlock at hne ⊢
  cases hp : ptrOf bn with
  | none =>
    rw [hp] at hne
    exact absurd rfl hne
  | some p =>
    rw [hp] at hne
    exact hok.alloc.ptr_range hlive hne

/-! ### The blocks of a range -/

/-- The block indices of the offsets from `off` on. -/
def touched (off n : Nat) : Finset Nat :=
  if n = 0 then ∅ else Finset.Ico (off / BSIZE) ((off + n - 1) / BSIZE + 1)

/-- The blocks that the offsets from `off` on lie in. -/
theorem mem_touched {off n bn : Nat} :
    bn ∈ touched off n ↔ ∃ x, off ≤ x ∧ x < off + n ∧ x / BSIZE = bn := by
  unfold touched
  split
  · rename_i hn
    simp only [Finset.notMem_empty, false_iff]
    rintro ⟨x, hx, hx', -⟩
    omega
  · rw [Finset.mem_Ico, BSIZE_eq]
    constructor
    · intro h
      refine ⟨max off (bn * 1024), ?_, ?_, ?_⟩ <;> omega
    · rintro ⟨x, hx, hx', rfl⟩
      omega

/-- The first round takes the first block. -/
theorem touched_step (off n : Nat) (hn : 0 < n) (hm : m = min n (BSIZE - off % BSIZE)) :
    touched off n = insert (off / BSIZE) (touched (off + m) (n - m)) ∧
      off / BSIZE ∉ touched (off + m) (n - m) := by
  have hpos : off % BSIZE < BSIZE := Nat.mod_lt _ (by decide)
  refine ⟨?_, fun hmem => ?_⟩
  · ext bn
    rw [Finset.mem_insert, mem_touched, mem_touched]
    constructor
    · rintro ⟨x, hx, hx', rfl⟩
      by_cases hfirst : x < off + m
      · left
        rw [BSIZE_eq] at *
        omega
      · exact .inr ⟨x, by omega, by omega, rfl⟩
    · rintro (rfl | ⟨x, hx, hx', rfl⟩)
      · exact ⟨off, Nat.le_refl _, by omega, rfl⟩
      · exact ⟨x, by omega, by omega, rfl⟩
  · obtain ⟨x, hx, hx', hdiv⟩ := mem_touched.mp hmem
    rw [BSIZE_eq] at *
    omega

/-- The indirect block that is missing for blocks at the indices `T`. -/
def indNeed (d : Dinode) (T : Finset Nat) : Nat :=
  if d.ind = 0 ∧ ∃ bn ∈ T, NDIRECT ≤ bn then 1 else 0

/-- The number of blocks that are missing at the indices `T`. -/
def missing (disk : Disk) (d : Dinode) (T : Finset Nat) : Nat :=
  (T.filter fun bn => fileBlock disk d bn = 0).card + indNeed d T

/-- The blocks that a write to the blocks at `T` logs before the inode: those that it takes, which
are the first free ones, with their bits, those that are there, and the indirect block if it gets
an entry. -/
def loggedBy (s : Fs) (ip : InodeId) (T : Finset Nat) : Finset Nat :=
  (takenLog s.sb ((freeBlocks s.sb s.disk).take
    (missing s.disk (s.itable ip).toDinode T))).toFinset ∪
  (T.image (fileBlock s.disk (s.itable ip).toDinode)).erase 0 ∪
  if (s.itable ip).ind ≠ 0 ∧
      ∃ bn ∈ T, NDIRECT ≤ bn ∧ fileBlock s.disk (s.itable ip).toDinode bn = 0 then
    {(s.itable ip).ind}
  else ∅

/-- Room for a write to the blocks at `T`, on the disk and in the log. -/
structure RoomAt (s : Fs) (ip : InodeId) (T : Finset Nat) : Prop where
  free : missing s.disk (s.itable ip).toDinode T ≤ (freeBlocks s.sb s.disk).length
  log : Room s.log (loggedBy s ip T)

/-- A part of a write to the blocks at `T`, after which the blocks at `T'` are to be written. It has
logged the blocks `ws`. -/
structure Spent (s s' : Fs) (ip : InodeId) (T T' : Finset Nat) (ws : List Nat) : Prop where
  free : missing s.disk (s.itable ip).toDinode T + (freeBlocks s'.sb s'.disk).length
    = missing s'.disk (s'.itable ip).toDinode T' + (freeBlocks s.sb s.disk).length
  logs : loggedBy s ip T = ws.toFinset ∪ loggedBy s' ip T'

section

variable {T T' T'' : Finset Nat} {bn : Nat} {s' s'' : Fs} {new ws ws' : List Nat}

theorem Spent.trans (h : Spent s s' ip T T' ws) (h' : Spent s' s'' ip T' T'' ws') :
    Spent s s'' ip T T'' (ws ++ ws') := by
  refine ⟨?_, by rw [h.logs, h'.logs, toFinset_append, Finset.union_assoc]⟩
  have hfree := h.free
  have hfree' := h'.free
  omega

/-- The room is spent on what is logged. -/
theorem RoomAt.spend (h : RoomAt s ip T) (hs : Spent s s' ip T T' ws) (hw : Writes s s' ws) :
    RoomAt s' ip T' := by
  have hroom := h.log
  rw [hs.logs] at hroom
  refine ⟨?_, (hw.log.room Finset.subset_union_left hroom).mono Finset.subset_union_right⟩
  have hfree := h.free
  have hspent := hs.free
  omega

/-- A write that is complete had room, if the log has room for the inode. -/
theorem Spent.roomAt (hs : Spent s s' ip T ∅ ws) (hw : Writes s s' ws) (hlog : HeaderOk s.log)
    (hfits : LogFits s'.log) : RoomAt s ip T := by
  have hnone : missing s'.disk (s'.itable ip).toDinode ∅ = 0 := by simp [missing, indNeed]
  have hempty : loggedBy s' ip ∅ = ∅ := by simp [loggedBy, hnone, takenLog]
  refine ⟨?_, ?_⟩
  · have hfree := hs.free
    omega
  · rw [hs.logs, hempty, Finset.union_empty]
    exact hw.log.room_of_fits hlog hfits

/-- What one block of a write needs is missing for the write. -/
theorem need_le_missing {disk : Disk} {d : Dinode} (hbn : bn ∈ T) :
    need disk d bn ≤ missing disk d T := by
  unfold need missing
  refine Nat.add_le_add ?_ ?_
  · split
    · rename_i hzero
      exact Finset.card_pos.mpr ⟨bn, Finset.mem_filter.mpr ⟨hbn, hzero⟩⟩
    · exact Nat.zero_le _
  · split
    · rename_i h
      rw [indNeed, if_pos ⟨h.2, bn, hbn, h.1⟩]
    · exact Nat.zero_le _

/-- Room for the write is room for each `bmap`. -/
theorem RoomAt.bmap (h : RoomAt s ip T) (hbn : bn ∈ T) :
    BlocksRoom s (need s.disk (s.itable ip).toDinode bn) := by
  have hall : BlocksRoom s (missing s.disk (s.itable ip).toDinode T) := by
    refine ⟨_, _, (take_append_drop (missing s.disk (s.itable ip).toDinode T) _).symm, ?_,
      h.log.mono ?_⟩
    · rw [length_take, Nat.min_eq_left h.free]
    · exact Finset.subset_union_left.trans Finset.subset_union_left
  exact hall.mono (need_le_missing hbn)

/-- Nothing changes that matters to the room. -/
theorem Spent.of_eq (hsb : s'.sb = s.sb) (hind : (s'.itable ip).ind = (s.itable ip).ind)
    (hblocks : ∀ bn, fileBlock s'.disk (s'.itable ip).toDinode bn
      = fileBlock s.disk (s.itable ip).toDinode bn)
    (hfree : freeBlocks s.sb s'.disk = freeBlocks s.sb s.disk) : Spent s s' ip T T [] := by
  have hmissing : missing s'.disk (s'.itable ip).toDinode T
      = missing s.disk (s.itable ip).toDinode T := by
    unfold missing indNeed
    simp only [hblocks, hind]
  refine ⟨by rw [hsb, hfree, hmissing], ?_⟩
  rw [toFinset_nil, Finset.empty_union]
  unfold loggedBy
  rw [funext hblocks, hsb, hfree, hmissing, hind]

/-- A block that is there is logged. -/
theorem Spent.logged (hne : fileBlock s.disk (s.itable ip).toDinode bn ≠ 0) :
    Spent s s ip (insert bn T) T [fileBlock s.disk (s.itable ip).toDinode bn] := by
  have hneed : ∀ P : Nat → Prop, ¬ P bn →
      ((∃ bn' ∈ insert bn T, P bn') ↔ ∃ bn' ∈ T, P bn') := by
    intro P hP
    rw [Finset.exists_mem_insert]
    exact or_iff_right hP
  have hmissing : missing s.disk (s.itable ip).toDinode (insert bn T)
      = missing s.disk (s.itable ip).toDinode T := by
    unfold missing indNeed
    rw [Finset.filter_insert, if_neg hne]
    congr 1
    refine if_congr (and_congr_right fun hzero => hneed _ fun hge => ?_) rfl rfl
    exact ind_ne_of_fileBlock hge hne hzero
  refine ⟨by rw [hmissing], ?_⟩
  unfold loggedBy
  rw [hmissing, Finset.image_insert, Finset.erase_insert_of_ne hne, toFinset_cons, toFinset_nil,
    if_congr (and_congr_right fun _ => hneed _ fun h => hne h.2) rfl rfl]
  ext w
  simp only [Finset.mem_union, Finset.mem_insert, Finset.notMem_empty, or_false]
  tauto

section

variable (h : Bmapped s s' ip bn b new ws) (hbn : bn ∈ T)
include h hbn

/-- `bmap` takes the blocks that are missing for its index, and no others. -/
theorem Bmapped.missing : missing s.disk (s.itable ip).toDinode T
    = new.length + missing s'.disk (s'.itable ip).toDinode T := by
  have hfilter : (T.filter fun bn' => fileBlock s'.disk (s'.itable ip).toDinode bn' = 0)
      = (T.filter fun bn' => fileBlock s.disk (s.itable ip).toDinode bn' = 0).erase bn := by
    ext bn'
    rw [Finset.mem_erase, Finset.mem_filter, Finset.mem_filter]
    by_cases hne : bn' = bn
    · rw [hne, h.block]
      exact iff_of_false (fun hh => h.ne_zero hh.2) fun hh => hh.1 rfl
    · rw [h.blocks bn' hne, and_iff_right hne]
  have hcard : (T.filter fun bn' => fileBlock s.disk (s.itable ip).toDinode bn' = 0).card
      = (T.filter fun bn' => fileBlock s'.disk (s'.itable ip).toDinode bn' = 0).card
        + if fileBlock s.disk (s.itable ip).toDinode bn = 0 then 1 else 0 := by
    rw [hfilter]
    split
    · rename_i hzero
      exact (Finset.card_erase_add_one (Finset.mem_filter.mpr ⟨hbn, hzero⟩)).symm
    · rename_i hne
      have hnot : bn ∉ T.filter fun bn' => fileBlock s.disk (s.itable ip).toDinode bn' = 0 :=
        fun hh => hne (Finset.mem_filter.mp hh).2
      rw [Finset.erase_eq_of_notMem hnot, Nat.add_zero]
  have hind : indNeed (s.itable ip).toDinode T = indNeed (s'.itable ip).toDinode T
      + if NDIRECT ≤ bn ∧ (s.itable ip).ind = 0 then 1 else 0 := by
    by_cases hge : NDIRECT ≤ bn
    · have hnone : indNeed (s'.itable ip).toDinode T = 0 := if_neg fun hh => h.ind_ne hge hh.1
      rw [hnone, Nat.zero_add]
      exact if_congr ⟨fun hh => ⟨hge, hh.1⟩, fun hh => ⟨hh.2, bn, hbn, hge⟩⟩ rfl rfl
    · have hsame : (s'.itable ip).ind = (s.itable ip).ind := h.ind (.inr (Nat.lt_of_not_le hge))
      have hno : ¬ (NDIRECT ≤ bn ∧ (s.itable ip).ind = 0) := fun hh => hge hh.1
      rw [if_neg hno, Nat.add_zero, indNeed, indNeed, hsame]
  have hlen := h.length
  unfold need at hlen
  unfold Proofs.missing
  omega

/-- `bmap` takes blocks that the write takes, and logs them. -/
theorem Bmapped.spent : Spent s s' ip T T ws := by
  have hsb := h.writes.sb
  have hmissing := h.missing hbn
  have htake : (freeBlocks s.sb s.disk).take (Proofs.missing s.disk (s.itable ip).toDinode T)
      = new ++ (freeBlocks s.sb s'.disk).take
        (Proofs.missing s'.disk (s'.itable ip).toDinode T) := by
    rw [h.free, hmissing, take_length_add_append]
  refine ⟨?_, ?_⟩
  · have hfree := congrArg List.length h.free
    rw [length_append] at hfree
    rw [hsb]
    omega
  have htaken : ∀ a ∈ new, a ∈ (takenLog s.sb new).toFinset := fun a ha =>
    mem_toFinset.mpr (mem_takenLog.mpr ⟨a, ha, .inr rfl⟩)
  unfold loggedBy
  rw [htake, hsb, takenLog_append, toFinset_append, h.logs, toFinset_append]
  ext w
  simp only [Finset.mem_union, Finset.mem_erase, Finset.mem_image]
  constructor
  · rintro (((hw | hw) | ⟨hne, bn', hbn', rfl⟩) | hw)
    · exact .inl (.inl hw)
    · exact .inr (.inl (.inl hw))
    · refine .inr (.inl (.inr ⟨hne, bn', hbn', ?_⟩))
      by_cases heq : bn' = bn
      · rw [heq, h.block, h.same (heq ▸ hne)]
      · exact h.blocks bn' heq
    · split at hw
      swap
      · exact absurd hw (Finset.notMem_empty _)
      rename_i hind
      obtain ⟨hind, bn', hbn', hge, hzero⟩ := hind
      obtain rfl := Finset.mem_singleton.mp hw
      have hsame := h.ind (.inl hind)
      by_cases heq : bn' = bn
      · rw [if_pos ⟨heq ▸ hge, heq ▸ hzero⟩]
        exact .inl (.inr (by simp [hsame]))
      · rw [if_pos (show (s'.itable ip).ind ≠ 0 ∧ _ from
          ⟨hsame ▸ hind, bn', hbn', hge, (h.blocks bn' heq).trans hzero⟩)]
        exact .inr (.inr (by simp [hsame]))
  · rintro ((hw | hw) | ((hw | ⟨hne, bn', hbn', rfl⟩) | hw))
    · exact .inl (.inl (.inl hw))
    · split at hw
      swap
      · exact absurd hw (by simp)
      rename_i hge
      obtain rfl : w = (s'.itable ip).ind := by simpa using hw
      by_cases hind : (s.itable ip).ind = 0
      · exact .inl (.inl (.inl (htaken _ ((h.mem _).mpr (.inr ⟨hge.1, hind, rfl⟩)))))
      · rw [if_pos ⟨hind, bn, hbn, hge⟩, h.ind (.inl hind)]
        exact .inr (Finset.mem_singleton_self _)
    · exact .inl (.inl (.inr hw))
    · by_cases heq : bn' = bn
      · rw [heq, h.block]
        by_cases hzero : fileBlock s.disk (s.itable ip).toDinode bn = 0
        · exact .inl (.inl (.inl (htaken _ ((h.mem _).mpr (.inl ⟨hzero, rfl⟩)))))
        · exact .inl (.inr ⟨h.ne_zero, bn, hbn, (h.same hzero).symm⟩)
      · rw [h.blocks bn' heq] at hne ⊢
        exact .inl (.inr ⟨hne, bn', hbn', rfl⟩)
    · split at hw
      swap
      · exact absurd hw (Finset.notMem_empty _)
      rename_i hind
      obtain ⟨hind', bn', hbn', hge, hzero⟩ := hind
      obtain rfl := Finset.mem_singleton.mp hw
      have hne : bn' ≠ bn := by
        rintro rfl
        exact h.ne_zero (h.block ▸ hzero)
      rw [h.blocks bn' hne] at hzero
      by_cases hind : (s.itable ip).ind = 0
      · -- the indirect block is new
        have hge' : NDIRECT ≤ bn := by
          by_contra hlt
          exact hind' ((h.ind (.inr (Nat.lt_of_not_le hlt))).trans hind)
        exact .inl (.inl (.inl (htaken _ ((h.mem _).mpr (.inr ⟨hge', hind, rfl⟩)))))
      · rw [if_pos ⟨hind, bn', hbn', hge, hzero⟩, h.ind (.inl hind)]
        exact .inr (Finset.mem_singleton_self _)

end

end

/-! ### Writing -/

/-- The bytes that the source delivers in the copies that succeed. -/
def Delivers (src : Source) (g : Nat → UInt8) : Prop :=
  ∀ tot m, (src.copy tot m).2 = true → (src.copy tot m).1 = (List.range m).map fun i => g (tot + i)

/-- The view depends on the superblock, the disk and the table. -/
theorem eff_of_eq {s' : Fs} (hsb : s'.sb = s.sb) (hdisk : s'.disk = s.disk)
    (htable : s'.itable = s.itable) : eff s' = eff s := by
  obtain ⟨disk, sb, log, itable, writes⟩ := s
  obtain ⟨disk', sb', log', itable', writes'⟩ := s'
  subst hsb hdisk htable
  rfl

/-- The invariant does not depend on the log. -/
theorem FsOk.of_eq {s' : Fs} (h : FsOk s) (hsb : s'.sb = s.sb) (hdisk : s'.disk = s.disk)
    (htable : s'.itable = s.itable) : FsOk s' := by
  refine ⟨hsb ▸ h.layout, ?_, ?_⟩
  · refine ⟨htable ▸ h.table.unique, ?_, ?_⟩
    · rw [htable, hsb]
      exact h.table.inum
    · unfold Cached
      rw [htable]
      exact h.table.fits
  · rw [eff_of_eq hsb hdisk htable, hsb, hdisk]
    exact h.alloc

/-- A block of the file that is not touched is not logged. -/
theorem not_mem_loggedBy (hok : FsOk s) (hc : Cached s ip)
    (hlive : Live s.sb (eff s) (s.itable ip).inum) {T : Finset Nat} {bn : Nat} (hbn : bn ∉ T)
    (hne : fileBlock s.disk (s.itable ip).toDinode bn ≠ 0) :
    fileBlock s.disk (s.itable ip).toDinode bn ∉ loggedBy s ip T := by
  have heff := eff_cached hok.table hc
  have hrange := fileBlock_range hok hc hlive hne
  cases hp : ptrOf bn with
  | none => simp [fileBlock, hp] at hne
  | some p =>
    have hblock : fileBlock s.disk (s.itable ip).toDinode bn
        = ptr s.disk (eff s (s.itable ip).inum) p := by rw [fileBlock_of_ptrOf hp, heff]
    -- two places with the same block are the same place
    have hinj : ∀ q, ptr s.disk (s.itable ip).toDinode q
        = fileBlock s.disk (s.itable ip).toDinode bn → q = p := by
      intro q hq
      rw [hblock, ← heff] at hq
      rw [hblock] at hne
      exact (hok.alloc.ptr_inj hlive hlive (hq ▸ hne) hq).2
    unfold loggedBy
    rw [Finset.mem_union, Finset.mem_union, mem_toFinset, mem_takenLog, Finset.mem_erase,
      Finset.mem_image]
    rintro ((⟨a, ha, hw⟩ | ⟨-, bn', hbn', heq⟩) | hind)
    · -- a free block is no block of the file, and neither is a block of the map
      obtain ⟨hlt, hfree⟩ := mem_freeBlocks.mp (mem_of_mem_take ha)
      rcases hw with hw | hw
      · have := bblock_lt hlt
        omega
      · rw [hblock] at hne hw
        exact hok.alloc.free_ne hlt hfree hlive hne hw
    · cases hp' : ptrOf bn' with
      | none => exact hne (heq.symm.trans (by rw [fileBlock, hp']; rfl))
      | some q =>
        have hq := hinj q (by rw [← heq, fileBlock_of_ptrOf hp'])
        exact hbn (ptrOf_inj hp (hq ▸ hp') ▸ hbn')
    · split at hind
      · have hlast := Finset.mem_singleton.mp hind
        exact ptrOf_ne_ind hp (hinj (.addr (Fin.last NDIRECT)) hlast.symm).symm
      · exact absurd hind (Finset.notMem_empty _)

/-- `log_write` of a block of the file. -/
theorem wrote_log {s' : Fs} (hok : FsOk s)
    (hlive : Live s.sb (eff s) (s.itable ip).inum) {bn : Nat} {R : Nat → Prop}
    (hw : Writes s s' [fileBlock s.disk (s.itable ip).toDinode bn]) (hdisk : s'.disk = s.disk)
    (htable : s'.itable = s.itable) :
    FileWrote s s' ip {bn} R [fileBlock s.disk (s.itable ip).toDinode bn] := by
  have heff := eff_of_eq hw.sb hdisk htable
  refine ⟨hok.of_eq hw.sb hdisk htable, hw, ?_, fun j _ => congrFun heff j, heff.symm ▸ hlive,
    fun j _ _ x hx => ?_, fun _ => by rw [htable], fun _ _ => by rw [htable, hdisk],
    fun _ _ => by rw [htable, hdisk], fun _ _ _ => by rw [htable, hdisk]⟩
  · exact ⟨(s.itable ip).addrs, by rw [htable]; exact (update_eq_self ip s.itable).symm⟩
  · rw [hdisk]
    exact ⟨hx, rfl⟩

/-- Bytes are stored in the block of the file at `off`, which may be new. -/
structure StoredAt (s s' : Fs) (ip : InodeId) (off : Nat) (bs : List UInt8) (b : Nat)
    (ws : List Nat) : Prop where
  wrote : FileWrote s s' ip {off / BSIZE} (fun x => off ≤ x ∧ x < off + bs.length) ws
  ne_zero : b ≠ 0
  block : fileBlock s'.disk (s'.itable ip).toDinode (off / BSIZE) = b
  bytes : ∀ (i : Nat) (c : UInt8), bs[i]? = some c →
    byteAt s'.disk (s'.itable ip).toDinode (off + i) = c
  frame : ∀ a, a ∉ ws → a ≠ b → s'.disk a = s.disk a
  data : b ∉ ws → s'.disk b = putBytes (s.disk b) (off % BSIZE) bs
  old : fileBlock s.disk (s.itable ip).toDinode (off / BSIZE) ≠ 0 → ws = []
  new : fileBlock s.disk (s.itable ip).toDinode (off / BSIZE) = 0 → b ∈ ws
  spent : ∀ T, off / BSIZE ∈ T → Spent s s' ip T T ws

/-- Nothing is taken for a block that is there. -/
theorem Bmapped.old {s₁ : Fs} {bn : Nat} {new ws : List Nat} (h : Bmapped s s₁ ip bn b new ws)
    (hne : fileBlock s.disk (s.itable ip).toDinode bn ≠ 0) : ws = [] := by
  have hnone : new = [] := by
    refine eq_nil_iff_forall_not_mem.mpr fun a ha => ?_
    rcases (h.mem a).mp ha with hh | ⟨hge, hzero, -⟩
    · exact hne hh.1
    · exact ind_ne_of_fileBlock hge hne hzero
  rw [h.logs, hnone, if_neg fun hh => hne hh.2]
  rfl

/-- The bytes of one round are stored in the block that `bmap` has returned. -/
theorem Bmapped.stored {s₁ s₂ : Fs} {off : Nat} {new ws : List Nat} {bs : List UInt8}
    (hb : Bmapped s s₁ ip (off / BSIZE) b new ws) (hok : FsOk s) (hc : Cached s ip)
    (hlive : Live s.sb (eff s) (s.itable ip).inum) (hbn : off / BSIZE < MAXFILE)
    (hlen : off % BSIZE + bs.length ≤ BSIZE) (hw : Writes s₁ s₂ [])
    (htable : s₂.itable = s₁.itable)
    (hdisk : s₂.disk = Function.update s₁.disk b (putBytes (s₁.disk b) (off % BSIZE) bs)) :
    StoredAt s s₂ ip off bs b ws := by
  have hc₁ := hb.toMapped.cached hc
  have hlive₁ := hb.toMapped.live hlive
  have hne₁ : fileBlock s₁.disk (s₁.itable ip).toDinode (off / BSIZE) ≠ 0 := by
    rw [hb.block]
    exact hb.ne_zero
  have hdisk' := hdisk
  rw [← hb.block] at hdisk'
  -- the bytes outside the copy stay
  have hstore : FileWrote s₁ s₂ ip {off / BSIZE} (fun x => off ≤ x ∧ x < off + bs.length) [] := by
    refine wrote_setBlock hb.ok hc₁ hlive₁ hbn hne₁ (fun o ho hR => ?_) hw htable hdisk'
    have hoff := Nat.div_add_mod' off BSIZE
    unfold putBytes
    rw [if_neg (by omega)]
  have hblock : fileBlock s₂.disk (s₂.itable ip).toDinode (off / BSIZE) = b := by
    rw [hstore.blocks _ hne₁, hb.block]
  have hmapped := hb.wrote hok hc hlive
  have hwrote := (hmapped.mono (Finset.Subset.refl _) fun _ h => h.elim).trans hstore
  rw [append_nil] at hwrote
  refine ⟨hwrote, hb.ne_zero, hblock, fun i c hi => ?_, fun a ha hab => ?_, fun hb' => ?_,
    hb.old, fun hzero => ?_, fun T hT => ?_⟩
  · have hlt := (List.getElem?_eq_some_iff.mp hi).1
    obtain ⟨hdiv, hmod⟩ := pos_split off i (by omega)
    rw [byteAt, hdiv, hblock, hmod, hdisk, update_self]
    unfold putBytes
    rw [if_pos (by omega), Nat.add_sub_cancel_left, getD_eq_getElem?_getD, hi,
      Option.getD_some]
  · rw [hdisk, update_of_ne hab, hb.writes.disk a ha]
  · rw [hdisk, update_self, hb.writes.disk b hb']
  · rw [hb.logs, mem_append, mem_takenLog]
    exact .inl ⟨b, (hb.mem b).mpr (.inl ⟨hzero, rfl⟩), .inr rfl⟩
  · have hsame : Spent s₁ s₂ ip T T [] := by
      refine .of_eq hw.sb (by rw [htable]) (fun bn => ?_) ?_
      · by_cases hbn : bn = off / BSIZE
        · rw [hbn, hstore.blocks _ hne₁]
        · exact hstore.kept bn (by simpa using hbn)
      · rw [hdisk']
        exact freeBlocks_congr fun c hc =>
          mapBit_update_data (fileBlock_range hb.ok hc₁ hlive₁ hne₁).1 hc _
    have hspent := (hb.spent hT).trans hsame
    rwa [append_nil] at hspent

/-- The number of bytes that a round of the loop copies. -/
def chunkAt (off n : Nat) : Nat := min n (BSIZE - off % BSIZE)

/-- What the copy that failed has stored, if one did: the loop ended at `off` with `tot` of `n`
bytes. -/
def leftBy (src : Source) (off tot n : Nat) : List UInt8 :=
  if tot < n then (src.copy tot (chunkAt off (n - tot))).1 else []

/-- What the loop of `writei` does from `off` on. -/
structure WroteLoop (s s' : Fs) (ip : InodeId) (src : Source) (off tot n off' tot' : Nat)
    (ws : List Nat) : Prop where
  wrote : FileWrote s s' ip (touched off (n - tot))
    (fun x => off ≤ x ∧ x < off' + (leftBy src off' tot' n).length) ws
  tot_le : tot ≤ tot'
  le : tot' ≤ n
  off_eq : off' = off + (tot' - tot)
  mapped : ∀ x, off ≤ x → x < off' → fileBlock s'.disk (s'.itable ip).toDinode (x / BSIZE) ≠ 0
  bytes : ∀ g, Delivers src g → ∀ x, off ≤ x → x < off' →
    byteAt s'.disk (s'.itable ip).toDinode x = g (tot + (x - off))
  failed : tot' < n → (src.copy tot' (chunkAt off' (n - tot'))).2 = false ∧
    fileBlock s'.disk (s'.itable ip).toDinode (off' / BSIZE) ≠ 0
  left : ∀ (i : Nat) (c : UInt8), (leftBy src off' tot' n)[i]? = some c →
    byteAt s'.disk (s'.itable ip).toDinode (off' + i) = c
  frame : ∀ a, a ∉ ws → (tot' < n → a ≠ fileBlock s'.disk (s'.itable ip).toDinode (off' / BSIZE)) →
    s'.disk a = s.disk a
  data : tot' < n → ∀ b, b = fileBlock s'.disk (s'.itable ip).toDinode (off' / BSIZE) → b ∉ ws →
    s'.disk b = putBytes (s.disk b) (off' % BSIZE) (leftBy src off' tot' n)
  old : tot' < n → fileBlock s.disk (s.itable ip).toDinode (off' / BSIZE) ≠ 0 →
    fileBlock s.disk (s.itable ip).toDinode (off' / BSIZE) ∉ ws
  new : tot' < n → fileBlock s.disk (s.itable ip).toDinode (off' / BSIZE) = 0 →
    fileBlock s'.disk (s'.itable ip).toDinode (off' / BSIZE) ∈ ws
  copied : ∀ t, tot ≤ t → t < tot' → t = tot ∨ (off + (t - tot)) % BSIZE = 0 →
    (src.copy t (chunkAt (off + (t - tot)) (n - t))).2 = true
  start : tot' < n → tot' = tot ∨ off' % BSIZE = 0
  spent : ∃ T, (tot' = n → T = ∅) ∧ Spent s s' ip (touched off (n - tot)) T ws

/-- Nothing is left to write. -/
theorem WroteLoop.stop {src : Source} {off tot n : Nat} (hok : FsOk s)
    (hlive : Live s.sb (eff s) (s.itable ip).inum) (htot : tot = n) :
    WroteLoop s s ip src off tot n off tot [] where
  wrote := .refl hok hlive
  tot_le := Nat.le_refl _
  le := Nat.le_of_eq htot
  off_eq := by omega
  mapped x hx hx' := by omega
  bytes g _ x hx hx' := by omega
  failed hlt := by omega
  left i c hc := by
    rw [leftBy, if_neg (by omega)] at hc
    simp at hc
  frame _ _ _ := rfl
  data hlt := by omega
  old hlt := by omega
  new hlt := by omega
  copied t ht ht' := by omega
  start hlt := by omega
  spent := by
    refine ⟨_, fun _ => ?_, .of_eq rfl rfl (fun _ => rfl) rfl⟩
    rw [touched, if_pos (by omega)]

/-- A copy has failed. -/
theorem StoredAt.fail {s' : Fs} {src : Source} {off tot n : Nat} {ws : List Nat}
    (h : StoredAt s s' ip off (src.copy tot (chunkAt off (n - tot))).1 b ws) (hlt : tot < n)
    (hfail : (src.copy tot (chunkAt off (n - tot))).2 = false) :
    WroteLoop s s' ip src off tot n off tot ws := by
  obtain ⟨hstep, -⟩ := touched_step off (n - tot) (by omega) rfl
  have hleft : leftBy src off tot n = (src.copy tot (chunkAt off (n - tot))).1 := if_pos hlt
  refine ⟨?_, Nat.le_refl _, Nat.le_of_lt hlt, by omega, fun x hx hx' => by omega,
    fun g _ x hx hx' => by omega, fun _ => ⟨hfail, h.block ▸ h.ne_zero⟩, ?_,
    fun a ha hab => h.frame a ha (h.block ▸ hab hlt), fun _ b' hb' hnew => ?_,
    fun _ hne => by simp [h.old hne], fun _ hzero => h.block ▸ h.new hzero,
    fun t ht ht' => by omega, fun _ => .inl rfl, _, fun heq => by omega, h.spent _ ?_⟩
  · rw [hleft]
    exact h.wrote.mono (by rw [hstep]; simp) fun _ hx => hx
  · rw [hleft]
    exact h.bytes
  · rw [h.block] at hb'
    rw [hleft, hb', h.data (hb' ▸ hnew)]
  · rw [hstep]
    exact Finset.mem_insert_self _ _

/-- The state after a round that succeeds: its bytes are stored, and the block is in the log. -/
structure RoundDone (s s' : Fs) (ip : InodeId) (off tot m n : Nat) (src : Source) (ws : List Nat) :
    Prop where
  wrote : FileWrote s s' ip (touched off (n - tot)) (fun x => off ≤ x ∧ x < off + m) ws
  mapped : ∀ x, off ≤ x → x < off + m →
    fileBlock s'.disk (s'.itable ip).toDinode (x / BSIZE) ≠ 0
  bytes : ∀ g, Delivers src g → ∀ x, off ≤ x → x < off + m →
    byteAt s'.disk (s'.itable ip).toDinode x = g (tot + (x - off))
  frame : ∀ a, a ∉ ws → s'.disk a = s.disk a
  old : ∀ bn, bn ≠ off / BSIZE → fileBlock s.disk (s.itable ip).toDinode bn ≠ 0 →
    fileBlock s.disk (s.itable ip).toDinode bn ∉ ws
  kept : ∀ bn, bn ≠ off / BSIZE →
    fileBlock s'.disk (s'.itable ip).toDinode bn = fileBlock s.disk (s.itable ip).toDinode bn
  copied : (src.copy tot m).2 = true
  spent : Spent s s' ip (touched off (n - tot)) (touched (off + m) (n - tot - m)) ws

/-- The bytes are stored and the block is logged. -/
theorem StoredAt.logged {s₂ s₃ : Fs} {off : Nat} {bs : List UInt8} {ws : List Nat}
    (h : StoredAt s s₂ ip off bs b ws) (hw : Writes s₂ s₃ [b]) (hdisk : s₃.disk = s₂.disk)
    (htable : s₃.itable = s₂.itable) (T : Finset Nat) :
    Spent s s₃ ip (insert (off / BSIZE) T) T (ws ++ [b]) := by
  have hlogged : Spent s₂ s₂ ip (insert (off / BSIZE) T) T [b] :=
    h.block ▸ .logged (h.block.symm ▸ h.ne_zero)
  have hspent := hlogged.trans (.of_eq hw.sb (by rw [htable]) (fun _ => by rw [hdisk, htable])
    (by rw [hdisk]))
  rw [append_nil] at hspent
  exact (h.spent _ (Finset.mem_insert_self _ _)).trans hspent

/-- A copy has succeeded, and its block is logged. -/
theorem StoredAt.done {s₂ s₃ : Fs} {src : Source} {off tot n : Nat} {ws : List Nat}
    (h : StoredAt s s₂ ip off (src.copy tot (chunkAt off (n - tot))).1 b ws) (hs : FsOk s)
    (hc : Cached s ip) (hlive : Live s.sb (eff s) (s.itable ip).inum) (hlt : tot < n)
    (hok : (src.copy tot (chunkAt off (n - tot))).2 = true) (hw : Writes s₂ s₃ [b])
    (hdisk : s₃.disk = s₂.disk) (htable : s₃.itable = s₂.itable) :
    RoundDone s s₃ ip off tot (chunkAt off (n - tot)) n src (ws ++ [b]) := by
  obtain ⟨hstep, -⟩ := touched_step off (n - tot) (by omega) rfl
  have hpos : off % BSIZE < BSIZE := Nat.mod_lt _ (by decide)
  have hle : chunkAt off (n - tot) ≤ BSIZE - off % BSIZE := Nat.min_le_right _ _
  have hlen := src.length_eq tot _ hok
  set m := chunkAt off (n - tot) with hm
  have hsub : {off / BSIZE} ⊆ touched off (n - tot) := by
    rw [hstep]
    simp
  have hwrote := h.wrote.mono hsub fun _ hx => hx
  rw [hlen] at hwrote
  have hlog : FileWrote s₂ s₃ ip {off / BSIZE} (fun _ => False) [b] := by
    have := wrote_log (R := fun _ => False) hwrote.ok hwrote.live' (h.block.symm ▸ hw) hdisk
      htable
    rwa [h.block] at this
  have hblock : ∀ x, off ≤ x → x < off + m → x / BSIZE = off / BSIZE ∧
      x % BSIZE = off % BSIZE + (x - off) := by
    intro x hx hx'
    have hsplit := pos_split off (x - off) (by omega)
    rwa [Nat.add_sub_cancel' hx] at hsplit
  refine ⟨hwrote.trans (hlog.mono hsub fun _ h => h.elim), fun x hx hx' => ?_,
    fun g hg x hx hx' => ?_, fun a ha => ?_, fun bn hbn hne => ?_, fun bn hbn => ?_, hok, ?_⟩
  · rw [(hblock x hx hx').1, hdisk, htable, h.block]
    exact h.ne_zero
  · have hbyte := h.bytes (x - off) (g (tot + (x - off))) (by
      rw [hg tot m hok]
      simp [show x - off < m by omega])
    rw [Nat.add_sub_cancel' hx] at hbyte
    rw [hdisk, htable, hbyte]
  · rw [mem_append, mem_singleton, not_or] at ha
    rw [hdisk, h.frame a ha.1 ha.2]
  · have hnot : bn ∉ insert (off / BSIZE) (∅ : Finset Nat) := by simpa using hbn
    have hother := not_mem_loggedBy hs hc hlive hnot hne
    rw [(h.logged hw hdisk htable ∅).logs, Finset.mem_union, not_or, mem_toFinset] at hother
    exact hother.1
  · rw [hdisk, htable]
    exact h.wrote.kept bn (by simpa using hbn)
  · rw [hstep]
    exact h.logged hw hdisk htable _

/-- The rounds after one that succeeded. -/
theorem RoundDone.loop {s₁ s' : Fs} {src : Source} {off tot n off' tot' : Nat} {ws ws' : List Nat}
    (h : RoundDone s s₁ ip off tot m n src ws) (hm : m = chunkAt off (n - tot)) (hlt : tot < n)
    (h' : WroteLoop s₁ s' ip src (off + m) (tot + m) n off' tot' ws') :
    WroteLoop s s' ip src off tot n off' tot' (ws ++ ws') := by
  obtain ⟨hstep, -⟩ := touched_step off (n - tot) (by omega) rfl
  have hrest : n - (tot + m) = n - tot - m := by omega
  have hoff := h'.off_eq
  have htot := h'.tot_le
  have hwrote := h'.wrote
  rw [hrest] at hwrote
  have hsub : touched (off + m) (n - tot - m) ⊆ touched off (n - tot) := by
    rw [hstep, hm]
    exact Finset.subset_insert _ _
  -- the block of a later round is another one
  have hlater : tot' < n → off' / BSIZE ≠ off / BSIZE := by
    intro hlt'
    have hmod : off % BSIZE < BSIZE := Nat.mod_lt _ (by decide)
    unfold chunkAt at hm
    rw [BSIZE_eq] at *
    omega
  refine ⟨(h.wrote.mono (Finset.Subset.refl _) fun x hx => ⟨hx.1, by omega⟩).trans
    (hwrote.mono hsub fun x hx => ⟨by omega, hx.2⟩), by omega, h'.le, by omega,
    fun x hx hx' => ?_, fun g hg x hx hx' => ?_, h'.failed, h'.left, fun a ha hab => ?_,
    fun hlt' b hb hnew => ?_, fun hlt' hne => ?_, fun hlt' hzero => ?_, fun t ht ht' hb => ?_,
    fun hlt' => ?_, ?_⟩
  · by_cases hfirst : x < off + m
    · have hblock := h.mapped x hx hfirst
      rwa [hwrote.blocks _ hblock]
    · exact h'.mapped x (by omega) hx'
  · by_cases hfirst : x < off + m
    · rw [hwrote.bytes x (h.mapped x hx hfirst) (by omega), h.bytes g hg x hx hfirst]
    · rw [h'.bytes g hg x (by omega) hx']
      congr 1
      omega
  · rw [mem_append, not_or] at ha
    rw [h'.frame a ha.2 hab, h.frame a ha.1]
  · rw [mem_append, not_or] at hnew
    rw [h'.data hlt' b hb hnew.2, h.frame b hnew.1]
  · have hsame := h.wrote.blocks _ hne
    rw [mem_append, not_or]
    exact ⟨h.old _ (hlater hlt') hne, hsame ▸ h'.old hlt' (hsame.symm ▸ hne)⟩
  · refine mem_append_right _ (h'.new hlt' ?_)
    rw [h.kept _ (hlater hlt'), hzero]
  · by_cases hlate : tot + m ≤ t
    · have hpos : off + m + (t - (tot + m)) = off + (t - tot) := by omega
      have hcopy := h'.copied t hlate ht'
      rw [hpos] at hcopy
      refine hcopy (.inr (hb.resolve_left ?_))
      unfold chunkAt at hm
      have hmod : off % BSIZE < BSIZE := Nat.mod_lt _ (by decide)
      omega
    · -- a copy inside a block does not start there
      obtain rfl : t = tot := by
        by_contra hne
        have hmod : off % BSIZE < BSIZE := Nat.mod_lt _ (by decide)
        have hin := pos_split off (t - tot) (by unfold chunkAt at hm; omega)
        omega
      rw [Nat.sub_self, Nat.add_zero, ← hm]
      exact h.copied
  · refine .inr ((h'.start hlt').elim (fun heq => ?_) id)
    have hmod : off % BSIZE < BSIZE := Nat.mod_lt _ (by decide)
    unfold chunkAt at hm
    rw [BSIZE_eq] at *
    omega
  · obtain ⟨T, hT, hspent⟩ := h'.spent
    rw [hrest] at hspent
    exact ⟨T, hT, h.spent.trans hspent⟩

/-- What the loop of `writei` does, by induction on the rounds. It panics only if there is no room
for the blocks that it has to touch. -/
theorem writeiLoop_spec {src : Source} : ∀ (rounds : Nat) (s : Fs) (off tot n : Nat),
    n - tot ≤ rounds → tot ≤ n → off + (n - tot) ≤ MAXFILE * BSIZE → FsOk s → Cached s ip →
    Live s.sb (eff s) (s.itable ip).inum →
    wp (writeiLoop ip src rounds off tot n)
      (fun r s' => ∃ ws, WroteLoop s s' ip src off tot n r.1 r.2 ws)
      (IoErr (RoomAt s ip (touched off (n - tot)))) s := by
  intro rounds
  induction rounds with
  | zero =>
    intro s off tot n hrounds htot hmax hok hc hlive
    rw [writeiLoop, wp_pure]
    exact ⟨[], .stop hok hlive (by omega)⟩
  | succ rounds ih =>
    intro s off tot n hrounds htot hmax hok hc hlive
    rw [writeiLoop]
    refine wp_ite (fun hlt => ?_) fun hge => ?_
    swap
    · rw [wp_pure]
      exact ⟨[], .stop hok hlive (by omega)⟩
    have hpos : off % BSIZE < BSIZE := Nat.mod_lt _ (by decide)
    have hmin : min (n - tot) (BSIZE - off % BSIZE) = chunkAt off (n - tot) := rfl
    have hmpos : 0 < chunkAt off (n - tot) := by omega
    have hmle : chunkAt off (n - tot) ≤ n - tot := Nat.min_le_left _ _
    have hbn : off / BSIZE < MAXFILE := by
      rw [Nat.div_lt_iff_lt_mul (by decide)]
      omega
    have hmem : off / BSIZE ∈ touched off (n - tot) := by
      rw [(touched_step off (n - tot) (by omega) rfl).1]
      exact Finset.mem_insert_self _ _
    rw [wp_bind]
    refine wp_mono (bmap_spec hok hc hlive hbn) ?_ fun e he => he.mono fun h => h.bmap hmem
    rintro b s₁ ⟨new, ws, hb⟩
    dsimp only
    rw [hmin, wp_bind]
    refine wp_setBlock fun s₂ hw₂ htable₂ hdisk₂ => ?_
    have hlen := src.length_le tot (chunkAt off (n - tot))
    have hstored := hb.stored hok hc hlive hbn (by omega) hw₂ htable₂ hdisk₂
    refine wp_ite (fun hcopied => ?_) fun hfail => ?_
    swap
    · rw [wp_pure]
      exact ⟨ws, hstored.fail hlt (by simpa using hfail)⟩
    rw [wp_bind]
    refine wp_mono (log_write_spec b s₂) ?_ fun e he => he.mono fun hroom => ?_
    · rintro - s₃ ⟨-, hw₃, hdisk₃, htable₃⟩
      have hdone := hstored.done hok hc hlive hlt hcopied hw₃ hdisk₃ htable₃
      have hih := ih s₃ (off + chunkAt off (n - tot)) (tot + chunkAt off (n - tot)) n (by omega)
        (by omega) (by omega) hdone.wrote.ok (hdone.wrote.cached hc) hdone.wrote.live'
      refine wp_mono hih ?_ fun e he => he.mono fun hroom => ?_
      · rintro ⟨off', tot'⟩ s' ⟨ws', hloop⟩
        exact ⟨_, hdone.loop rfl hlt hloop⟩
      · rw [Nat.sub_add_eq]
        exact hroom.spend hdone.spent hdone.wrote.writes
    · exact (hroom.spend (hstored.spent _ hmem) hstored.wrote.writes).log.fits

/-! ### `iupdate` and `writei` -/

/-- An entry that has been read changes in memory, and keeps its places. -/
theorem FsOk.set_entry {s' : Fs} (hok : FsOk s) (hc : Cached s ip) {d : Dinode}
    (hw : Writes s s' []) (hdisk : s'.disk = s.disk)
    (htable : s'.itable = Function.update s.itable ip ((s.itable ip).withDinode d))
    (hfits : FieldsFit d)
    (hptr : ∀ p, (if d.type = 0 then 0 else ptr s.disk d p)
      = refs s.sb s.disk (eff s) ((s.itable ip).inum, p))
    (hfull : d.type ≠ 0 → ∀ bn, bn * BSIZE < d.size → fileBlock s.disk d bn ≠ 0)
    (hsize : d.type ≠ 0 → d.size ≤ MAXFILE * BSIZE) :
    FsOk s' ∧ eff s' = Function.update (eff s) (s.itable ip).inum d := by
  obtain ⟨htab, heff⟩ := eff_set hok.table hc hw.sb htable rfl hc.1 hc.2 hfits
    fun j _ _ => by rw [hdisk]
  rw [Inode.toDinode_withDinode] at heff
  have hinum := hok.table.inum ip hc.1
  refine ⟨⟨hw.sb ▸ hok.layout, htab, ?_⟩, heff⟩
  rw [heff, hw.sb, hdisk]
  exact hok.alloc.set_node d hinum.1 hinum.2 hptr hfull hsize

/-- `iupdate` writes the entry to the disk, and nothing that is seen of the inode changes. -/
theorem iupdate_spec (hok : FsOk s) (hc : Cached s ip) :
    wp (iupdate ip)
      (fun _ s' => LogFits s.log ∧ Updates s s' [IBLOCK (s.itable ip).inum s.sb] ∧
        s'.itable = s.itable ∧ FsOk s' ∧ eff s' = eff s ∧
        dinodeOf s.sb s'.disk
          = Function.update (dinodeOf s.sb s.disk) (s.itable ip).inum (s.itable ip).toDinode ∧
        ∀ a, nmeta s.sb ≤ a → s'.disk a = s.disk a)
      (IoErr (LogFits s.log)) s := by
  unfold iupdate
  rw [wp_bind, wp_get]
  refine wp_post (update_spec _ _ s) ?_
  rintro - s' ⟨hlogfits, hw, hdisk, htable⟩
  have hinum := hok.table.inum ip hc.1
  have hfits := hok.table.fits ip hc
  have hdinode : dinodeOf s.sb s'.disk
      = Function.update (dinodeOf s.sb s.disk) (s.itable ip).inum (s.itable ip).toDinode := by
    rw [hdisk, dinodeOf_putDinode hfits]
  have hdata : ∀ a, nmeta s.sb ≤ a → s'.disk a = s.disk a := by
    intro a ha
    have := hok.layout.iblock_lt_nmeta hinum.2
    rw [hdisk, update_of_ne (by omega)]
  obtain ⟨htab, heff⟩ := @eff_set s s' ip hok.table hc hw.sb (s.itable ip)
    (by rw [htable, update_eq_self]) rfl hc.1 hc.2 hfits
    fun j _ hj => by rw [hdinode, update_of_ne hj]
  rw [← eff_cached hok.table hc, update_eq_self] at heff
  refine ⟨hlogfits, hw, htable, ⟨hw.sb ▸ hok.layout, htab, ?_⟩, heff, hdinode, hdata⟩
  rw [heff, hw.sb]
  refine hok.alloc.congr (fun b _ => ?_) (fun _ => Iff.rfl) (fun j hj p => ?_) fun _ _ => rfl
  · rw [hdisk, mapBit_update_of_ne (hok.layout.iblock_ne_bblock hinum.2 b)]
  · exact ptr_congr rfl (fun hne => hdata _ (hok.alloc.ind_range hj hne).1) p

/-- What `writei` does when it writes `tot` of `n` bytes from `off` on. -/
structure WroteFile (s s' : Fs) (ip : InodeId) (src : Source) (off n tot : Nat) (ws : List Nat) :
    Prop where
  ok : FsOk s'
  writes : Writes s s' ws
  itable : ∃ as, s'.itable = Function.update s.itable ip ((s.itable ip).withDinode
    (((s.itable ip).toDinode.withAddrs as).withSize (max (s.itable ip).size (off + tot))))
  dinode : dinodeOf s.sb s'.disk (s.itable ip).inum = (s'.itable ip).toDinode
  eff : ∀ j, j ≠ (s.itable ip).inum → eff s' j = eff s j
  others : ∀ j, Live s.sb (Proofs.eff s) j → j ≠ (s.itable ip).inum → ∀ x,
    fileBlock s.disk (Proofs.eff s j) (x / BSIZE) ≠ 0 →
    byteAt s'.disk (Proofs.eff s j) x = byteAt s.disk (Proofs.eff s j) x
  le : tot ≤ n
  blocks : ∀ bn, fileBlock s.disk (s.itable ip).toDinode bn ≠ 0 →
    fileBlock s'.disk (s'.itable ip).toDinode bn = fileBlock s.disk (s.itable ip).toDinode bn
  bytes : ∀ x, x < (s.itable ip).size →
    x < off ∨ off + tot + (leftBy src (off + tot) tot n).length ≤ x →
    byteAt s'.disk (s'.itable ip).toDinode x = byteAt s.disk (s.itable ip).toDinode x
  new : ∀ g, Delivers src g → ∀ x, off ≤ x → x < off + tot →
    byteAt s'.disk (s'.itable ip).toDinode x = g (x - off)
  failed : tot < n → (src.copy tot (chunkAt (off + tot) (n - tot))).2 = false ∧
    fileBlock s'.disk (s'.itable ip).toDinode ((off + tot) / BSIZE) ≠ 0
  left : ∀ (i : Nat) (c : UInt8), (leftBy src (off + tot) tot n)[i]? = some c →
    byteAt s'.disk (s'.itable ip).toDinode (off + tot + i) = c
  frame : ∀ a, a ∉ ws →
    (tot < n → a ≠ fileBlock s'.disk (s'.itable ip).toDinode ((off + tot) / BSIZE)) →
    s'.disk a = s.disk a
  data : tot < n → ∀ b, b = fileBlock s'.disk (s'.itable ip).toDinode ((off + tot) / BSIZE) →
    b ∉ ws → s'.disk b = putBytes (s.disk b) ((off + tot) % BSIZE) (leftBy src (off + tot) tot n)
  old : tot < n → fileBlock s.disk (s.itable ip).toDinode ((off + tot) / BSIZE) ≠ 0 →
    fileBlock s.disk (s.itable ip).toDinode ((off + tot) / BSIZE) ∉ ws
  fresh : tot < n → fileBlock s.disk (s.itable ip).toDinode ((off + tot) / BSIZE) = 0 →
    fileBlock s'.disk (s'.itable ip).toDinode ((off + tot) / BSIZE) ∈ ws
  logs : ∀ w ∈ ws, w = IBLOCK (s.itable ip).inum s.sb ∨ w ∈ loggedBy s ip (touched off n)
  copied : ∀ t, t < tot → t = 0 ∨ (off + t) % BSIZE = 0 →
    (src.copy t (chunkAt (off + t) (n - t))).2 = true
  start : tot < n → tot = 0 ∨ (off + tot) % BSIZE = 0
  room : tot = n → HeaderOk s.log → RoomAt s ip (touched off n)

section

variable {s' : Fs} {src : Source} {off n tot : Nat} {ws : List Nat}

section

variable (h : WroteFile s s' ip src off n tot ws)
include h

theorem WroteFile.entry : ∃ as, s'.itable ip
    = (s.itable ip).withDinode
      (((s.itable ip).toDinode.withAddrs as).withSize (max (s.itable ip).size (off + tot))) := by
  obtain ⟨as, htable⟩ := h.itable
  exact ⟨as, by rw [htable, update_self]⟩

theorem WroteFile.inum : (s'.itable ip).inum = (s.itable ip).inum := by
  obtain ⟨as, hentry⟩ := h.entry
  rw [hentry]
  rfl

theorem WroteFile.size : (s'.itable ip).size = max (s.itable ip).size (off + tot) := by
  obtain ⟨as, hentry⟩ := h.entry
  rw [hentry]
  rfl

theorem WroteFile.cached (hc : Cached s ip) : Cached s' ip := by
  obtain ⟨as, hentry⟩ := h.entry
  unfold Cached
  rw [hentry]
  exact hc

theorem WroteFile.eff_self (hc : Cached s ip) :
    Proofs.eff s' (s.itable ip).inum = (s'.itable ip).toDinode := by
  rw [← h.inum]
  exact eff_cached h.ok.table (h.cached hc)

end

end

/-- The entry after the loop of `writei`, with its new size. -/
theorem WroteLoop.set_size {s₁ s₂ : Fs} {src : Source} {off n tot : Nat} {ws : List Nat}
    (h : WroteLoop s s₁ ip src off 0 n (off + tot) tot ws) (hok : FsOk s) (hc : Cached s ip)
    (hlive : Live s.sb (eff s) (s.itable ip).inum) (hoff : off ≤ (s.itable ip).size)
    (hmax : off + n ≤ MAXFILE * BSIZE) (hw : Updates s₁ s₂ []) (hdisk : s₂.disk = s₁.disk)
    (htable : s₂.itable = Function.update s₁.itable ip ((s₁.itable ip).withDinode
      ((s₁.itable ip).toDinode.withSize (max (s.itable ip).size (off + tot))))) :
    FsOk s₂ ∧ eff s₂ = Function.update (eff s₁) (s₁.itable ip).inum
      ((s₁.itable ip).toDinode.withSize (max (s.itable ip).size (off + tot))) := by
  have hc₁ := h.wrote.cached hc
  have hlive₁ := h.wrote.live'
  have heff := eff_cached hok.table hc
  have heff₁ := eff_cached h.wrote.ok.table hc₁
  have hle := h.le
  have hsize := hok.alloc.size_le _ hlive
  rw [heff] at hsize
  have hfits := h.wrote.ok.table.fits ip hc₁
  have htype : (s₁.itable ip).type ≠ 0 := by
    have := hlive₁.2.2
    rwa [heff₁] at this
  have hlt : max (s.itable ip).size (off + tot) < 2 ^ 32 := by
    have : MAXFILE * BSIZE < 2 ^ 32 := by decide
    omega
  refine h.wrote.ok.set_entry hc₁ hw.toWrites hdisk htable
    ⟨hfits.type, hfits.major, hfits.minor, hfits.nlink, hlt, hfits.addrs⟩ (fun p => ?_)
    (fun _ bn hbn => ?_) fun _ => ?_
  · rw [refs_of_live hlive₁, heff₁]
    exact (if_neg htype).trans (ptr_congr rfl (fun _ => rfl) p)
  · -- blocks that were there, or that the loop has written
    have hbn : bn * BSIZE < max (s.itable ip).size (off + tot) := hbn
    rw [fileBlock_withSize]
    by_cases hold : bn * BSIZE < (s.itable ip).size
    · have hblock := hok.alloc.full _ hlive bn (by rwa [heff])
      rw [heff] at hblock
      rwa [h.wrote.blocks bn hblock]
    · have hmapped := h.mapped (bn * BSIZE) (by omega) (by omega)
      rwa [Nat.mul_div_cancel _ (by decide)] at hmapped
  · show max (s.itable ip).size (off + tot) ≤ _
    omega

/-- The entry is written to disk. -/
theorem WroteLoop.written {s₁ s₂ s' : Fs} {src : Source} {off n tot : Nat} {ws : List Nat}
    (h : WroteLoop s s₁ ip src off 0 n (off + tot) tot ws) (hok : FsOk s) (hc : Cached s ip)
    (hlive : Live s.sb (eff s) (s.itable ip).inum)
    (hw₂ : Updates s₁ s₂ []) (hdisk₂ : s₂.disk = s₁.disk)
    (htable₂ : s₂.itable = Function.update s₁.itable ip ((s₁.itable ip).withDinode
      ((s₁.itable ip).toDinode.withSize (max (s.itable ip).size (off + tot)))))
    (hfits : LogFits s₂.log) (hok₂ : FsOk s₂)
    (heff₂ : eff s₂ = Function.update (eff s₁) (s₁.itable ip).inum
      ((s₁.itable ip).toDinode.withSize (max (s.itable ip).size (off + tot))))
    (hw₃ : Updates s₂ s' [IBLOCK (s₂.itable ip).inum s₂.sb]) (htable₃ : s'.itable = s₂.itable)
    (hok₃ : FsOk s') (heff₃ : eff s' = eff s₂)
    (hdinode₃ : dinodeOf s₂.sb s'.disk = Function.update (dinodeOf s₂.sb s₂.disk)
      (s₂.itable ip).inum (s₂.itable ip).toDinode)
    (hdata₃ : ∀ a, nmeta s₂.sb ≤ a → s'.disk a = s₂.disk a) :
    WroteFile s s' ip src off n tot (ws ++ [IBLOCK (s.itable ip).inum s.sb]) := by
  have hwrote := h.wrote
  rw [Nat.sub_zero] at hwrote
  have hinum₁ := hwrote.inum
  have hsb₂ : s₂.sb = s.sb := hw₂.sb.trans hwrote.writes.sb
  have hentry₂ : s₂.itable ip = (s₁.itable ip).withDinode
      ((s₁.itable ip).toDinode.withSize (max (s.itable ip).size (off + tot))) := by
    rw [htable₂, update_self]
  have hinum₂ : (s₂.itable ip).inum = (s.itable ip).inum := by
    rw [hentry₂]
    exact hinum₁
  have hdin₂ : (s₂.itable ip).toDinode
      = (s₁.itable ip).toDinode.withSize (max (s.itable ip).size (off + tot)) := by
    rw [hentry₂]
    rfl
  rw [hinum₂, hsb₂] at hw₃ hdinode₃
  rw [hsb₂] at hdata₃
  have hc₂ : Cached s₂ ip := by
    unfold Cached
    rw [hentry₂]
    exact hwrote.cached hc
  have hlive₂ : Live s₂.sb (eff s₂) (s.itable ip).inum := by
    rw [hsb₂, heff₂, hinum₁, live_update_self]
    have hlive₁ := hwrote.live
    rw [Live, ← hinum₁, eff_cached hwrote.ok.table (hwrote.cached hc)] at hlive₁
    rw [← hinum₁]
    exact hlive₁
  have hself₂ : eff s₂ (s.itable ip).inum = (s₂.itable ip).toDinode := by
    rw [← hinum₂]
    exact eff_cached hok₂.table hc₂
  have heffj : ∀ j, j ≠ (s.itable ip).inum → eff s₂ j = eff s j := by
    intro j hj
    rw [heff₂, update_of_ne (hinum₁.symm ▸ hj), hwrote.eff j hj]
  -- the blocks and bytes of the file are what the loop left
  have hblocks : ∀ bn, fileBlock s'.disk (s'.itable ip).toDinode bn
      = fileBlock s₁.disk (s₁.itable ip).toDinode bn := by
    intro bn
    have hblock := hok₂.alloc.fileBlock_of_data (hsb₂ ▸ hdata₃) hlive₂ bn
    rw [hself₂] at hblock
    rw [htable₃, hblock, hdin₂, fileBlock_withSize, hdisk₂]
  have hbytes : ∀ x, fileBlock s₁.disk (s₁.itable ip).toDinode (x / BSIZE) ≠ 0 →
      byteAt s'.disk (s'.itable ip).toDinode x = byteAt s₁.disk (s₁.itable ip).toDinode x := by
    intro x hx
    have hx₂ : fileBlock s₂.disk (eff s₂ (s.itable ip).inum) (x / BSIZE) ≠ 0 := by
      rwa [hself₂, hdin₂, fileBlock_withSize, hdisk₂]
    have hbyte := hok₂.alloc.byteAt_of_data (hsb₂ ▸ hdata₃) hlive₂ hx₂
    rw [hself₂] at hbyte
    rw [htable₃, hbyte, hdin₂, byteAt_withSize, hdisk₂]
  have hfull : ∀ x, x < (s.itable ip).size →
      fileBlock s.disk (s.itable ip).toDinode (x / BSIZE) ≠ 0 := by
    intro x hx
    have heff := eff_cached hok.table hc
    rw [← heff]
    refine hok.alloc.full _ hlive _ ?_
    rw [heff]
    exact Nat.lt_of_le_of_lt (Nat.div_mul_le_self x BSIZE) hx
  have hw := (hwrote.writes.trans hw₂.toWrites).trans hw₃.toWrites
  rw [append_nil] at hw
  obtain ⟨T, hT, hspent⟩ := h.spent
  rw [Nat.sub_zero] at hspent
  refine ⟨hok₃, hw, ?_, ?_, fun j hj => ?_, fun j hj hne x hx => ?_, h.le,
    fun bn hbn => (hblocks bn).trans (hwrote.blocks bn hbn), fun x hx hout => ?_,
    fun g hg x hx hx' => ?_, fun hlt => ?_, fun i c hc => ?_, fun a ha hab => ?_,
    fun hlt b hb hnew => ?_, fun hlt hne => ?_, fun hlt hzero => ?_, fun w hw => ?_,
    fun t ht => ?_, h.start, fun htot hlogok => ?_⟩
  · obtain ⟨as, htable₁⟩ := hwrote.itable
    refine ⟨as, ?_⟩
    rw [htable₃, htable₂, htable₁, update_self, update_idem]
    rfl
  · rw [hdinode₃, update_self, htable₃]
  · rw [heff₃, heffj j hj]
  · obtain ⟨hblock, hbyte⟩ := hwrote.others j hj hne x hx
    have hj₂ : Live s₂.sb (Proofs.eff s₂) j := by
      unfold Live
      rw [hsb₂, heffj j hne]
      exact hj
    have hblock₂ : fileBlock s₂.disk (Proofs.eff s₂ j) (x / BSIZE) ≠ 0 := by
      rwa [heffj j hne, hdisk₂]
    have hbyte' := hok₂.alloc.byteAt_of_data (hsb₂ ▸ hdata₃) hj₂ hblock₂
    rw [heffj j hne, hdisk₂, hbyte] at hbyte'
    exact hbyte'
  · have hblock := hfull x hx
    rw [hbytes x (hwrote.blocks _ hblock ▸ hblock), hwrote.bytes x hblock (by omega)]
  · rw [hbytes x (h.mapped x hx hx'), h.bytes g hg x hx hx', Nat.zero_add]
  · rw [hblocks]
    exact h.failed hlt
  · -- the bytes of a copy that failed are in the block that was mapped for it
    have hlt : tot < n := by
      by_contra hge
      rw [leftBy, if_neg hge] at hc
      simp at hc
    have hi := (List.getElem?_eq_some_iff.mp hc).1
    rw [leftBy, if_pos hlt] at hi
    have hle := src.length_le tot (chunkAt (off + tot) (n - tot))
    have hmin : chunkAt (off + tot) (n - tot) ≤ BSIZE - (off + tot) % BSIZE := Nat.min_le_right _ _
    obtain ⟨hdiv, -⟩ := pos_split (off + tot) i (by omega)
    rw [hbytes _ (by rw [hdiv]; exact (h.failed hlt).2), h.left i c hc]
  · rw [mem_append, not_or] at ha
    rw [hblocks] at hab
    rw [hw₃.disk a ha.2, hdisk₂, h.frame a ha.1 hab]
  · rw [mem_append, not_or] at hnew
    rw [hblocks] at hb
    rw [hw₃.disk b hnew.2, hdisk₂, h.data hlt b hb hnew.1]
  · have hrange := fileBlock_range hok hc hlive hne
    have hiblock := hok.layout.iblock_lt_nmeta (hok.table.inum ip hc.1).2
    rw [mem_append, mem_singleton, not_or]
    exact ⟨h.old hlt hne, by omega⟩
  · rw [hblocks]
    exact mem_append_left _ (h.new hlt hzero)
  · rw [mem_append, mem_singleton] at hw
    refine hw.symm.imp id fun hw => ?_
    rw [hspent.logs]
    exact Finset.mem_union_left _ (mem_toFinset.mpr hw)
  · have hcopied := h.copied t (Nat.zero_le t) ht
    rwa [Nat.sub_zero] at hcopied
  · rw [hT htot] at hspent
    have hw' := hwrote.writes.trans hw₂.toWrites
    rw [append_nil] at hw'
    have hsame : Spent s₁ s₂ ip ∅ ∅ [] := by
      refine .of_eq hw₂.sb (by rw [hdin₂]; rfl) (fun bn => ?_) (by rw [hdisk₂])
      rw [hdin₂, fileBlock_withSize, hdisk₂]
    have hspent' := hspent.trans hsame
    rw [append_nil] at hspent'
    exact hspent'.roomAt hw' hlogok hfits

/-- Writes that do not fit are refused. -/
theorem writei_rejects {src : Source} {off n : Nat} (hoff : off < 2 ^ 32) (hn : n < 2 ^ 32)
    (h : (s.itable ip).size < off ∨ 2 ^ 32 ≤ off + n ∨ MAXFILE * BSIZE < off + n) :
    (writei ip src off n).run s = .ok (-1, s) := by
  have hspec : wp (writei ip src off n) (fun r s' => r = -1 ∧ s' = s) (fun _ => False) s := by
    unfold writei
    rw [wp_bind, wp_get]
    refine wp_ite (fun _ => ⟨rfl, rfl⟩) fun hno => wp_ite (fun _ => ⟨rfl, rfl⟩) fun hno' => ?_
    rw [Nat.mod_eq_of_lt (by omega : off + n < 2 ^ 32)] at hno'
    omega
  obtain ⟨r, s', hrun, rfl, rfl⟩ := wp_returns hspec
  exact hrun

/-- What `writei` does to the file, for every outcome of its copies. -/
theorem writei_spec {src : Source} {off n : Nat} (hok : FsOk s) (hc : Cached s ip)
    (hlive : Live s.sb (eff s) (s.itable ip).inum) (hoff : off ≤ (s.itable ip).size)
    (hmax : off + n ≤ MAXFILE * BSIZE) :
    wp (writei ip src off n)
      (fun r s' => ∃ (tot : Nat) (ws : List Nat), r = tot ∧ WroteFile s s' ip src off n tot ws)
      (IoErr (RoomAt s ip (touched off n))) s := by
  have hlt : off + n < 2 ^ 32 := Nat.lt_of_le_of_lt hmax (by decide)
  unfold writei
  rw [wp_bind, wp_get]
  simp only [Nat.mod_eq_of_lt hlt]
  refine wp_ite (fun h => by omega) fun _ => wp_ite (fun h => by omega) fun _ => ?_
  rw [wp_bind]
  refine wp_mono (writeiLoop_spec n s off 0 n (by omega) (Nat.zero_le _) (by omega) hok hc hlive) ?_
    fun e he => he
  rintro ⟨off', tot⟩ s₁ ⟨ws, hloop⟩
  have hoff' : off' = off + tot := hloop.off_eq
  subst hoff'
  have hwrote := hloop.wrote
  rw [Nat.sub_zero] at hwrote
  dsimp only at hwrote ⊢
  rw [wp_bind]
  refine wp_modifyInode fun s₂ hw₂ hdisk₂ htable₂ => ?_
  have hc₁ := hwrote.cached hc
  obtain ⟨as, htable₁⟩ := hwrote.itable
  have hentry₁ : s₁.itable ip = (s.itable ip).withDinode ((s.itable ip).toDinode.withAddrs as) := by
    rw [htable₁, update_self]
  have hsize₁ : (s₁.itable ip).size = (s.itable ip).size := by
    rw [hentry₁]
    rfl
  -- the size grows up to the last byte written
  have hgrow : (if (s₁.itable ip).size < off + tot then off + tot else (s₁.itable ip).size)
      = max (s.itable ip).size (off + tot) := by
    rw [hsize₁]
    split <;> omega
  rw [hgrow] at htable₂
  obtain ⟨hok₂, heff₂⟩ := hloop.set_size hok hc hlive hoff hmax hw₂ hdisk₂ htable₂
  have hc₂ : Cached s₂ ip := by
    unfold Cached
    rw [htable₂, update_self]
    exact hc₁
  rw [wp_bind]
  refine wp_mono (iupdate_spec hok₂ hc₂) ?_ fun e he => he.mono fun hroom => ?_
  · rintro - s' ⟨hfits, hw₃, htable₃, hok₃, heff₃, hdinode₃, hdata₃⟩
    rw [wp_pure]
    exact ⟨tot, _, rfl, hloop.written hok hc hlive hw₂ hdisk₂ htable₂ hfits hok₂ heff₂ hw₃ htable₃
      hok₃ heff₃ hdinode₃ hdata₃⟩
  · obtain ⟨T, -, hspent⟩ := hloop.spent
    rw [Nat.sub_zero] at hspent
    exact (hw₂.log.room (by simp) (hroom.spend hspent hwrote.writes).log).fits

end Xv6.Proofs
