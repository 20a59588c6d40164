import Xv6.Proofs.Fs.Table

/-!
# `Xv6.Proofs.Fs.Blocks`: allocating blocks

`balloc` takes a free block (`BlockTaken`), and `bmap` gives the block of a file, taking one or two
if there is none. Both are specified by what they do to the disk and to the view of the inodes; the
block allocation invariant then follows from the lemmas about `BlockTaken`.
-/

set_option autoImplicit false

namespace Xv6.Proofs

open Lib Fs List
open Function (update_eq_self update_idem update_of_ne update_self)

variable {s : Fs}

variable {b bn : Nat} {sb : Superblock} {disk disk' : Disk}

/-! ### The free blocks -/

/-- The free blocks, in the order in which `balloc` finds them. -/
def freeBlocks (sb : Superblock) (disk : Disk) : List Nat :=
  (List.range sb.size).filter fun b => !mapBit sb disk b

theorem mem_freeBlocks : b ∈ freeBlocks sb disk ↔ b < sb.size ∧ mapBit sb disk b = false := by
  simp [freeBlocks]

theorem freeBlocks_congr (h : ∀ b, b < sb.size → mapBit sb disk' b = mapBit sb disk b) :
    freeBlocks sb disk' = freeBlocks sb disk := by
  refine filter_congr fun b hb => ?_
  rw [h b (mem_range.mp hb)]

/-- The first free block is taken. -/
theorem BlockTaken.freeBlocks (h : BlockTaken sb disk disk' b)
    (hfirst : ∀ c, c < b → mapBit sb disk c = true) :
    freeBlocks sb disk = b :: freeBlocks sb disk' := by
  have hsplit : List.range sb.size
      = List.range b ++ b :: List.range' (b + 1) (sb.size - (b + 1)) := by
    have hlt := h.lt
    rw [← range'_succ, range_eq_range', range_eq_range',
      show range' 0 sb.size = range' 0 (b + (sb.size - (b + 1) + 1)) by congr 1; omega,
      ← range'_append_1, Nat.zero_add]
  have hother : ∀ c, c < sb.size → c ≠ b → mapBit sb disk' c = mapBit sb disk c := by
    intro c hc hne
    rw [h.map c hc, update_of_ne hne]
  unfold Proofs.freeBlocks
  rw [hsplit, filter_append, filter_append, filter_cons_of_pos (by simp [h.free]),
    filter_cons_of_neg (by simp [h.map b h.lt])]
  -- the blocks before it are not free, and those behind it are as before
  have hbefore : ∀ d : Disk, (∀ c, c < b → mapBit sb d c = true) →
      (List.range b).filter (fun c => !mapBit sb d c) = [] := by
    intro d hd
    refine filter_eq_nil_iff.mpr fun c hc => ?_
    simp [hd c (mem_range.mp hc)]
  have hlt := h.lt
  rw [hbefore disk hfirst, hbefore disk' fun c hc => ?_, nil_append, nil_append]
  · congr 1
    refine filter_congr fun c hc => ?_
    have hc := mem_range'_1.mp hc
    rw [hother c (by omega) (by omega)]
  · rw [hother c (by omega) (by omega), hfirst c hc]

/-- The blocks that `balloc` logs when it takes the blocks `new`: their bits, and the blocks. -/
def takenLog (sb : Superblock) (new : List Nat) : List Nat := new.flatMap fun b => [BBLOCK b sb, b]

theorem mem_takenLog {w : Nat} {new : List Nat} :
    w ∈ takenLog sb new ↔ ∃ a ∈ new, w = BBLOCK a sb ∨ w = a := by
  simp [takenLog]

theorem takenLog_append (sb : Superblock) (new new' : List Nat) :
    takenLog sb (new ++ new') = takenLog sb new ++ takenLog sb new' := flatMap_append

/-- Room for `n` more blocks, on the disk and in the log. -/
def BlocksRoom (s : Fs) (n : Nat) : Prop :=
  ∃ new free, freeBlocks s.sb s.disk = new ++ free ∧ new.length = n ∧
    Room s.log (takenLog s.sb new).toFinset

/-- Room for more blocks is room for fewer. -/
theorem BlocksRoom.mono {m n : Nat} (h : BlocksRoom s n) (hle : m ≤ n) : BlocksRoom s m := by
  obtain ⟨new, free, hfree, rfl, hroom⟩ := h
  refine ⟨new.take m, new.drop m ++ free, ?_, by rw [length_take, Nat.min_eq_left hle],
    hroom.mono fun w hw => ?_⟩
  · rw [← append_assoc, take_append_drop, hfree]
  · rw [mem_toFinset, mem_takenLog] at hw ⊢
    exact hw.imp fun a ha => ⟨mem_of_mem_take ha.1, ha.2⟩

/-- The room that is left after the first free blocks have been taken. -/
theorem BlocksRoom.after {s' : Fs} {new : List Nat} {n : Nat}
    (h : BlocksRoom s (new.length + n)) (hsb : s'.sb = s.sb)
    (hfree : freeBlocks s.sb s.disk = new ++ freeBlocks s.sb s'.disk)
    (hlog : Logged s.log s'.log (takenLog s.sb new)) : BlocksRoom s' n := by
  obtain ⟨all, free, hall, hlen, hroom⟩ := h
  obtain ⟨rest, rfl⟩ : new <+: all := by
    refine prefix_of_prefix_length_le ⟨_, hfree.symm⟩ ⟨free, hall.symm⟩ ?_
    omega
  rw [length_append] at hlen
  rw [takenLog_append, toFinset_append] at hroom
  refine ⟨rest, free, ?_, by omega, (hlog.room Finset.subset_union_left hroom).mono ?_⟩
  · rw [hfree, append_assoc] at hall
    rw [hsb, append_cancel_left hall]
  · rw [hsb]
    exact Finset.subset_union_right

/-! ### `balloc` -/

/-- The bit of block `b + bi` when `b` is the first block of a block of the map. -/
theorem bit_split (sb : Superblock) {bi : Nat} (hb : b % BPB = 0) (hbi : bi < BPB) :
    BBLOCK (b + bi) sb = BBLOCK b sb ∧ (b + bi) % BPB = bi := by
  unfold BBLOCK
  rw [BPB_eq] at *
  omega

/-- Marking a free block and zeroing it is what taking it means. -/
theorem taken_of_free {disk : Disk} (hl : Layout sb) (hb : b < sb.size) (hmeta : nmeta sb ≤ b)
    (hfree : mapBit sb disk b = false) :
    BlockTaken sb disk (Function.update (Function.update disk (BBLOCK b sb)
      (setBit (disk (BBLOCK b sb)) (b % BPB))) b fun _ => 0) b where
  lt := hb
  free := hfree
  map c hc := by rw [mapBit_update_data hmeta hc, mapBit_setBit]
  zero := update_self ..
  other a ha hab := by
    have := bblock_lt hb
    rw [update_of_ne hab, update_of_ne (by omega)]
  dinode i hi := by
    rw [dinodeOf_update_data hl hmeta hi, dinodeOf_update_of_ne (hl.iblock_ne_bblock hi b).symm]

/-- The search from block `b` on finds the first free block; the ones before `b` are in use. -/
theorem ballocLoop_spec (hl : Layout s.sb)
    (hmeta : ∀ c, c < nmeta s.sb → mapBit s.sb s.disk c = true) :
    ∀ rounds b, b % BPB = 0 → s.sb.size < b + rounds * BPB →
      (∀ c, c < b → c < s.sb.size → mapBit s.sb s.disk c = true) →
      wp (ballocLoop rounds b)
        (fun r s' => BlockTaken s.sb s.disk s'.disk r ∧
          freeBlocks s.sb s.disk = r :: freeBlocks s.sb s'.disk ∧
          Updates s s' [BBLOCK r s.sb, r] ∧ s'.itable = s.itable)
        (IoErr (BlocksRoom s 1)) s := by
  -- when the search ends without a block, all blocks are in use
  have hfail : ∀ b, s.sb.size ≤ b → (∀ c, c < b → c < s.sb.size → mapBit s.sb s.disk c = true) →
      IoErr (BlocksRoom s 1) FsPanic.outOfBlocks := by
    intro b hb hused
    refine ⟨.inl rfl, ?_⟩
    rintro ⟨new, free, hfree, hlen, -⟩
    obtain ⟨c, rfl⟩ := length_eq_one_iff.mp hlen
    have hc : c ∈ freeBlocks s.sb s.disk := hfree ▸ mem_cons_self
    rw [mem_freeBlocks] at hc
    rw [hused c (by omega) hc.1] at hc
    exact Bool.noConfusion hc.2
  intro rounds
  induction rounds with
  | zero =>
    intro b hb hsize hused
    exact hfail b (by omega) hused
  | succ rounds ih =>
    intro b hb hsize hused
    rw [ballocLoop, wp_bind, wp_get]
    refine wp_ite (fun hlt => ?_) fun hge => hfail b (by omega) hused
    -- the bits of this block of the map that have been tested
    have htested : ∀ c, b ≤ c → c < b + BPB →
        testBit (s.disk (BBLOCK b s.sb)) (c - b) = true → mapBit s.sb s.disk c = true := by
      intro c hbc hc hbit
      have hsplit := bit_split s.sb hb (show c - b < BPB by omega)
      rw [Nat.add_sub_cancel' hbc] at hsplit
      unfold mapBit
      rw [hsplit.1, hsplit.2]
      exact hbit
    cases hbit : freeBit (s.disk (BBLOCK b s.sb)) b s.sb.size with
    | none =>
      -- this block of the map is full
      have hnone := find?_eq_none.mp hbit
      refine ih (b + BPB) ((Nat.add_mod_right ..).trans hb)
        (by rw [Nat.succ_mul] at hsize; omega) fun c hc hcs => ?_
      by_cases hcb : c < b
      · exact hused c hcb hcs
      · have hbit := hnone (c - b) (mem_range.mpr (by omega))
        exact htested c (by omega) hc (by simpa using hbit)
    | some bi =>
      obtain ⟨hzero, hbi, hbefore⟩ := find?_range_eq_some.mp hbit
      rw [mem_range] at hbi
      have hsplit := bit_split s.sb hb (show bi < BPB by omega)
      have hfree : mapBit s.sb s.disk (b + bi) = false := by
        unfold mapBit
        rw [hsplit.1, hsplit.2]
        simpa using hzero
      have hlt : b + bi < s.sb.size := by omega
      have hnmeta : nmeta s.sb ≤ b + bi := by
        by_contra hnot
        rw [hmeta _ (Nat.lt_of_not_le hnot)] at hfree
        exact Bool.noConfusion hfree
      have htaken := taken_of_free hl hlt hnmeta hfree
      have hfirst := htaken.freeBlocks fun c hc => by
        by_cases hcb : c < b
        · exact hused c hcb (by omega)
        · have hbit := hbefore (c - b) (by omega)
          exact htested c (by omega) (by omega) (by simpa using hbit)
      have hroom : BlocksRoom s 1 → Room s.log {BBLOCK (b + bi) s.sb} := by
        rintro ⟨new, free, heq, hlen, hroom⟩
        obtain ⟨c, rfl⟩ := length_eq_one_iff.mp hlen
        obtain ⟨rfl, -⟩ := cons_eq_cons.mp (hfirst.symm.trans heq)
        exact hroom.mono (by simp [takenLog])
      show wp (update _ _ >>= fun _ => _) _ _ _
      rw [wp_bind]
      refine wp_mono (update_spec _ _ s) ?_ fun e he => he.mono fun h => (hroom h).fits
      rintro - s₁ ⟨-, hw₁, hdisk₁, htable₁⟩
      show wp (bzero _ >>= fun _ => _) _ _ _
      rw [wp_bind]
      refine wp_mono (update_spec _ _ s₁) ?_ fun e he => he.mono fun h => ?_
      · rintro - s₂ ⟨-, hw₂, hdisk₂, htable₂⟩
        have hw := hw₁.trans hw₂
        rw [hsplit.1, hsplit.2] at htaken hfirst
        rw [wp_pure, hdisk₂, hdisk₁]
        exact ⟨htaken, hfirst, by rw [hsplit.1]; exact hw, htable₂.trans htable₁⟩
      · exact (hw₁.log.room (by simp [hsplit.1]) (hroom h)).fits

/-- `balloc` takes the first free block, or there is no room for one on the disk or in the log. -/
theorem balloc_spec (hl : Layout s.sb)
    (hmeta : ∀ c, c < nmeta s.sb → mapBit s.sb s.disk c = true) :
    wp balloc
      (fun b s' => BlockTaken s.sb s.disk s'.disk b ∧
        freeBlocks s.sb s.disk = b :: freeBlocks s.sb s'.disk ∧
        Updates s s' [BBLOCK b s.sb, b] ∧ s'.itable = s.itable)
      (IoErr (BlocksRoom s 1)) s := by
  unfold balloc
  rw [wp_bind, wp_get]
  refine ballocLoop_spec hl hmeta _ 0 (Nat.zero_mod _) ?_ fun c hc => absurd hc (Nat.not_lt_zero c)
  have hdiv := Nat.lt_div_mul_add (a := s.sb.size) (b := BPB) (by decide)
  rw [Nat.succ_mul]
  omega

/-! ### The blocks of a file -/

structure FsOk (s : Fs) : Prop where
  layout : Layout s.sb
  table : TableOk s
  alloc : AllocInv s.sb s.disk (eff s)

theorem FsOk.meta_used (h : FsOk s) : ∀ c, c < nmeta s.sb → mapBit s.sb s.disk c = true := by
  intro c hc
  have hsize : c < s.sb.size := by
    have := h.layout.nblocks
    omega
  exact (h.alloc.map.used_iff c hsize).mpr (.inl hc)

/-- The file of an entry may have more blocks than before. -/
structure Mapped (s s' : Fs) (ip : InodeId) (ws : List Nat) : Prop where
  ok : FsOk s'
  writes : Updates s s' ws
  itable : ∃ as, s'.itable = Function.update s.itable ip
    ((s.itable ip).withDinode ((s.itable ip).toDinode.withAddrs as))
  grown : Grown s.sb (s.itable ip).inum s.disk (eff s) s'.disk (eff s')
  dinode : ∀ i, i < s.sb.ninodes → dinodeOf s.sb s'.disk i = dinodeOf s.sb s.disk i

section

variable {s₁ s₂ : Fs} {ip : InodeId} {ws ws' : List Nat}

theorem Mapped.refl (h : FsOk s) (ip : InodeId) : Mapped s s ip [] where
  ok := h
  writes := .refl s
  itable := ⟨(s.itable ip).addrs, (update_eq_self ip s.itable).symm⟩
  grown := .refl ..
  dinode _ _ := rfl

section

variable (h : Mapped s s₁ ip ws)
include h

theorem Mapped.entry :
    ∃ as, s₁.itable ip = (s.itable ip).withDinode ((s.itable ip).toDinode.withAddrs as) := by
  obtain ⟨as, htable⟩ := h.itable
  exact ⟨as, by rw [htable, update_self]⟩

theorem Mapped.inum : (s₁.itable ip).inum = (s.itable ip).inum := by
  obtain ⟨as, hentry⟩ := h.entry
  rw [hentry]
  rfl

theorem Mapped.cached (hc : Cached s ip) : Cached s₁ ip := by
  obtain ⟨as, hentry⟩ := h.entry
  unfold Cached
  rw [hentry]
  exact hc

theorem Mapped.live (hlive : Live s.sb (eff s) (s.itable ip).inum) :
    Live s₁.sb (eff s₁) (s₁.itable ip).inum := by
  rw [h.writes.sb, h.inum]
  exact (h.grown.live _).mpr hlive

/-- Two additions to the places of one inode. -/
theorem Mapped.trans (h' : Mapped s₁ s₂ ip ws') : Mapped s s₂ ip (ws ++ ws') where
  ok := h'.ok
  writes := h.writes.trans h'.writes
  itable := by
    obtain ⟨as, htable⟩ := h.itable
    obtain ⟨as', htable'⟩ := h'.itable
    refine ⟨as', ?_⟩
    rw [htable', htable, update_self, update_idem]
    rfl
  grown := by
    have hgrown := h'.grown
    rw [h.writes.sb, h.inum] at hgrown
    exact h.grown.trans hgrown
  dinode i hi := by
    have hdinode := h'.dinode i
    rw [h.writes.sb] at hdinode
    rw [hdinode hi, h.dinode i hi]

end

end

/-- A block that exists is not allocated. -/
theorem bmap_of_ne_zero {ip : InodeId} (hne : fileBlock s.disk (s.itable ip).toDinode bn ≠ 0) :
    wp (bmap ip bn) (fun b s' => b = fileBlock s.disk (s.itable ip).toDinode bn ∧ s' = s)
      (fun _ => False) s := by
  have hget : ∀ k, (s.itable ip).addrs k ≠ 0 →
      wp (getAddr ip k) (fun b s' => b = (s.itable ip).addrs k ∧ s' = s) (fun _ => False) s := by
    intro k hk
    unfold getAddr
    rw [wp_bind, wp_get]
    exact wp_ite (fun hzero => absurd hzero hk) fun _ => ⟨rfl, rfl⟩
  unfold bmap
  split
  · rename_i hbn
    rw [fileBlock_of_ptrOf (ptrOf_direct hbn)] at hne ⊢
    exact hget _ hne
  · rename_i hbn
    refine wp_ite (fun hind => ?_) fun hind => ?_
    · rw [fileBlock_of_ptrOf (ptrOf_indirect hbn hind), ptr_entry] at hne ⊢
      have hindne : (s.itable ip).ind ≠ 0 := fun hzero => hne (if_pos hzero)
      rw [if_neg hindne] at hne ⊢
      rw [wp_bind]
      refine wp_post (hget _ hindne) ?_
      rintro a s' ⟨rfl, rfl⟩
      rw [wp_bind, wp_get]
      exact wp_ite (fun hzero => absurd hzero hne) fun _ => ⟨rfl, rfl⟩
    · refine absurd ?_ hne
      rw [fileBlock, ptrOf, dif_neg hbn, dif_neg hind]
      rfl

/-- What `getAddr` returns, and what else it does: `new` are the blocks that it has taken. -/
structure GotAddr (s s' : Fs) (ip : InodeId) (k : Fin (NDIRECT + 1)) (b : Nat) (new : List Nat) :
    Prop extends Mapped s s' ip (takenLog s.sb new) where
  ne_zero : b ≠ 0
  old : (s.itable ip).addrs k ≠ 0 → b = (s.itable ip).addrs k ∧ new = []
  fresh : (s.itable ip).addrs k = 0 → new = [b]
  free : freeBlocks s.sb s.disk = new ++ freeBlocks s.sb s'.disk
  addrs : (s'.itable ip).addrs = Function.update (s.itable ip).addrs k b
  entries : ∀ e, ptr s'.disk (s'.itable ip).toDinode (.entry e)
    = ptr s.disk (s.itable ip).toDinode (.entry e)

/-- `getAddr` gives an address of the inode, taking a block if there is none. -/
theorem getAddr_spec {ip : InodeId} (hok : FsOk s) (hc : Cached s ip)
    (hlive : Live s.sb (eff s) (s.itable ip).inum) (k : Fin (NDIRECT + 1)) :
    wp (getAddr ip k) (fun b s' => ∃ new, GotAddr s s' ip k b new)
      (IoErr ((s.itable ip).addrs k = 0 → BlocksRoom s 1)) s := by
  unfold getAddr
  rw [wp_bind, wp_get]
  refine wp_ite (fun hzero => ?_) fun hne => ?_
  · rw [wp_bind]
    refine wp_mono (balloc_spec hok.layout hok.meta_used) ?_ fun e he => he.mono fun h => h hzero
    rintro b s₁ ⟨htaken, hfree, hw, htable⟩
    show wp (setAddr ip k b >>= fun _ => _) _ _ _
    rw [wp_bind]
    refine wp_modifyInode fun s' hw' hdisk' htable' => ?_
    rw [wp_pure]
    set d := (s.itable ip).toDinode with hd
    have heff : eff s (s.itable ip).inum = d := eff_cached hok.table hc
    have hk : (eff s (s.itable ip).inum).addrs k = 0 := by
      rw [heff]
      exact hzero
    obtain ⟨halloc, hgrown, hentries⟩ := hok.alloc.alloc_addr htaken hlive hk
    rw [heff] at halloc hgrown hentries
    have hfits := hok.table.fits ip hc
    have hw := hw.trans hw'
    rw [append_nil] at hw
    replace htable' : s'.itable = Function.update s.itable ip
        ((s.itable ip).withDinode (d.withAddrs (Function.update d.addrs k b))) := by
      rw [htable', htable]
      rfl
    rw [← hdisk'] at halloc hgrown hentries htaken hfree
    -- the new address is a block number
    have hfits' : FieldsFit (d.withAddrs (Function.update d.addrs k b)) := by
      refine ⟨hfits.type, hfits.major, hfits.minor, hfits.nlink, hfits.size, fun k' => ?_⟩
      show Function.update d.addrs k b k' < _
      by_cases hk' : k' = k
      · rw [hk', update_self]
        exact Nat.lt_trans htaken.lt hok.layout.size_lt
      · rw [update_of_ne hk']
        exact hfits.addrs k'
    obtain ⟨htab, heff'⟩ := eff_set hok.table hc hw.sb htable' rfl hc.1 hc.2 hfits'
      fun j hj _ => htaken.dinode j hj
    rw [Inode.toDinode_withDinode] at heff'
    rw [← heff'] at halloc hgrown
    refine ⟨[b], ⟨⟨hw.sb ▸ hok.layout, htab, hw.sb ▸ halloc⟩, hw, ⟨_, htable'⟩, hgrown,
      htaken.dinode⟩, ?_, fun hne => absurd hzero hne, fun _ => rfl, hfree, ?_, fun e => ?_⟩
    · have := hok.alloc.taken_pos htaken
      have := hok.layout.nmeta_pos
      omega
    · rw [htable', update_self]
      rfl
    · rw [htable', update_self]
      exact hentries e
  · exact ⟨[], .refl hok ip, hne, fun _ => ⟨rfl, rfl⟩, fun hzero => absurd hzero hne, rfl,
      (update_eq_self k _).symm, fun _ => rfl⟩

/-! ### `bmap` -/

/-- The number of blocks that `bmap` allocates. -/
def need (disk : Disk) (d : Dinode) (bn : Nat) : Nat :=
  (if fileBlock disk d bn = 0 then 1 else 0) + if NDIRECT ≤ bn ∧ d.ind = 0 then 1 else 0

/-- What `bmap` returns, and what else it does: it has taken the blocks `new`. -/
structure Bmapped (s s' : Fs) (ip : InodeId) (bn b : Nat) (new ws : List Nat) : Prop
    extends Mapped s s' ip ws where
  ne_zero : b ≠ 0
  same : fileBlock s.disk (s.itable ip).toDinode bn ≠ 0 →
    b = fileBlock s.disk (s.itable ip).toDinode bn
  block : fileBlock s'.disk (s'.itable ip).toDinode bn = b
  blocks : ∀ bn', bn' ≠ bn → fileBlock s'.disk (s'.itable ip).toDinode bn'
    = fileBlock s.disk (s.itable ip).toDinode bn'
  ind : (s.itable ip).ind ≠ 0 ∨ bn < NDIRECT → (s'.itable ip).ind = (s.itable ip).ind
  ind_ne : NDIRECT ≤ bn → (s'.itable ip).ind ≠ 0
  /-- the entry of the indirect block is written last -/
  logs : ws = takenLog s.sb new ++
    if NDIRECT ≤ bn ∧ fileBlock s.disk (s.itable ip).toDinode bn = 0 then [(s'.itable ip).ind]
    else []
  free : freeBlocks s.sb s.disk = new ++ freeBlocks s.sb s'.disk
  length : new.length = need s.disk (s.itable ip).toDinode bn
  mem : ∀ a, a ∈ new ↔ fileBlock s.disk (s.itable ip).toDinode bn = 0 ∧ a = b ∨
    NDIRECT ≤ bn ∧ (s.itable ip).ind = 0 ∧ a = (s'.itable ip).ind

/-- A file with a block in the indirect table has the table. -/
theorem ind_ne_of_fileBlock {disk : Disk} {d : Dinode} (hbn : NDIRECT ≤ bn)
    (hne : fileBlock disk d bn ≠ 0) : d.ind ≠ 0 := by
  intro hind
  unfold fileBlock at hne
  cases hp : ptrOf bn with
  | none => simp [hp] at hne
  | some p =>
    rw [hp] at hne
    unfold ptrOf at hp
    rw [dif_neg (Nat.not_lt.mpr hbn)] at hp
    split at hp
    · cases hp
      simp [ptr_entry, hind] at hne
    · cases hp

section Bmap

variable {ip : InodeId} (hok : FsOk s) (hc : Cached s ip)
  (hlive : Live s.sb (eff s) (s.itable ip).inum)
include hok hc hlive

/-- A block that is missing is put into an address of the inode. -/
theorem bmap_direct_spec (hnone : fileBlock s.disk (s.itable ip).toDinode bn = 0)
    (hbn : bn < NDIRECT) :
    wp (bmap ip bn) (fun b s' => ∃ new ws, Bmapped s s' ip bn b new ws)
      (IoErr (BlocksRoom s (need s.disk (s.itable ip).toDinode bn))) s := by
  have hblock : fileBlock s.disk (s.itable ip).toDinode bn
      = (s.itable ip).addrs ⟨bn, Nat.lt_succ_of_lt hbn⟩ := fileBlock_of_ptrOf (ptrOf_direct hbn)
  have hdirect : ∀ P : Prop, ¬ (NDIRECT ≤ bn ∧ P) := fun P h => absurd hbn (Nat.not_lt.mpr h.1)
  have hneed : need s.disk (s.itable ip).toDinode bn = 1 := by
    rw [need, if_pos hnone, if_neg (hdirect _)]
  have hlast : Fin.last NDIRECT ≠ ⟨bn, Nat.lt_succ_of_lt hbn⟩ := by
    intro heq
    exact absurd hbn (by rw [← show NDIRECT = bn from congrArg Fin.val heq]; exact lt_irrefl _)
  rw [bmap, dif_pos hbn, hneed]
  refine wp_mono (getAddr_spec hok hc hlive _) ?_ fun e he => he.mono fun h _ => h
  rintro b s' ⟨new, hgot⟩
  have hnew := hgot.fresh (hblock.symm.trans hnone)
  refine ⟨new, _, hgot.toMapped, hgot.ne_zero, (absurd hnone ·), ?_, fun bn' hbn' => ?_,
    fun _ => ?_,
    fun hge => absurd ⟨hge, trivial⟩ (hdirect True), ?_, hgot.free, ?_, fun a => ?_⟩
  · rw [fileBlock_of_ptrOf (ptrOf_direct hbn), ptr_addr, hgot.addrs, update_self]
  · exact fileBlock_of_addr hgot.addrs hgot.entries fun hp =>
      hbn' (ptrOf_inj hp (ptrOf_direct hbn))
  · rw [Dinode.ind, hgot.addrs, update_of_ne hlast]
    rfl
  · rw [if_neg (hdirect _), append_nil]
  · rw [hneed, hnew, length_singleton]
  · rw [hnew, mem_singleton, or_iff_left (hdirect _), and_iff_right hnone]

/-- What the part of `bmap` does that fills entry `e` of the indirect block with block `b`. -/
structure FilledEntry (s s' : Fs) (ip : InodeId) (e : Fin NINDIRECT) (b : Nat) : Prop
    extends Mapped s s' ip (takenLog s.sb [b] ++ [(s.itable ip).ind]) where
  ne_zero : b ≠ 0
  table : s'.itable = s.itable
  self : ptr s'.disk (s.itable ip).toDinode (.entry e) = b
  other : ∀ e', e' ≠ e → ptr s'.disk (s.itable ip).toDinode (.entry e')
    = ptr s.disk (s.itable ip).toDinode (.entry e')
  free : freeBlocks s.sb s.disk = b :: freeBlocks s.sb s'.disk

/-- A new block is put into an entry of the indirect block. -/
theorem allocEntry_spec (hind : (s.itable ip).ind ≠ 0) {e : Fin NINDIRECT}
    (he : indirectEntry (s.disk (s.itable ip).ind) e = 0) :
    wp (do
        let addr ← balloc
        update (s.itable ip).ind fun buf => putLE buf (4 * e) 4 addr
        return addr)
      (fun b s' => FilledEntry s s' ip e b) (IoErr (BlocksRoom s 1)) s := by
  rw [wp_bind]
  refine wp_mono (balloc_spec hok.layout hok.meta_used) ?_ fun _ he => he
  rintro b s₁ ⟨htaken, hfree, hw₁, htable₁⟩
  rw [wp_bind]
  refine wp_mono (update_spec _ _ s₁) ?_ fun e he => he.mono fun hroom => ?_
  · rintro - s₂ ⟨-, hw₂, hdisk₂, htable₂⟩
    rw [wp_pure]
    set d := (s.itable ip).toDinode with hd
    have heff : eff s (s.itable ip).inum = d := eff_cached hok.table hc
    have hind₀ : (eff s (s.itable ip).inum).ind ≠ 0 := by rwa [heff]
    have he₀ : indirectEntry (s.disk (eff s (s.itable ip).inum).ind) e = 0 := by rwa [heff]
    obtain ⟨halloc, hgrown, hnew, hold⟩ :=
      hok.alloc.alloc_entry hok.layout htaken hlive hind₀ he₀
    rw [heff, ← hdisk₂] at halloc hgrown hnew hold
    have hw := hw₁.trans hw₂
    have htable : s₂.itable = s.itable := htable₂.trans htable₁
    have hrange := hok.alloc.ind_range hlive hind₀
    rw [heff] at hrange
    have hdinode : ∀ i, i < s.sb.ninodes → dinodeOf s.sb s₂.disk i = dinodeOf s.sb s.disk i := by
      intro i hi
      rw [hdisk₂, dinodeOf_update_data hok.layout hrange.1 hi, htaken.dinode i hi]
    have hset := @eff_set s s₂ ip hok.table hc hw.sb (s.itable ip)
      (by rw [htable, update_eq_self]) rfl hc.1 hc.2 (hok.table.fits ip hc)
      fun j hj _ => hdinode j hj
    obtain ⟨htab, heff'⟩ := hset
    rw [← hd, ← heff, update_eq_self] at heff'
    refine ⟨⟨⟨hw.sb ▸ hok.layout, htab, ?_⟩, hw, ?_, ?_, hdinode⟩, ?_, htable, hnew, hold, ?_⟩
    · rw [hw.sb, heff']
      exact halloc
    · exact ⟨d.addrs, by rw [htable]; exact (update_eq_self ip s.itable).symm⟩
    · rw [heff']
      exact hgrown
    · have := hok.alloc.taken_pos htaken
      have := hok.layout.nmeta_pos
      omega
    · rw [hfree, hdisk₂, freeBlocks_congr fun c hc => mapBit_update_data hrange.1 hc _]
  · -- the entry is written after the block has been taken
    obtain ⟨new, free, heq, hlen, hroom⟩ := hroom
    obtain ⟨c, rfl⟩ := length_eq_one_iff.mp hlen
    obtain ⟨rfl, -⟩ := cons_eq_cons.mp (hfree.symm.trans heq)
    exact (hw₁.log.room (Finset.Subset.refl _) hroom).fits

/-- A block that is missing is put into the indirect block, which may be missing as well. -/
theorem bmap_indirect_spec (hnone : fileBlock s.disk (s.itable ip).toDinode bn = 0)
    (hbn : ¬ bn < NDIRECT) (hbn' : bn - NDIRECT < NINDIRECT) :
    wp (bmap ip bn) (fun b s' => ∃ new ws, Bmapped s s' ip bn b new ws)
      (IoErr (BlocksRoom s (need s.disk (s.itable ip).toDinode bn))) s := by
  have hge : NDIRECT ≤ bn := Nat.le_of_not_lt hbn
  have hptr := ptrOf_indirect hbn hbn'
  have hneed : need s.disk (s.itable ip).toDinode bn = (if (s.itable ip).ind = 0 then 1 else 0) + 1
      := by
    rw [need, if_pos hnone, Nat.add_comm]
    simp [hge]
  rw [bmap, dif_neg hbn, if_pos hbn', wp_bind]
  refine wp_mono (getAddr_spec hok hc hlive (Fin.last NDIRECT)) ?_ fun e he => he.mono ?_
  swap
  · exact fun h _ => h.mono (by omega)
  rintro ind s₁ ⟨new, hgot⟩
  have hmap := hgot.toMapped
  have hind : (s₁.itable ip).ind = ind := by rw [Dinode.ind, hgot.addrs, update_self]
  have hlen : new.length = if (s.itable ip).ind = 0 then 1 else 0 := by
    split
    · rename_i hzero
      rw [hgot.fresh hzero, length_singleton]
    · rename_i hne
      rw [(hgot.old hne).2, length_nil]
  -- the table is there now, and the entries are what they were
  have hentry := hgot.entries ⟨bn - NDIRECT, hbn'⟩
  rw [ptr_entry, hind, if_neg hgot.ne_zero] at hentry
  have hblock : fileBlock s.disk (s.itable ip).toDinode bn
      = indirectEntry (s₁.disk ind) (bn - NDIRECT) := by
    rw [fileBlock_of_ptrOf hptr, ← hentry]
  have hblocks : ∀ bn', fileBlock s₁.disk (s₁.itable ip).toDinode bn'
      = fileBlock s.disk (s.itable ip).toDinode bn' := by
    intro bn'
    exact fileBlock_of_addr hgot.addrs hgot.entries fun hp => ptrOf_ne_ind hp rfl
  rw [wp_bind, wp_get]
  refine wp_ite (fun hzero => ?_) fun hnz => absurd (hblock.symm.trans hnone) hnz
  have hzero₁ : indirectEntry (s₁.disk (s₁.itable ip).ind) (⟨_, hbn'⟩ : Fin NINDIRECT) = 0 := by
    rw [hind]
    exact hzero
  have hspec := allocEntry_spec hmap.ok (hmap.cached hc) (hmap.live hlive)
    (hind.symm ▸ hgot.ne_zero) hzero₁
  rw [hind] at hspec
  have hsb := hmap.writes.sb
  refine wp_mono hspec ?_ fun e he => he.mono fun hroom => ?_
  · rintro b s₂ hfilled
    have hind₂ : (s₂.itable ip).ind = ind := by rw [hfilled.table, hind]
    have hfree₂ := hfilled.free
    rw [hsb] at hfree₂
    refine ⟨new ++ [b], _, hmap.trans hfilled.toMapped, hfilled.ne_zero, (absurd hnone ·), ?_,
      fun bn' hne' => ?_, fun h => ?_, fun _ => hind₂ ▸ hgot.ne_zero, ?_, ?_, ?_, fun a => ?_⟩
    · rw [fileBlock_of_ptrOf hptr, hfilled.table, hfilled.self]
    · rw [← hblocks bn', hfilled.table]
      exact fileBlock_of_entry hfilled.other fun hp => hne' (ptrOf_inj hp hptr)
    · exact hind₂.trans (hgot.old (h.resolve_right hbn)).1
    · rw [if_pos ⟨hge, hnone⟩, hind₂, hind, hsb, takenLog_append, append_assoc]
    · rw [hgot.free, hfree₂, append_assoc]
      rfl
    · rw [length_append, length_singleton, hlen, hneed]
    · rw [mem_append, mem_singleton, or_comm, and_iff_right hnone, and_iff_right hge, hind₂]
      refine or_congr_right ?_
      by_cases hzero' : (s.itable ip).ind = 0
      · rw [hgot.fresh hzero', mem_singleton, and_iff_right hzero']
      · rw [(hgot.old hzero').2]
        exact iff_of_false not_mem_nil fun h => hzero' h.1
  · -- there is room for the second block after the first
    rw [hneed, ← hlen] at hroom
    exact hroom.after hsb hgot.free hmap.writes.log

/-- `bmap` returns the block of the file, and adds it first if it is missing. -/
theorem bmap_spec (hbn : bn < MAXFILE) :
    wp (bmap ip bn) (fun b s' => ∃ new ws, Bmapped s s' ip bn b new ws)
      (IoErr (BlocksRoom s (need s.disk (s.itable ip).toDinode bn))) s := by
  by_cases hnone : fileBlock s.disk (s.itable ip).toDinode bn = 0
  · by_cases hdirect : bn < NDIRECT
    · exact bmap_direct_spec hok hc hlive hnone hdirect
    · exact bmap_indirect_spec hok hc hlive hnone hdirect (by unfold MAXFILE at hbn; omega)
  · -- the block is there, and nothing happens
    refine wp_mono (bmap_of_ne_zero hnone) ?_ fun _ he => he.elim
    rintro b s' ⟨rfl, rfl⟩
    have hind : NDIRECT ≤ bn → (s'.itable ip).ind ≠ 0 := fun hge => ind_ne_of_fileBlock hge hnone
    refine ⟨[], [], .refl hok ip, hnone, fun _ => rfl, rfl, fun _ _ => rfl, fun _ => rfl, hind, ?_,
      rfl, ?_, fun a => ?_⟩
    · rw [if_neg fun h => hnone h.2]
      rfl
    · rw [need, if_neg hnone, if_neg fun h => hind h.1 h.2]
      rfl
    · refine iff_of_false not_mem_nil ?_
      rintro (h | h)
      · exact hnone h.1
      · exact hind h.1 h.2.1

end Bmap

end Xv6.Proofs
