import Xv6.Proofs.Fs.Flat

/-!
# `Xv6.Proofs.Fs.Chunks`: the blocks that a chunk of `filewrite` writes

`filewrite` cuts a write into chunks of three blocks, each in a transaction of its own with a
reservation of `MAXOPBLOCKS` blocks. Every block that such a chunk takes may have its bit in another
block of the free map, so the map can have as many blocks in the log as the file gets. A chunk that
is not aligned touches four blocks; but the first one is there, since a write starts inside the file
or at its end.
-/

set_option autoImplicit false

namespace Xv6.Proofs

open Lib Fs

variable {s s' : Fs} {ip : InodeId}

/-- Every block that is missing costs one block of the map, and so does the indirect block. -/
theorem card_loggedBy_le (s : Fs) (ip : InodeId) (T : Finset Nat) :
    (loggedBy s ip T).card ≤ 2 + T.card
      + (T.filter fun bn => fileBlock s.disk (s.itable ip).toDinode bn = 0).card := by
  have hlen : ∀ new : List Nat, (takenLog s.sb new).length = 2 * new.length := by
    intro new
    induction new with
    | nil => rfl
    | cons b new ih =>
      rw [List.length_cons, Nat.mul_succ, ← ih]
      rfl
  have htaken : (takenLog s.sb ((freeBlocks s.sb s.disk).take
      (missing s.disk (s.itable ip).toDinode T))).toFinset.card
        ≤ 2 * missing s.disk (s.itable ip).toDinode T := by
    refine (List.toFinset_card_le _).trans ?_
    rw [hlen]
    exact Nat.mul_le_mul_left 2 (List.length_take_le _ _)
  have hthere : ((T.image (fileBlock s.disk (s.itable ip).toDinode)).erase 0).card
      ≤ (T.filter fun bn => ¬ fileBlock s.disk (s.itable ip).toDinode bn = 0).card := by
    refine (Finset.card_le_card fun b hb => ?_).trans
      (Finset.card_image_le (f := fileBlock s.disk (s.itable ip).toDinode))
    obtain ⟨hne, hb⟩ := Finset.mem_erase.mp hb
    obtain ⟨bn, hbn, rfl⟩ := Finset.mem_image.mp hb
    exact Finset.mem_image_of_mem _ (Finset.mem_filter.mpr ⟨hbn, hne⟩)
  -- an indirect block is taken, or gets an entry, but not both
  have hind : (if (s.itable ip).ind ≠ 0 ∧
      ∃ bn ∈ T, NDIRECT ≤ bn ∧ fileBlock s.disk (s.itable ip).toDinode bn = 0 then
        {(s.itable ip).ind} else (∅ : Finset Nat)).card + 2 * indNeed (s.itable ip).toDinode T
      ≤ 2 := by
    unfold indNeed
    split
    · rename_i h
      rw [if_neg fun h' => h.1 h'.1, Finset.card_singleton]
      decide
    · rw [Finset.card_empty]
      split <;> decide
  have hsplit := Finset.card_filter_add_card_filter_not (s := T) fun bn =>
    fileBlock s.disk (s.itable ip).toDinode bn = 0
  have hmissing : missing s.disk (s.itable ip).toDinode T
    = (T.filter fun bn => fileBlock s.disk (s.itable ip).toDinode bn = 0).card
      + indNeed (s.itable ip).toDinode T := rfl
  unfold loggedBy
  refine (Finset.card_union_le _ _).trans ?_
  refine (Nat.add_le_add_right (Finset.card_union_le _ _) _).trans ?_
  omega

/-- Three blocks' worth of bytes touch three blocks, or four of which the first one was begun
before. -/
theorem card_touched_le (off : Nat) {n : Nat} (hn : n ≤ 3 * BSIZE) :
    (touched off n).card ≤ 3 ∨ off % BSIZE ≠ 0 ∧ (touched off n).card ≤ 4 := by
  unfold touched
  split
  · exact .inl (Nat.zero_le _)
  · rw [Nat.card_Ico]
    rw [BSIZE_eq] at *
    omega

/-- The first block of a write that starts inside a block is not missing. -/
theorem card_missing_lt (hok : FsOk s) (hc : Cached s ip)
    (hlive : Live s.sb (eff s) (s.itable ip).inum) {off n : Nat} (hoff : off ≤ (s.itable ip).size)
    (hmod : off % BSIZE ≠ 0) (hn : 0 < n) :
    ((touched off n).filter fun bn => fileBlock s.disk (s.itable ip).toDinode bn = 0).card
      < (touched off n).card := by
  have heff := eff_cached hok.table hc
  have hfirst : fileBlock s.disk (s.itable ip).toDinode (off / BSIZE) ≠ 0 := by
    rw [← heff]
    refine hok.alloc.full _ hlive _ ?_
    rw [heff]
    have := Nat.div_add_mod' off BSIZE
    show _ < (s.itable ip).size
    omega
  refine Finset.card_lt_card (Finset.filter_ssubset.mpr ⟨off / BSIZE, ?_, hfirst⟩)
  exact mem_touched.mpr ⟨off, Nat.le_refl _, by omega, rfl⟩

/-- A chunk of `filewrite` logs at most `MAXOPBLOCKS` different blocks. -/
theorem WroteFile.card_le {src : Source} {off n tot : Nat} {ws : List Nat}
    (h : WroteFile s s' ip src off n tot ws) (hok : FsOk s) (hc : Cached s ip)
    (hlive : Live s.sb (Proofs.eff s) (s.itable ip).inum) (hoff : off ≤ (s.itable ip).size)
    (hn : n ≤ FILEWRITE_MAX) : ws.toFinset.card ≤ MAXOPBLOCKS := by
  have hsub : ws.toFinset
      ⊆ insert (IBLOCK (s.itable ip).inum s.sb) (loggedBy s ip (touched off n)) :=
    fun w hw => Finset.mem_insert.mpr (h.logs w (List.mem_toFinset.mp hw))
  have hws := (Finset.card_le_card hsub).trans (Finset.card_insert_le _ _)
  have hcard := card_loggedBy_le s ip (touched off n)
  have hfilter := Finset.card_filter_le (touched off n) fun bn =>
    fileBlock s.disk (s.itable ip).toDinode bn = 0
  have hmax : MAXOPBLOCKS = 10 := rfl
  rcases card_touched_le off hn with hthree | ⟨hmod, hfour⟩
  · omega
  · by_cases hpos : n = 0
    · have hnone : (touched off n).card = 0 := by rw [touched, if_pos hpos, Finset.card_empty]
      omega
    · have hlt := card_missing_lt hok hc hlive hoff hmod (Nat.pos_of_ne_zero hpos)
      omega

/-- A write of a chunk logs at most as many blocks as are reserved. -/
theorem writei_card_le (hok : FsOk s) (hc : Cached s ip)
    (hlive : Live s.sb (eff s) (s.itable ip).inum) {src : Source} {off n : Nat}
    (hoff : off ≤ (s.itable ip).size) (hn : n ≤ FILEWRITE_MAX) {r : Int}
    (hrun : (writei ip src off n).run s = .ok (r, s')) :
    ∃ ws, s'.writes = s.writes ++ ws ∧ ws.toFinset.card ≤ MAXOPBLOCKS := by
  by_cases hmax : off + n ≤ MAXFILE * BSIZE
  · obtain ⟨tot, ws, -, hwrote⟩ := wp_ok (writei_spec hok hc hlive hoff hmax) hrun
    exact ⟨ws, hwrote.writes.writes, hwrote.card_le hok hc hlive hoff hn⟩
  · -- the file would get too long, and nothing is written
    have hsize := hok.alloc.size_le _ hlive
    rw [eff_cached hok.table hc] at hsize
    have hsize : (s.itable ip).size ≤ MAXFILE * BSIZE := hsize
    have hlt : MAXFILE * BSIZE < 2 ^ 32 ∧ FILEWRITE_MAX < 2 ^ 32 := by decide
    have hreject := @writei_rejects s ip src off n (by omega) (by omega) (.inr (.inr (by omega)))
    rw [hreject] at hrun
    cases hrun
    exact ⟨[], (List.append_nil _).symm, by decide⟩

/-- The chunk of a write of `n` bytes that starts at its byte `i`. -/
theorem filewrite_chunk_reserved (hok : FsOk s) (hc : Cached s ip)
    (hlive : Live s.sb (eff s) (s.itable ip).inum) {src : Source} {off n i : Nat}
    (hoff : off ≤ (s.itable ip).size) {r : Int}
    (hrun : (writei ip src off (min (n - i) FILEWRITE_MAX)).run s = .ok (r, s')) :
    ∃ ws, s'.writes = s.writes ++ ws ∧ ws.toFinset.card ≤ MAXOPBLOCKS :=
  writei_card_le hok hc hlive hoff (Nat.min_le_right _ _) hrun

/-- What a write returns, with the size of the file and the blocks that are logged. -/
def grown : Except FsPanic (Int × Fs) → Option (Int × Nat × List Nat)
  | .error _ => none
  | .ok (r, s') => some (r, (s'.itable firstEntry).size, s'.writes)

/-- What the outcome of a run says about the run. -/
theorem grown_some {x : Except FsPanic (Int × Fs)} {r : Int} {size : Nat} {ws : List Nat}
    (h : grown x = some (r, size, ws)) :
    ∃ s', x = .ok (r, s') ∧ (s'.itable firstEntry).size = size ∧ s'.writes = ws := by
  cases x with
  | error e => cases h
  | ok rs =>
    obtain ⟨rfl, rfl, rfl⟩ : rs.1 = r ∧ _ = size ∧ _ = ws := by simpa [grown] using h
    exact ⟨rs.2, rfl, rfl, rfl⟩

/-- After one byte, 3000 more take two blocks: each is cleared and filled, and its bit is set. With
the first block and the inode that makes five. -/
theorem filewrite_chunk_reserved_grows : ∃ s' ws,
    (writei firstEntry (.ofFn fun _ => 9) 1 (min (3000 - 0) FILEWRITE_MAX)).run (oneFile [7] 3)
      = .ok (3000, s') ∧ (s'.itable firstEntry).size = 3001 ∧
    s'.writes = [46, 45, 47, 47, 45, 48, 48, 32] ∧
    s'.writes = (oneFile [7] 3).writes ++ ws ∧ ws.toFinset.card ≤ MAXOPBLOCKS := by
  obtain ⟨s', hrun, hsize, hwrites⟩ := grown_some (show grown ((writei firstEntry
      (.ofFn fun _ => 9) 1 (min (3000 - 0) FILEWRITE_MAX)).run (oneFile [7] 3))
    = some (3000, 3001, [46, 45, 47, 47, 45, 48, 48, 32]) by decide +kernel)
  obtain ⟨ws, happ, hcard⟩ := filewrite_chunk_reserved (oneFile_ok (by decide) (by decide))
    (oneFile_cached [7] 3) (oneFile_live (by decide) (by decide)) (by decide) hrun
  exact ⟨s', ws, hrun, hsize, hwrites, happ, hcard⟩

end Xv6.Proofs
