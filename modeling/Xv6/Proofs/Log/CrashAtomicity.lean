import Xv6.Kernel.Log

/-!
# `Xv6.Proofs.Log.CrashAtomicity`: a commit happens whole or not at all

`commit` copies the logged blocks to the log area, writes the header, copies the blocks to
their home locations and clears the header. A crash can fall before or after any of these
`bwrite`s, and again inside any of the recoveries that follow.

Two descriptions of the disk cover every such point. `Clean log v d`: the header of `d` has
`n = 0` and the blocks outside the log area hold `v`. `Pending log cache v d`: the header
lists the group, the log area holds its contents, and every block outside the log area that
the group does not name holds `v`. The home locations of the group are left open in
`Pending`, because an interrupted installation has written some of them.

* `clean_crash_recover`: recovery leaves a clean disk exactly as it is;
* `installing_crash`: the writes of an installation take a pending disk through pending
  disks, and the header write at their end makes it clean with the group installed;
* `commit_crash`: a crash of `commit` leaves a clean disk with the old contents before the
  first header write, and a pending or an installed disk from then on.

`commit_crash_atomic` puts them together for any number of crashed recoveries.
-/

set_option autoImplicit false

namespace Xv6.Proofs

open Lib List
open Function (update update_eq_self update_of_ne update_self)

variable {log : Log} {cache : Nat → Block}

variable {d v : Disk} {lh : LogHeader}

/-! ### The header block -/

theorem headN_putHeadBlocks (b : Nat → Nat) (buf : Block) (m : Nat) :
    headN (putHeadBlocks b buf m) = headN buf := by
  induction m with
  | zero => rfl
  | succ m ih =>
    rw [← ih]
    exact getI32_putLE_of_disjoint (by omega)

/-- The block numbers that are written to the header are read back. -/
theorem headBlock_putHeadBlocks {b : Nat → Nat} (buf : Block) {m i : Nat} (hi : i < m)
    (hb : b i < 2 ^ 32) : headBlock (putHeadBlocks b buf m) i = b i := by
  induction m with
  | zero => omega
  | succ m ih =>
    unfold headBlock putHeadBlocks
    by_cases him : i = m
    · subst him
      rw [getLE_putLE_self]
      exact Nat.mod_eq_of_lt hb
    · rw [getLE_putLE_of_disjoint (by omega)]
      exact ih (by omega)

theorem headN_putHead (buf : Block) (h : 0 ≤ lh.n) (h' : lh.n < 2 ^ 31) :
    headN (putHead lh buf) = lh.n := by
  unfold putHead
  rw [headN_putHeadBlocks]
  exact getI32_putI32_self buf 0 h h'

theorem headBlock_putHead (buf : Block) {i : Nat} (hi : i < lh.n.toNat) (hb : lh.block i < 2 ^ 32) :
    headBlock (putHead lh buf) i = lh.block i :=
  headBlock_putHeadBlocks _ hi hb

/-- Clearing a header whose `n` is already 0 writes back the same block: `write_head`
keeps the stale entries. -/
theorem putHead_of_zero {buf : Block} (h : lh.n = 0) (hbuf : headN buf = 0) :
    putHead lh buf = buf := by
  unfold putHead
  rw [h, ← hbuf]
  show putHeadBlocks lh.block (putI32 buf 0 (getI32 buf 0)) (headN buf).toNat = buf
  rw [hbuf, putI32_getI32]
  rfl

/-! ### The group and the two descriptions of the disk -/

/-- The group of blocks listed in `log.lh`: pairwise distinct block numbers outside the log
area, at most `size - 1` of them. `block_lt` and `size_lt` are the ranges of the C types
`uint` and `int`. -/
structure LoggedGroup (log : Log) : Prop where
  fits : log.lh.n ≤ log.size - 1
  outside : ∀ t : Nat, t < log.lh.n.toNat → ¬ log.InArea (log.lh.block t)
  distinct : ∀ t t' : Nat, t < log.lh.n.toNat → t' < log.lh.n.toNat →
    log.lh.block t = log.lh.block t' → t = t'
  block_lt : ∀ t : Nat, t < log.lh.n.toNat → log.lh.block t < 2 ^ 32
  size_lt : log.size < 2 ^ 31

/-- Block `b` is listed in `log.lh`. -/
def Listed (log : Log) (b : Nat) : Prop := ∃ t < log.lh.n.toNat, log.lh.block t = b

instance (log : Log) (b : Nat) : Decidable (Listed log b) :=
  inferInstanceAs (Decidable (∃ t < _, _))

/-- The disk after the group: the listed blocks have the contents of the cache. -/
def afterGroup (log : Log) (cache : Nat → Block) (d : Disk) : Disk := fun b =>
  if Listed log b then cache b else d b

/-- The on-disk log is empty, and the blocks outside the log area hold `v`. -/
def Clean (log : Log) (v d : Disk) : Prop :=
  headN (d log.start) = 0 ∧ ∀ b, ¬ log.InArea b → d b = v b

/-- The on-disk log holds the whole group, and the blocks outside the log area that the
group does not name hold `v`. -/
structure Pending (log : Log) (cache : Nat → Block) (v d : Disk) : Prop where
  pos : 0 < log.lh.n
  count : headN (d log.start) = log.lh.n
  entries : ∀ t < log.lh.n.toNat, headBlock (d log.start) t = log.lh.block t
  logged : ∀ t < log.lh.n.toNat, d (log.start + t + 1) = cache (log.lh.block t)
  others : ∀ b, ¬ log.InArea b → ¬ Listed log b → d b = v b

/-! ### The write lists -/

theorem writes_writeLog (log : Log) (cache : Nat → Block) (d : Disk) :
    (writeLog log cache).writes d
      = (List.range log.lh.n.toNat).map
          fun t => (log.start + t + 1, cache (log.lh.block t)) := by
  unfold writeLog
  induction log.lh.n.toNat with
  | zero => rfl
  | succ m ih => rw [WProg.writes_forN_succ, ih, range_succ, map_append]; rfl

/-- The writes of `install_trans`. A log block read late in the loop is the one on the disk
at the start, because the loop writes only outside the log area. -/
theorem writes_installTrans (d : Disk) (hfits : log.lh.n ≤ log.size - 1)
    (hout : ∀ t : Nat, t < log.lh.n.toNat → ¬ log.InArea (log.lh.block t)) :
    (installTrans log).writes d
      = (List.range log.lh.n.toNat).map
          fun t => (log.lh.block t, d (log.start + t + 1)) := by
  suffices h : ∀ m ≤ log.lh.n.toNat,
      (WProg.forN (fun tail => do
        let lbuf ← bread (log.start + tail + 1)
        bwrite (log.lh.block tail) lbuf) m).writes d
      = (List.range m).map fun t => (log.lh.block t, d (log.start + t + 1)) from
    h _ (Nat.le_refl _)
  intro m
  induction m with
  | zero => intro _; rfl
  | succ m ih =>
    intro hm
    have hprev := ih (by omega)
    rw [WProg.writes_forN_succ, hprev, range_succ, map_append]
    congr 1
    rw [WProg.writes_bind]
    show [(log.lh.block m, _)] = [(log.lh.block m, _)]
    -- The log block `m` is not among the home blocks written so far.
    have hread : (WProg.forN (fun tail => do
        let lbuf ← bread (log.start + tail + 1)
        bwrite (log.lh.block tail) lbuf) m).after d (log.start + m + 1)
        = d (log.start + m + 1) := by
      unfold WProg.after
      rw [hprev]
      apply applyWrites_of_not_mem
      intro w hw heq
      obtain ⟨t, ht, rfl⟩ := mem_map.mp hw
      have ht' := mem_range.mp ht
      apply hout t (by omega)
      constructor
      · omega
      · omega
    congr 2

theorem writes_writeHead (log : Log) (d : Disk) :
    (writeHead log).writes d = [(log.start, putHead log.lh (d log.start))] := rfl

/-- Recovery installs what the on-disk header lists and clears the header. -/
theorem writes_recoverFromLog (log : Log) (d : Disk) :
    (recoverFromLog log).writes d
      = (installTrans ((readHead log).result d)).writes d
          ++ (writeHead (((readHead log).result d).setN 0)).writes
              ((installTrans ((readHead log).result d)).after d) := by
  show [] ++ ((installTrans ((readHead log).result d)).writes d
      ++ ((writeHead (((readHead log).result d).setN 0)).writes
        ((installTrans ((readHead log).result d)).after d) ++ [])) = _
  rw [nil_append, append_nil]

/-- The writes that install the group from the log and then write `hdr` to the header. -/
def installWrites (log : Log) (cache : Nat → Block) (hdr : Block) : List (Nat × Block) :=
  ((List.range log.lh.n.toNat).map fun t => (log.lh.block t, cache (log.lh.block t)))
    ++ [(log.start, hdr)]

/-- On a disk whose log area holds the group, installing and clearing performs
`installWrites`. -/
theorem writes_install_clear (log : Log) (cache : Nat → Block) (d : Disk)
    (hfits : log.lh.n ≤ log.size - 1)
    (hout : ∀ t : Nat, t < log.lh.n.toNat → ¬ log.InArea (log.lh.block t))
    (hlogged : ∀ t < log.lh.n.toNat, d (log.start + t + 1) = cache (log.lh.block t)) :
    ∃ hdr, headN hdr = 0 ∧
      (installTrans log).writes d
          ++ (writeHead (log.setN 0)).writes ((installTrans log).after d)
        = installWrites log cache hdr := by
  refine ⟨putHead (log.setN 0).lh ((installTrans log).after d log.start), ?_, ?_⟩
  · exact headN_putHead _ (Int.le_refl _) (show (0 : Int) < 2 ^ 31 by decide)
  · rw [writes_installTrans d hfits hout, writes_writeHead]
    unfold installWrites
    congr 1
    apply map_congr_left
    intro t ht
    rw [hlogged t (mem_range.mp ht)]

/-! ### Recovery -/

/-- Recovery of a disk with an empty log leaves it as it is, wherever it crashes. -/
theorem clean_crash_recover (h : headN (d log.start) = 0) (k : Nat) :
    (recoverFromLog log).crashAt k d = d := by
  have hloop : (installTrans ((readHead log).result d)).writes d = [] := by
    unfold installTrans
    show WProg.writes (WProg.forN _ (headN (d log.start)).toNat) d = []
    rw [h]
    rfl
  have hw : (recoverFromLog log).writes d = [(log.start, d log.start)] := by
    rw [writes_recoverFromLog, WProg.after, hloop, writes_writeHead, applyWrites_nil,
      nil_append]
    show [(log.start, putHead (((readHead log).result d).setN 0).lh (d log.start))] = _
    rw [putHead_of_zero rfl h]
  unfold WProg.crashAt
  rw [hw]
  cases k with
  | zero => rfl
  | succ k =>
    rw [take_of_length_le (by simp), applyWrites_singleton, update_eq_self]

/-- The first `j` writes of an installation. Up to the header write the disk stays pending;
the header write makes it clean with the group installed. -/
theorem installing_crash {hdr : Block} (hg : LoggedGroup log) (hp : Pending log cache v d)
    (hhdr : headN hdr = 0) (j : Nat) :
    (j ≤ log.lh.n.toNat →
      Pending log cache v (applyWrites ((installWrites log cache hdr).take j) d)) ∧
    (log.lh.n.toNat < j →
      Clean log (afterGroup log cache v)
        (applyWrites ((installWrites log cache hdr).take j) d)) := by
  have hfits := hg.fits
  have hpos := hp.pos
  -- The home writes leave the log area and the unlisted blocks alone.
  have hkeep : ∀ m b, (log.InArea b ∨ ¬ Listed log b) →
      applyWrites (((List.range log.lh.n.toNat).map
        fun t => (log.lh.block t, cache (log.lh.block t))).take m) d b = d b := by
    intro m b hb
    apply applyWrites_of_not_mem
    intro w hw heq
    obtain ⟨t, ht, rfl⟩ := mem_map.mp (mem_of_mem_take hw)
    have ht' := mem_range.mp ht
    subst heq
    rcases hb with hb | hb
    · exact hg.outside t ht' hb
    · exact hb ⟨t, ht', rfl⟩
  have hstart : log.InArea log.start := ⟨by omega, by omega⟩
  constructor
  · intro hj
    have htake : (installWrites log cache hdr).take j
        = ((List.range log.lh.n.toNat).map
            fun t => (log.lh.block t, cache (log.lh.block t))).take j :=
      take_append_of_le_length (by simpa using hj)
    rw [htake]
    refine ⟨hpos, ?_, ?_, ?_, ?_⟩
    · rw [hkeep j log.start (Or.inl hstart)]
      exact hp.count
    · intro t ht
      rw [hkeep j log.start (Or.inl hstart)]
      exact hp.entries t ht
    · intro t ht
      rw [hkeep j _ (Or.inl ⟨by omega, by omega⟩)]
      exact hp.logged t ht
    · intro b hb hl
      rw [hkeep j b (Or.inr hl)]
      exact hp.others b hb hl
  · intro hj
    have htake : (installWrites log cache hdr).take j = installWrites log cache hdr :=
      take_of_length_le (by simp [installWrites]; omega)
    rw [htake]
    unfold installWrites
    rw [applyWrites_append, applyWrites_singleton]
    refine ⟨by rw [update_self]; exact hhdr, ?_⟩
    intro b hb
    have hne : b ≠ log.start := fun h => hb (h ▸ hstart)
    rw [update_of_ne hne]
    unfold afterGroup
    split
    · rename_i hl
      obtain ⟨t, ht, rfl⟩ := hl
      apply applyWrites_of_mem
      · exact mem_map.mpr ⟨t, mem_range.mpr ht, rfl⟩
      · intro w hw hwb
        obtain ⟨t', ht', rfl⟩ := mem_map.mp hw
        show cache (log.lh.block t') = cache (log.lh.block t)
        rw [show log.lh.block t' = log.lh.block t from hwb]
    · rename_i hl
      rw [← hp.others b hb hl]
      have hall := hkeep log.lh.n.toNat b (Or.inr hl)
      rwa [take_of_length_le (by simp)] at hall

/-- The in-memory log that `read_head` builds from a pending disk lists the group. The log
`boot` is whatever memory held before, with the same place and size of the log area. -/
theorem readHead_pending {boot : Log} (hstart : boot.start = log.start)
    (hp : Pending log cache v d) :
    ((readHead boot).result d).lh.n = log.lh.n ∧
    ∀ t < log.lh.n.toNat, ((readHead boot).result d).lh.block t = log.lh.block t := by
  have hcount : headN (d boot.start) = log.lh.n := by rw [hstart]; exact hp.count
  refine ⟨hcount, ?_⟩
  intro t ht
  show (if (t : Int) < headN (d boot.start) then headBlock (d boot.start) t
    else boot.lh.block t) = log.lh.block t
  rw [if_pos (by omega), hstart]
  exact hp.entries t ht

/-- A crash of recovery on a pending disk leaves it pending, or clean with the group
installed, and a completed recovery does the second. -/
theorem pending_crash_recover {boot : Log} (hstart : boot.start = log.start)
    (hsize : boot.size = log.size) (hg : LoggedGroup log) (hp : Pending log cache v d) :
    (∀ k, Pending log cache v ((recoverFromLog boot).crashAt k d) ∨
      Clean log (afterGroup log cache v) ((recoverFromLog boot).crashAt k d)) ∧
    Clean log (afterGroup log cache v) ((recoverFromLog boot).after d) := by
  obtain ⟨hn, hblock⟩ := readHead_pending hstart hp
  have hl : ((readHead boot).result d).start = log.start ∧
      ((readHead boot).result d).size = log.size := ⟨hstart, hsize⟩
  generalize hgen : (readHead boot).result d = l at hn hblock hl
  have hfits := hg.fits
  obtain ⟨hdr, hhdr, hw⟩ := writes_install_clear l cache d
    (by rw [hn, hl.2]; exact hfits)
    (fun t ht => by
      have ht' : t < log.lh.n.toNat := by rw [hn] at ht; exact ht
      have hout := hg.outside t ht'
      unfold Log.InArea at hout ⊢
      rw [hblock t ht', hl.1, hl.2]
      exact hout)
    (fun t ht => by
      have ht' : t < log.lh.n.toNat := by rw [hn] at ht; exact ht
      rw [hl.1, hblock t ht']
      exact hp.logged t ht')
  have hsame : installWrites l cache hdr = installWrites log cache hdr := by
    unfold installWrites
    rw [hl.1, hn]
    congr 1
    apply map_congr_left
    intro t ht
    rw [hblock t (mem_range.mp ht)]
  have hwrites : (recoverFromLog boot).writes d = installWrites log cache hdr := by
    rw [writes_recoverFromLog, hgen, hw, hsame]
  have hlen : (installWrites log cache hdr).length = log.lh.n.toNat + 1 := by
    simp [installWrites]
  have hcrash := installing_crash hg hp hhdr
  constructor
  · intro k
    unfold WProg.crashAt
    rw [hwrites]
    rcases Nat.lt_or_ge log.lh.n.toNat k with h | h
    · exact Or.inr ((hcrash k).2 h)
    · exact Or.inl ((hcrash k).1 h)
  · rw [WProg.after_eq_crashAt, WProg.crashAt, hwrites, hlen]
    exact (hcrash _).2 (Nat.lt_succ_self _)

/-! ### Commit -/

/-- The header write of `commit` turns the copied log blocks into a pending group. -/
theorem pending_of_writeLog (cache : Nat → Block) (d : Disk)
    (hg : LoggedGroup log) (hpos : 0 < log.lh.n) :
    Pending log cache d
      (update ((writeLog log cache).after d) log.start
        (putHead log.lh ((writeLog log cache).after d log.start))) := by
  have hfits := hg.fits
  have hsize := hg.size_lt
  refine ⟨hpos, ?_, ?_, ?_, ?_⟩
  · rw [update_self]
    exact headN_putHead _ (by omega) (by omega)
  · intro t ht
    rw [update_self]
    exact headBlock_putHead _ ht (hg.block_lt t ht)
  · intro t ht
    rw [update_of_ne (by omega), WProg.after, writes_writeLog]
    apply applyWrites_of_mem
    · exact mem_map.mpr ⟨t, mem_range.mpr ht, rfl⟩
    · intro w hw heq
      obtain ⟨t', ht', rfl⟩ := mem_map.mp hw
      have : t' = t := by
        have h : log.start + t' + 1 = log.start + t + 1 := heq
        omega
      subst this
      rfl
  · intro b hb _
    have hne : b ≠ log.start := fun h => hb (h ▸ ⟨by omega, by omega⟩)
    rw [update_of_ne hne, WProg.after, writes_writeLog]
    apply applyWrites_of_not_mem
    intro w hw heq
    obtain ⟨t, ht, rfl⟩ := mem_map.mp hw
    have ht' := mem_range.mp ht
    subst heq
    exact hb ⟨by omega, by omega⟩

/-- The writes of a commit with something to commit: the log blocks, the header, and then
the installation. -/
theorem writes_commit (cache : Nat → Block) (d : Disk)
    (hg : LoggedGroup log) (hpos : 0 < log.lh.n) :
    ∃ hdr, headN hdr = 0 ∧
      (commit log cache).writes d
        = (writeLog log cache).writes d
            ++ ((log.start, putHead log.lh ((writeLog log cache).after d log.start))
              :: installWrites log cache hdr) := by
  have hp := pending_of_writeLog cache d hg hpos
  obtain ⟨hdr, hhdr, hw⟩ := writes_install_clear log cache _ hg.fits hg.outside hp.logged
  refine ⟨hdr, hhdr, ?_⟩
  rw [← hw]
  unfold commit
  rw [if_pos hpos]
  show (writeLog log cache).writes d ++ ([_] ++ ((installTrans log).writes _
    ++ ((writeHead (log.setN 0)).writes _ ++ []))) = _
  rw [append_nil]
  rfl

/-- The first header write of the commit is among its first `k` writes. The log blocks are
the blocks after the header block, so a write to `log.start` is a `write_head`. -/
def HeadReached (log : Log) (cache : Nat → Block) (d : Disk) (k : Nat) : Prop :=
  ∃ w ∈ ((commit log cache).writes d).take k, w.1 = log.start

/-- With something to commit, the header write is the one after the `n` log blocks. -/
theorem headReached_iff {k : Nat} (hg : LoggedGroup log) (hpos : 0 < log.lh.n) :
    HeadReached log cache d k ↔ log.lh.n.toNat < k := by
  obtain ⟨hdr, -, hw⟩ := writes_commit cache d hg hpos
  have hlen : ((writeLog log cache).writes d).length = log.lh.n.toNat := by
    rw [writes_writeLog]
    simp
  unfold HeadReached
  rw [hw]
  constructor
  · rintro ⟨w, hmem, hstart⟩
    by_contra hk
    rw [take_append_of_le_length (by omega), writes_writeLog] at hmem
    obtain ⟨t, -, rfl⟩ := mem_map.mp (mem_of_mem_take hmem)
    have h : log.start + t + 1 = log.start := hstart
    omega
  · intro hk
    refine ⟨(log.start, putHead log.lh ((writeLog log cache).after d log.start)), ?_, rfl⟩
    rw [take_append, take_of_length_le (by omega)]
    apply mem_append_right
    rw [show k - ((writeLog log cache).writes d).length
      = (k - log.lh.n.toNat - 1) + 1 from by omega, take_succ_cons]
    exact mem_cons_self

/-- A crash of `commit` on a disk with an empty log. Before the first header write the log
is still empty and the old contents are in place; from then on the group is pending or
installed. -/
theorem commit_crash (cache : Nat → Block) (hg : LoggedGroup log) (h0 : headN (d log.start) = 0)
    (k : Nat) :
    (¬ HeadReached log cache d k → Clean log d ((commit log cache).crashAt k d)) ∧
    (HeadReached log cache d k →
      Pending log cache d ((commit log cache).crashAt k d) ∨
      Clean log (afterGroup log cache d) ((commit log cache).crashAt k d)) := by
  have hfits := hg.fits
  by_cases hpos : 0 < log.lh.n
  · rw [headReached_iff hg hpos]
    obtain ⟨hdr, hhdr, hw⟩ := writes_commit cache d hg hpos
    have hlen : ((writeLog log cache).writes d).length = log.lh.n.toNat := by
      rw [writes_writeLog]
      simp
    unfold WProg.crashAt
    rw [hw]
    constructor
    · intro hk
      rw [take_append_of_le_length (by omega), writes_writeLog]
      -- Only log data blocks have been written.
      have hkeep : ∀ b, (∀ t < log.lh.n.toNat, b ≠ log.start + t + 1) →
          applyWrites (((List.range log.lh.n.toNat).map
            fun t => (log.start + t + 1, cache (log.lh.block t))).take k) d b = d b := by
        intro b hb
        apply applyWrites_of_not_mem
        intro w hw heq
        obtain ⟨t, ht, rfl⟩ := mem_map.mp (mem_of_mem_take hw)
        exact hb t (mem_range.mp ht) heq.symm
      refine ⟨?_, ?_⟩
      · rw [hkeep _ (by intro t _; omega)]
        exact h0
      · intro b hb
        apply hkeep
        rintro t ht rfl
        exact hb ⟨by omega, by omega⟩
    · intro hk
      rw [take_append, take_of_length_le (by omega),
        show k - ((writeLog log cache).writes d).length
          = (k - log.lh.n.toNat - 1) + 1 from by omega,
        take_succ_cons, applyWrites_append, ← singleton_append,
        applyWrites_append, applyWrites_singleton]
      have hcrash := installing_crash hg (pending_of_writeLog cache d hg hpos) hhdr
        (k - log.lh.n.toNat - 1)
      rcases Nat.lt_or_ge log.lh.n.toNat (k - log.lh.n.toNat - 1) with h | h
      · exact Or.inr (hcrash.2 h)
      · exact Or.inl (hcrash.1 h)
  · -- Nothing is logged, so `commit` writes nothing.
    have hnone : (commit log cache).writes d = [] := by
      unfold commit
      rw [if_neg hpos]
      rfl
    have hnot : ¬ HeadReached log cache d k := by
      rintro ⟨w, hmem, -⟩
      rw [hnone] at hmem
      simp at hmem
    refine ⟨fun _ => ?_, fun h => absurd h hnot⟩
    unfold WProg.crashAt
    rw [hnone, take_nil]
    exact ⟨h0, fun b _ => rfl⟩

/-- **Crash atomicity of the log.** Start from a disk whose log header has `n = 0`, commit
a group, and crash after any number `k` of `bwrite`s. Then let recovery run and crash any
number of times, and once complete. Every block outside the log area holds its value after
the group if the first header write of the commit had reached the disk, and its value
before the group otherwise. The header is left with `n = 0`, and a further recovery,
crashed anywhere or completed, changes nothing. -/
theorem commit_crash_atomic (log boot : Log) (cache : Nat → Block) (d : Disk)
    (hg : LoggedGroup log) (h0 : headN (d log.start) = 0)
    (hstart : boot.start = log.start) (hsize : boot.size = log.size)
    (k : Nat) (ks : List Nat) (d' : Disk)
    (hd' : d' = (recoverFromLog boot).after
      ((recoverFromLog boot).crashes ks ((commit log cache).crashAt k d))) :
    (HeadReached log cache d k → ∀ b, ¬ log.InArea b → d' b = afterGroup log cache d b) ∧
    (¬ HeadReached log cache d k → ∀ b, ¬ log.InArea b → d' b = d b) ∧
    headN (d' log.start) = 0 ∧
    ∀ j, (recoverFromLog boot).crashAt j d' = d' := by
  have hclean : ∀ e : Disk, headN (e log.start) = 0 → ∀ j,
      (recoverFromLog boot).crashAt j e = e := by
    intro e he j
    rw [← hstart] at he
    exact clean_crash_recover he j
  obtain ⟨hbefore, hafter⟩ := commit_crash cache hg h0 k
  by_cases hr : HeadReached log cache d k
  · -- The group is pending or installed, and every crashed recovery keeps that.
    have hmid := WProg.crashes_induction (p := recoverFromLog boot)
      (I := fun e => Pending log cache d e ∨ Clean log (afterGroup log cache d) e)
      (fun e he j => by
        rcases he with he | he
        · exact (pending_crash_recover hstart hsize hg he).1 j
        · rw [hclean e he.1 j]
          exact Or.inr he)
      ks _ (hafter hr)
    have hend : Clean log (afterGroup log cache d) d' := by
      rw [hd']
      rcases hmid with he | he
      · exact (pending_crash_recover hstart hsize hg he).2
      · rw [WProg.after_eq_crashAt, hclean _ he.1]
        exact he
    exact ⟨fun _ => hend.2, fun h => absurd hr h, hend.1, hclean d' hend.1⟩
  · have hmid := WProg.crashes_induction (p := recoverFromLog boot)
      (I := fun e => Clean log d e)
      (fun e he j => by rw [hclean e he.1 j]; exact he)
      ks _ (hbefore hr)
    have hend : Clean log d d' := by
      rw [hd', WProg.after_eq_crashAt, hclean _ hmid.1]
      exact hmid
    exact ⟨fun h => absurd h hr, fun _ => hend.2, hend.1, hclean d' hend.1⟩

/-- The log `mkfs` lays out, with two blocks logged. -/
def exampleLog : Log :=
  { start := 2, size := 30, outstanding := 0, committing := true, dev := ROOTDEV
    lh := { n := 2, block := fun t => 100 + t } }

/-- Each block is filled with its number. Before the third `bwrite`, which is that of the header, a
crash leaves both blocks as they were. After it both are new, even if the commit has installed one
of them only and the first recovery crashes as well. -/
theorem commit_crash_atomic_two_blocks :
    ∃ crashed : Nat → Disk, LoggedGroup exampleLog ∧
      (∀ k, crashed k = (recoverFromLog exampleLog).after
        ((recoverFromLog exampleLog).crashes [1]
          ((commit exampleLog fun b _ => UInt8.ofNat b).crashAt k fun _ _ => 0))) ∧
      (crashed 2 100 = (fun _ => 0) ∧ crashed 2 101 = fun _ => 0) ∧
      crashed 4 100 = (fun _ => 100) ∧ crashed 4 101 = fun _ => 101 := by
  have hg : LoggedGroup exampleLog :=
    { fits := by decide
      outside := by decide
      distinct := fun t t' _ _ heq => Nat.add_left_cancel heq
      block_lt := by decide
      size_lt := by decide }
  have h0 : headN ((fun _ _ => 0 : Disk) exampleLog.start) = 0 := by decide
  have h := fun k => commit_crash_atomic exampleLog exampleLog (fun b _ => UInt8.ofNat b)
    (fun _ _ => 0) hg h0 rfl rfl k [1] _ rfl
  have hiff : ∀ k, HeadReached exampleLog (fun b _ => UInt8.ofNat b) (fun _ _ => 0) k ↔ _ :=
    fun _ => headReached_iff hg (by decide)
  have hnot := (hiff 2).not.mpr (by decide)
  have hr := (hiff 4).mpr (by decide)
  refine ⟨_, hg, fun _ => rfl, ⟨(h 2).2.1 hnot 100 (by decide), (h 2).2.1 hnot 101 (by decide)⟩,
    ?_, ?_⟩
  · rw [(h 4).1 hr 100 (by decide), afterGroup, if_pos ⟨0, by decide, rfl⟩]
    rfl
  · rw [(h 4).1 hr 101 (by decide), afterGroup, if_pos ⟨1, by decide, rfl⟩]
    rfl

end Xv6.Proofs
