import Xv6.Proofs.Bio.Inv

/-!
# `Xv6.Proofs.Bio.Steps`: what each call keeps

One lemma for every step of the system except the statements of `commit`: the step keeps
`Core` at the same counts. The parts of `Core` read different fields of the cache and of the
references, so each of them has its own frame lemma (`Keys.congr`, `Refs.congr`,
`Locks.congr`), and a step lemma only argues about the parts that its step touches.
-/

set_option autoImplicit false

namespace Xv6.Proofs

open Function (update update_apply update_of_ne update_self)
open List

variable {added dirty logged : Bool} {b c dev k m : Nat} {bc bc' : BCache} {log log' : Log}
  {s : Sys} {uses' : List Use}

/-! ### Frame lemmas -/

theorem set_buf (bc : BCache) (i j : Fin NBUF) (b : Buf) :
    (bc.set i b).buf j = if j = i then b else bc.buf j := by
  unfold BCache.set
  exact update_apply _ _ _ _

@[simp] theorem set_buf_self (bc : BCache) (i : Fin NBUF) (b : Buf) : (bc.set i b).buf i = b := by
  rw [set_buf, if_pos rfl]

theorem set_buf_of_ne (bc : BCache) {i j : Fin NBUF} (b : Buf) (h : j ≠ i) :
    (bc.set i b).buf j = bc.buf j := by
  rw [set_buf, if_neg h]

/-- A field that the new buffer shares with the old one is unchanged everywhere. -/
theorem set_field {α : Type} (f : Buf → α) (bc : BCache) (i : Fin NBUF) (b : Buf)
    (h : f b = f (bc.buf i)) (j : Fin NBUF) : f ((bc.set i b).buf j) = f (bc.buf j) := by
  by_cases hj : j = i
  · rw [hj, set_buf_self, h]
  · rw [set_buf_of_ne _ _ hj]

/-- Every buffer caches the block it cached before. -/
structure SameKeys (bc bc' : BCache) : Prop where
  dev : ∀ j, (bc'.buf j).dev = (bc.buf j).dev
  blockno : ∀ j, (bc'.buf j).blockno = (bc.buf j).blockno
  lru : ∀ j ∈ bc.lru, j ∈ bc'.lru

theorem sameKeys_set {i : Fin NBUF} {b : Buf} (hdev : b.dev = (bc.buf i).dev)
    (hbno : b.blockno = (bc.buf i).blockno) : SameKeys bc (bc.set i b) where
  dev := set_field Buf.dev bc i b hdev
  blockno := set_field Buf.blockno bc i b hbno
  lru := fun _ hj => hj

theorem SameKeys.pins (hk : SameKeys bc bc') (j : Fin NBUF) (dev : Nat) (bs : List Nat) :
    pins (bc'.buf j) dev bs = pins (bc.buf j) dev bs := by
  unfold Proofs.pins
  rw [hk.dev, hk.blockno]

/-- Buffers with the same blocks satisfy the same conditions on them. -/
theorem Keys.congr {uses : List Use} (h : Keys bc dev uses) (hk : SameKeys bc bc')
    (huses : ∀ u ∈ uses', ∃ v ∈ uses, v.buf = u.buf) : Keys bc' dev uses' where
  lru := fun i => hk.lru i (h.lru i)
  uniq := by
    intro i j
    rw [hk.dev, hk.dev, hk.blockno, hk.blockno]
    exact h.uniq i j
  useDev := by
    intro u hu
    obtain ⟨v, hv, hvu⟩ := huses u hu
    rw [hk.dev, ← hvu]
    exact h.useDev v hv

/-- The reference counts depend on how many uses a buffer has, not on which. -/
theorem Refs.congr {uses : List Use} {bs : List Nat} (h : Refs bc dev uses bs)
    (hk : SameKeys bc bc') (hrc : ∀ j, (bc'.buf j).refcnt = (bc.buf j).refcnt)
    (hval : ∀ j, (bc.buf j).valid = true → (bc'.buf j).valid = true)
    (husers : ∀ j, users uses' j = users uses j) : Refs bc' dev uses' bs where
  refcnt := by
    intro i
    rw [hrc, husers, hk.pins]
    exact h.refcnt i
  pinValid := by
    intro b hb
    obtain ⟨i, hdev, hbno, hvalid⟩ := h.pinValid b hb
    exact ⟨i, (hk.dev i).trans hdev, (hk.blockno i).trans hbno, hval i hvalid⟩

/-- The sleep locks depend on who is past `acquiresleep`, not on what they do with the buffer. -/
theorem Locks.congr {uses : List Use} (h : Locks bc uses)
    (hlock : ∀ j, (bc'.buf j).lock = (bc.buf j).lock)
    (hval : ∀ j, (bc.buf j).valid = true → (bc'.buf j).valid = true)
    (hlockers : ∀ j, lockers uses' j = lockers uses j)
    (huses : ∀ u ∈ uses', ∃ v ∈ uses, v.buf = u.buf ∧ v.tid = u.tid ∧
      v.phase.locks = u.phase.locks ∧ v.phase.isHeld = u.phase.isHeld) : Locks bc' uses' where
  locked := by
    intro i
    rw [hlockers, hlock]
    exact h.locked i
  owner := by
    intro u hu hl
    obtain ⟨v, hv, hbuf, htid, hlocks, -⟩ := huses u hu
    rw [hlock, ← hbuf, ← htid]
    exact h.owner v hv (hlocks.trans hl)
  heldValid := by
    intro u hu hl
    obtain ⟨v, hv, hbuf, -, -, hheld⟩ := huses u hu
    rw [← hbuf]
    exact hval _ (h.heldValid v hv (hheld.trans hl))

/-- The contents stay right when the data stay, no reference with an unlogged change goes
away, and no reference becomes logged. -/
theorem Contents.congr {s' : Sys} (h : Contents s c k) (hk : SameKeys s.bc s'.bc)
    (hlog : s'.log = s.log) (habs : s'.abs = s.abs) (hdisk : s'.disk = s.disk)
    (hdata : ∀ j, (s'.bc.buf j).data = (s.bc.buf j).data)
    (hval : ∀ j, (s'.bc.buf j).valid = (s.bc.buf j).valid)
    (hdirty : ∀ u ∈ s.uses, u.phase = .held true false → u ∈ s'.uses)
    (hlogged : ∀ u ∈ s'.uses, ∀ d, u.phase = .held d true → u ∈ s.uses) : Contents s' c k where
  clean := by
    intro j
    rw [hk.dev, hk.blockno, hval, hdata, hlog, habs]
    intro hd hv ha hu
    exact h.clean j hd hv ha fun u hm hbuf hph => hu u (hdirty u hm hph) hbuf hph
  logClean := by
    intro j
    rw [hk.dev, hk.blockno, hval, hdata, hlog, hdisk]
    exact h.logClean j
  home := by
    rw [hlog, hdisk, habs]
    exact h.home
  logged := by
    intro u hu d hd
    rw [hk.blockno, hlog]
    exact h.logged u (hlogged u hu d hd) d hd
  copies := by
    rw [hlog, hdisk, habs]
    exact h.copies

/-- The uses without `u`. -/
theorem erase_spec (uses : List Use) (u : Use) :
    (∀ v ∈ uses.erase u, v ∈ uses) ∧ ∀ v ∈ uses, v ≠ u → v ∈ uses.erase u :=
  ⟨fun _ => mem_of_mem_erase, fun _ hv hne => (mem_erase_of_ne hne).mpr hv⟩

section Move

variable {uses : List Use} {p : Nat} {i : Fin NBUF} {ph : Phase}

/-- A reference that moves to another phase stays a reference to its buffer. -/
theorem exists_of_mem_move {v : Use} {ph' : Phase} (hu : ⟨p, i, ph⟩ ∈ uses)
    (h : v ∈ ⟨p, i, ph'⟩ :: uses.erase ⟨p, i, ph⟩) : ∃ w ∈ uses, w.buf = v.buf := by
  rcases mem_of_mem_move h with rfl | h
  · exact ⟨_, hu, rfl⟩
  · exact ⟨v, h, rfl⟩

theorem users_move (ph' : Phase) (hu : ⟨p, i, ph⟩ ∈ uses) (j : Fin NBUF) :
    users (⟨p, i, ph'⟩ :: uses.erase ⟨p, i, ph⟩) j = users uses j := by
  have := countP_move ⟨p, i, ph'⟩ (fun v => decide (v.buf = j)) hu
  unfold users
  simpa using this

/-- The lock holders after a move, which changes the share of one reference. -/
theorem lockers_move (ph' : Phase) (hu : ⟨p, i, ph⟩ ∈ uses) (j : Fin NBUF) :
    lockers (⟨p, i, ph'⟩ :: uses.erase ⟨p, i, ph⟩) j
        + (if i = j ∧ ph.locks = true then 1 else 0)
      = lockers uses j + (if i = j ∧ ph'.locks = true then 1 else 0) := by
  have := countP_move ⟨p, i, ph'⟩ (fun v => decide (v.buf = j) && v.phase.locks) hu
  unfold lockers
  simpa using this

/-- A move between two phases that both hold the lock. -/
theorem lockers_move_of_locks (ph' : Phase) (hu : ⟨p, i, ph⟩ ∈ uses) (hl : ph.locks = true)
    (hl' : ph'.locks = true) (j : Fin NBUF) :
    lockers (⟨p, i, ph'⟩ :: uses.erase ⟨p, i, ph⟩) j = lockers uses j := by
  have := lockers_move ph' hu j
  rw [hl, hl'] at this
  omega

end Move

/-! ### `bread` -/

/-- The two outcomes of `bget`. -/
theorem bget_cases {i : Fin NBUF} (h : bc.bget dev b = some (i, bc')) :
    ((bc.buf i).dev = dev ∧ (bc.buf i).blockno = b ∧
      bc' = bc.set i { bc.buf i with refcnt := (bc.buf i).refcnt + 1 }) ∨
    ((∀ j ∈ bc.lru, ¬ ((bc.buf j).dev = dev ∧ (bc.buf j).blockno = b)) ∧
      (bc.buf i).refcnt = 0 ∧
      bc' = bc.set i { bc.buf i with dev := dev, blockno := b, valid := false, refcnt := 1 }) := by
  unfold BCache.bget at h
  split at h
  · rename_i j hj
    cases h
    have hc := find?_some hj
    simp only [BCache.caches, Bool.and_eq_true, beq_iff_eq] at hc
    exact Or.inl ⟨hc.1, hc.2, rfl⟩
  · rename_i hnone
    split at h
    · rename_i j hj
      cases h
      have hz := find?_some hj
      refine Or.inr ⟨fun j hj hc => ?_, by simpa using hz, rfl⟩
      have := find?_eq_none.mp hnone j hj
      simp [BCache.caches, hc.1, hc.2] at this
    · cases h

theorem users_cons (uses : List Use) (u : Use) (j : Fin NBUF) :
    users (u :: uses) j = users uses j + if u.buf = j then 1 else 0 := by
  unfold users
  rw [countP_cons]
  simp

theorem lockers_cons_waiting (uses : List Use) (p : Nat) (i j : Fin NBUF) :
    lockers (⟨p, i, .waiting⟩ :: uses) j = lockers uses j := by
  unfold lockers
  rw [countP_cons]
  simp [Phase.locks]

theorem users_eq_zero {uses : List Use} {i : Fin NBUF} (h : users uses i = 0) :
    ∀ u ∈ uses, u.buf ≠ i := by
  intro u hu heq
  have := countP_eq_zero.mp h u hu
  simp [heq] at this

/-- `bread` finds its block: the buffer gets one more reference. -/
theorem core_bget_hit (h : Core s c k m) (p : Nat) {i : Fin NBUF}
    (hdev : (s.bc.buf i).dev = s.log.dev) :
    Core { s with
      bc := s.bc.set i { s.bc.buf i with refcnt := (s.bc.buf i).refcnt + 1 }
      uses := ⟨p, i, .waiting⟩ :: s.uses } c k m := by
  refine { h with keys := ?_, refs := ?_, locks := ?_, contents := ?_ }
  · refine ⟨h.keys.lru, ?_, ?_⟩
    · have := h.keys.uniq
      grind [set_buf]
    · have := h.keys.useDev
      grind [set_buf]
  · refine ⟨fun j => ?_, ?_⟩
    · have := h.refs.refcnt j
      grind [set_buf, users_cons, pins]
    · intro b hb
      obtain ⟨j, hj⟩ := h.refs.pinValid b hb
      exact ⟨j, by grind [set_buf]⟩
  · refine ⟨fun j => ?_, ?_, ?_⟩
    · have := h.locks.locked j
      grind [set_buf, lockers_cons_waiting]
    · have := h.locks.owner
      grind [set_buf, Phase.locks]
    · have := h.locks.heldValid
      grind [set_buf, Phase.isHeld]
  · refine { h.contents with clean := ?_, logClean := ?_, logged := ?_ }
    · have := h.contents.clean
      grind [set_buf]
    · have := h.contents.logClean
      grind [set_buf]
    · have := h.contents.logged
      grind [set_buf]

/-- `bread` does not find its block: it recycles a buffer that no one refers to. The block
is then not pinned, since a pinned block is in the cache. -/
theorem core_bget_miss (h : Core s c k m) (p b : Nat) {i : Fin NBUF}
    (hmiss : ∀ j ∈ s.bc.lru, ¬ ((s.bc.buf j).dev = s.log.dev ∧ (s.bc.buf j).blockno = b))
    (hz : (s.bc.buf i).refcnt = 0) :
    Core { s with
      bc := s.bc.set i
        { s.bc.buf i with dev := s.log.dev, blockno := b, valid := false, refcnt := 1 }
      uses := ⟨p, i, .waiting⟩ :: s.uses } c k m := by
  have hrc := h.refs.refcnt i
  have husers : users s.uses i = 0 := by omega
  have hpins : pins (s.bc.buf i) s.log.dev ((lhList s.log).drop m) = 0 := by omega
  have hne : ∀ u ∈ s.uses, u.buf ≠ i := users_eq_zero husers
  have hcached : ∀ j, ¬ ((s.bc.buf j).dev = s.log.dev ∧ (s.bc.buf j).blockno = b) :=
    fun j => hmiss j (h.keys.lru j)
  have hpinned := h.refs.pinValid
  refine { h with keys := ?_, refs := ?_, locks := ?_, contents := ?_ }
  · refine ⟨h.keys.lru, ?_, ?_⟩
    · have := h.keys.uniq
      grind [set_buf]
    · have := h.keys.useDev
      grind [set_buf]
  · refine ⟨fun j => ?_, ?_⟩
    · have := h.refs.refcnt j
      grind [set_buf, users_cons, pins]
    · intro b' hb'
      obtain ⟨j, hj⟩ := hpinned b' hb'
      exact ⟨j, by grind [set_buf, pins]⟩
  · refine ⟨fun j => ?_, ?_, ?_⟩
    · have := h.locks.locked j
      grind [set_buf, lockers_cons_waiting]
    · have := h.locks.owner
      grind [set_buf, Phase.locks]
    · have := h.locks.heldValid
      grind [set_buf, Phase.isHeld]
  · refine { h.contents with clean := ?_, logClean := ?_, logged := ?_ }
    · have := h.contents.clean
      grind [set_buf]
    · have := h.contents.logClean
      grind [set_buf]
    · have := h.contents.logged
      grind [set_buf]

theorem lockers_eq_zero {uses : List Use} {i : Fin NBUF} (h : lockers uses i = 0) :
    ∀ u ∈ uses, u.buf = i → u.phase.locks = false := by
  intro u hu heq
  have := countP_eq_zero.mp h u hu
  simpa [heq] using this

/-- `acquiresleep`. -/
theorem core_acquire (h : Core s c k m) {p : Nat} {i : Fin NBUF} (hu : ⟨p, i, .waiting⟩ ∈ s.uses)
    (hfree : (s.bc.buf i).lock = none) :
    Core { s.move ⟨p, i, .waiting⟩ .reading with
      bc := s.bc.set i { s.bc.buf i with lock := some p } } c k m := by
  have hk : SameKeys s.bc (s.bc.set i { s.bc.buf i with lock := some p }) := sameKeys_set rfl rfl
  have hvalid := set_field Buf.valid s.bc i { s.bc.buf i with lock := some p } rfl
  obtain ⟨hmem, hkept⟩ := erase_spec s.uses ⟨p, i, .waiting⟩
  have hnone : ∀ u ∈ s.uses, u.buf = i → u.phase.locks = false :=
    lockers_eq_zero (by rw [h.locks.locked, hfree]; rfl)
  refine { h with keys := ?_, refs := ?_, locks := ⟨fun j => ?_, ?_, ?_⟩, contents := ?_ }
  · exact h.keys.congr hk fun v hv => exists_of_mem_move hu hv
  · exact h.refs.congr hk (set_field Buf.refcnt _ _ _ rfl) (fun j => (hvalid j).trans)
      (users_move .reading hu)
  · have := h.locks.locked j
    have := lockers_move .reading hu j
    grind [Sys.move, set_buf, Phase.locks]
  · have := h.locks.owner
    grind [Sys.move, set_buf]
  · have := h.locks.heldValid
    grind [Sys.move, set_buf, Phase.isHeld]
  · refine { h.contents with clean := ?_, logClean := ?_, logged := ?_ }
    · have := h.contents.clean
      grind [Sys.move, set_buf]
    · have := h.contents.logClean
      grind [Sys.move, set_buf]
    · have := h.contents.logged
      grind [Sys.move, set_buf]

/-- A block that is not in the cache with its data has its abstract contents on the disk. -/
theorem disk_eq_abs_of_not_valid (h : Core s c k m) {i : Fin NBUF}
    (hdev : (s.bc.buf i).dev = s.log.dev) (hvalid : (s.bc.buf i).valid = false)
    (hout : ¬ s.log.InArea (s.bc.buf i).blockno) :
    s.disk (s.bc.buf i).blockno = s.abs (s.bc.buf i).blockno := by
  refine h.contents.home _ hout fun hmem => ?_
  -- a block that waits to be installed is pinned, hence valid, and it is cached only once
  obtain ⟨j, hd, hn, hv⟩ := h.refs.pinValid _ (mem_drop_of_le h.unpinned_le hmem)
  rw [h.keys.uniq j i hd hdev hn, hvalid] at hv
  cases hv

/-- The rest of `bread`. -/
theorem core_fill (h : Core s c k m) {p : Nat} {i : Fin NBUF} {b' : Buf}
    (hu : ⟨p, i, .reading⟩ ∈ s.uses) (hb' : b' = if (s.bc.buf i).valid then s.bc.buf i
      else { s.bc.buf i with data := s.disk (s.bc.buf i).blockno, valid := true }) :
    Core { s.move ⟨p, i, .reading⟩ (.held false false) with bc := s.bc.set i b' } c k m := by
  have hdev : b'.dev = (s.bc.buf i).dev := by rw [hb']; split <;> rfl
  have hbno : b'.blockno = (s.bc.buf i).blockno := by rw [hb']; split <;> rfl
  have hrc : b'.refcnt = (s.bc.buf i).refcnt := by rw [hb']; split <;> rfl
  have hlock : b'.lock = (s.bc.buf i).lock := by rw [hb']; split <;> rfl
  have hvalid' : b'.valid = true := by
    rw [hb']
    split
    · assumption
    · rfl
  have hk : SameKeys s.bc (s.bc.set i b') := sameKeys_set hdev hbno
  have hvalid : ∀ j, (s.bc.buf j).valid = true → ((s.bc.set i b').buf j).valid = true := by
    intro j hj
    rw [set_buf]
    split
    · exact hvalid'
    · exact hj
  obtain ⟨hmem, hkept⟩ := erase_spec s.uses ⟨p, i, .reading⟩
  refine { h with keys := ?_, refs := ?_, locks := ?_, contents := ?_ }
  · exact h.keys.congr hk fun v hv => exists_of_mem_move hu hv
  · exact h.refs.congr hk (set_field Buf.refcnt _ _ _ hrc) hvalid
      (users_move (.held false false) hu)
  · refine ⟨?_, ?_, ?_⟩
    · intro j
      have := h.locks.locked j
      have := lockers_move_of_locks (.held false false) hu rfl rfl j
      grind [Sys.move, set_buf]
    · have := h.locks.owner _ hu rfl
      have := h.locks.owner
      grind [Sys.move, set_buf]
    · have := h.locks.heldValid
      grind [Sys.move, set_buf]
  · refine { h.contents with clean := ?_, logClean := ?_, logged := ?_ }
    · have := h.contents.clean
      have := disk_eq_abs_of_not_valid h (i := i)
      grind [Sys.move, set_buf]
    · have := h.contents.logClean
      grind [Sys.move, set_buf]
    · have := h.contents.logged
      grind [Sys.move, set_buf]

/-! ### `brelse` -/

/-- `releasesleep`: a buffer with a change has been logged. -/
theorem core_releasesleep (h : Core s c k m) {p : Nat} {i : Fin NBUF}
    (hu : ⟨p, i, .held dirty logged⟩ ∈ s.uses) (hrule : dirty = true → logged = true) :
    Core { s.move ⟨p, i, .held dirty logged⟩ .releasing with
      bc := s.bc.set i { s.bc.buf i with lock := none } } c k m := by
  have hk : SameKeys s.bc (s.bc.set i { s.bc.buf i with lock := none }) := sameKeys_set rfl rfl
  have hvalid := set_field Buf.valid s.bc i { s.bc.buf i with lock := none } rfl
  obtain ⟨hmem, hkept⟩ := erase_spec s.uses ⟨p, i, .held dirty logged⟩
  have hlast : lockers (⟨p, i, .releasing⟩ :: s.uses.erase ⟨p, i, .held dirty logged⟩) i = 0 := by
    have hcount := lockers_move .releasing hu i
    have hone := h.locks.locked i
    rw [h.locks.owner _ hu rfl] at hone
    simp only [Phase.locks, and_self, and_false, if_true, if_false, Bool.false_eq_true,
      Option.isSome_some] at hcount hone
    omega
  refine { h with keys := ?_, refs := ?_, locks := ?_, contents := ?_ }
  · exact h.keys.congr hk fun v hv => exists_of_mem_move hu hv
  · exact h.refs.congr hk (set_field Buf.refcnt _ _ _ rfl) (fun j => (hvalid j).trans)
      (users_move .releasing hu)
  · have hfree := lockers_eq_zero hlast
    refine ⟨fun j => ?_, ?_, ?_⟩
    · have := h.locks.locked j
      have := lockers_move .releasing hu j
      grind [Sys.move, set_buf, Phase.locks]
    · have := h.locks.owner
      grind [Sys.move, set_buf]
    · have := h.locks.heldValid
      grind [Sys.move, set_buf, Phase.isHeld]
  · refine { h.contents with clean := ?_, logClean := ?_, logged := ?_ }
    · have := h.contents.clean
      grind [Sys.move, set_buf]
    · have := h.contents.logClean
      grind [Sys.move, set_buf]
    · have := h.contents.logged
      grind [Sys.move, set_buf]

/-- The cache after the second half of `brelse`, up to the order of its list. -/
theorem unref_buf (bc : BCache) (i j : Fin NBUF) :
    (bc.unref i).buf j
      = (bc.set i { bc.buf i with refcnt := (bc.buf i).refcnt - 1 }).buf j := by
  unfold BCache.unref
  simp only
  split <;> rfl

/-- `unref` changes the reference count only. -/
theorem unref_field {α : Type} (f : Buf → α) {i : Fin NBUF}
    (hf : f { bc.buf i with refcnt := (bc.buf i).refcnt - 1 } = f (bc.buf i)) (j : Fin NBUF) :
    f ((bc.unref i).buf j) = f (bc.buf j) := by
  rw [unref_buf]
  exact set_field f bc i _ hf j

theorem mem_unref_lru {i j : Fin NBUF} (h : j ∈ bc.lru) : j ∈ (bc.unref i).lru := by
  unfold BCache.unref
  simp only
  split
  · by_cases hj : j = i
    · exact hj ▸ mem_cons_self
    · exact mem_cons_of_mem _ ((mem_erase_of_ne hj).mpr h)
  · exact h

/-- The second half of `brelse`. -/
theorem core_unref (h : Core s c k m) {p : Nat} {i : Fin NBUF} (hu : ⟨p, i, .releasing⟩ ∈ s.uses) :
    Core { s with bc := s.bc.unref i, uses := s.uses.erase ⟨p, i, .releasing⟩ } c k m := by
  have hk : SameKeys s.bc (s.bc.unref i) :=
    ⟨unref_field Buf.dev rfl, unref_field Buf.blockno rfl, fun j hj => mem_unref_lru hj⟩
  have hlockers : ∀ j, lockers (s.uses.erase ⟨p, i, .releasing⟩) j = lockers s.uses j := by
    intro j
    have := countP_erase_of_mem (fun v => decide (v.buf = j) && v.phase.locks) hu
    simpa [lockers, Phase.locks] using this
  refine { h with keys := ?_, refs := ?_, locks := ?_, contents := ?_ }
  · exact h.keys.congr hk fun v hv => ⟨v, mem_of_mem_erase hv, rfl⟩
  · refine ⟨?_, ?_⟩
    · intro j
      have hcount := countP_erase_of_mem (fun v => decide (v.buf = j)) hu
      have hrc := h.refs.refcnt j
      show ((s.bc.unref i).buf j).refcnt = users (s.uses.erase _) j
        + pins ((s.bc.unref i).buf j) s.log.dev ((lhList s.log).drop m)
      rw [hk.pins, unref_buf]
      unfold users at hrc ⊢
      by_cases hj : j = i
      · subst hj
        rw [set_buf_self]
        simp only [decide_true, if_true] at hcount
        show (s.bc.buf j).refcnt - 1 = _
        omega
      · rw [set_buf_of_ne _ _ hj]
        simp only [Ne.symm hj, decide_false, Bool.false_eq_true, if_false] at hcount
        omega
    · intro b hb
      obtain ⟨j, hd, hn, hv⟩ := h.refs.pinValid b hb
      exact ⟨j, (hk.dev j).trans hd, (hk.blockno j).trans hn,
        (unref_field Buf.valid rfl j).trans hv⟩
  · refine h.locks.congr (unref_field Buf.lock rfl) (fun j => (unref_field Buf.valid rfl j).trans)
      hlockers ?_
    exact fun v hv => ⟨v, mem_of_mem_erase hv, rfl, rfl, rfl, rfl⟩
  · refine h.contents.congr hk rfl rfl rfl (unref_field Buf.data rfl)
      (unref_field Buf.valid rfl) ?_ ?_
    · intro v hv hph
      exact (mem_erase_of_ne (by rintro rfl; cases hph)).mpr hv
    · exact fun v hv _ _ => mem_of_mem_erase hv

/-! ### Changing a buffer and `log_write` -/

/-- The entries that are copied are not among those that are not. -/
theorem block_not_mem_drop (hnd : (lhList log).Nodup) {t : Nat} (htc : t < c)
    (htn : t < log.lh.n.toNat) : log.lh.block t ∉ (lhList log).drop c := by
  intro hmem
  have htake : log.lh.block t ∈ (lhList log).take c := by
    refine mem_take_iff_getElem.mpr ⟨t, ?_, by simp [lhList]⟩
    rw [length_lhList]
    omega
  rw [← take_append_drop c (lhList log)] at hnd
  exact (disjoint_of_nodup_append hnd) htake hmem

/-- The holder of a buffer keeps the locks as they are when it stays the holder. -/
theorem Locks.move_held {uses : List Use} (h : Locks bc uses) {p : Nat} {i : Fin NBUF}
    {d l d' l' : Bool} (hu : ⟨p, i, .held d l⟩ ∈ uses)
    (hlock : ∀ j, (bc'.buf j).lock = (bc.buf j).lock)
    (hval : ∀ j, (bc'.buf j).valid = (bc.buf j).valid) :
    Locks bc' (⟨p, i, .held d' l'⟩ :: uses.erase ⟨p, i, .held d l⟩) := by
  refine h.congr hlock (fun j => (hval j).trans)
    (lockers_move_of_locks (.held d' l') hu rfl rfl) fun v hv => ?_
  rcases mem_of_mem_move hv with rfl | hv
  · exact ⟨_, hu, rfl, rfl, rfl, rfl⟩
  · exact ⟨v, hv, rfl, rfl, rfl, rfl⟩

/-- The holder of a buffer outside the log area changes it. -/
theorem core_modify (h : Core s c k m) {p : Nat} {i : Fin NBUF}
    (hu : ⟨p, i, .held dirty logged⟩ ∈ s.uses) (hout : ¬ s.log.InArea (s.bc.buf i).blockno)
    (data : Block) :
    Core { s.move ⟨p, i, .held dirty logged⟩ (.held true logged) with
      bc := s.bc.set i { s.bc.buf i with data := data }
      abs := if logged then update s.abs (s.bc.buf i).blockno data
        else s.abs } c k m := by
  have hk : SameKeys s.bc (s.bc.set i { s.bc.buf i with data := data }) := sameKeys_set rfl rfl
  have hvalid := set_field Buf.valid s.bc i { s.bc.buf i with data := data } rfl
  have hdev : (s.bc.buf i).dev = s.log.dev := h.keys.useDev _ hu
  have hmem : logged = true → (s.bc.buf i).blockno ∈ (lhList s.log).drop c := by
    rintro rfl
    exact h.contents.logged _ hu dirty rfl
  obtain ⟨herase, hkept⟩ := erase_spec s.uses ⟨p, i, .held dirty logged⟩
  -- the abstract contents of another block are unchanged
  have habs : ∀ b, (logged = true → b ≠ (s.bc.buf i).blockno) →
      (if logged then update s.abs (s.bc.buf i).blockno data else s.abs) b
        = s.abs b := by
    intro b hb
    split
    · exact update_of_ne (hb ‹_›) _ _
    · rfl
  refine { h with keys := ?_, refs := ?_, locks := ?_, contents := ?_ }
  · exact h.keys.congr hk fun v hv => exists_of_mem_move hu hv
  · exact h.refs.congr hk (set_field Buf.refcnt _ _ _ rfl) (fun j => (hvalid j).trans)
      (users_move (.held true logged) hu)
  · exact h.locks.move_held hu (set_field Buf.lock _ _ _ rfl) hvalid
  · have huniq := fun j => h.keys.uniq j i
    refine ⟨?_, ?_, ?_, ?_, ?_⟩
    · intro j _ _ _ hdirty
      have := h.contents.clean j
      have := hdirty _ mem_cons_self
      cases logged <;> grind [Sys.move, set_buf, update_apply]
    · have := h.contents.logClean
      grind [Sys.move, set_buf]
    · intro b hb hnot
      refine (h.contents.home b hb hnot).trans (habs b ?_).symm
      rintro hl rfl
      exact hnot (mem_drop_of_le h.installed_le (hmem hl))
    · have := h.contents.logged
      grind [Sys.move, set_buf]
    · intro t htc htn
      refine (h.contents.copies t htc htn).trans (habs _ ?_).symm
      intro hl heq
      exact block_not_mem_drop h.nodup htc htn (heq ▸ hmem hl)

theorem logWrite_outstanding (h : log.logWrite b = .ok (log', added)) : 1 ≤ log.outstanding := by
  unfold Log.logWrite at h
  split at h
  · cases h
  split at h
  · cases h
  · omega

/-- The list of blocks after an entry is added. -/
theorem lhList_added (hn : 0 ≤ log.lh.n) (b : Nat) :
    lhList { log with
      lh := { n := log.lh.n + 1, block := update log.lh.block log.lh.n.toNat b } }
      = lhList log ++ [b] := by
  unfold lhList
  rw [show (log.lh.n + 1).toNat = log.lh.n.toNat + 1 from by omega, range_succ,
    map_append]
  simp only [map_cons, map_nil, update_self]
  congr 1
  refine map_congr_left fun t ht => update_of_ne ?_ _ _
  have := mem_range.mp ht
  omega

/-- What `log_write` does to the list of blocks. -/
theorem logWrite_list (h : log.logWrite b = .ok (log', added)) (hn : 0 ≤ log.lh.n)
    (hnd : (lhList log).Nodup) :
    log'.dev = log.dev ∧ log'.start = log.start ∧ log'.size = log.size ∧
    b ∈ lhList log' ∧ (∀ a ∈ lhList log, a ∈ lhList log') ∧
    (∀ a ∈ lhList log', a = b ∨ a ∈ lhList log) ∧ (lhList log').Nodup ∧
    (added = true ↔ b ∉ lhList log) := by
  obtain ⟨-, ⟨rfl, hold, rfl⟩ | ⟨rfl, hnew, rfl⟩⟩ := logWrite_ok h hn
  · have hmem := mem_lhList.mpr hold
    exact ⟨rfl, rfl, rfl, hmem, fun _ ha => ha, fun _ ha => Or.inr ha, hnd, by simp [hmem]⟩
  · have hfresh : b ∉ lhList log := by
      intro hmem
      obtain ⟨t, ht, hbt⟩ := mem_lhList.mp hmem
      exact hnew t ht hbt
    rw [lhList_added hn]
    refine ⟨rfl, rfl, rfl, by simp, fun a ha => mem_append_left _ ha, ?_, ?_, by simp [hfresh]⟩
    · intro a ha
      rcases mem_append.mp ha with ha | ha
      · exact Or.inr ha
      · exact Or.inl (mem_singleton.mp ha)
    · exact nodup_append'.mpr ⟨hnd, nodup_singleton _,
        disjoint_singleton.mpr hfresh⟩

/-- `log_write` outside a commit records the contents of the buffer. -/
theorem core_logWrite (h : Core s 0 0 0) {p : Nat} {i : Fin NBUF}
    (hu : ⟨p, i, .held dirty logged⟩ ∈ s.uses) (hout : ¬ s.log.InArea (s.bc.buf i).blockno)
    (hn : 0 ≤ s.log.lh.n) (hlw : s.log.logWrite (s.bc.buf i).blockno = .ok (log', added)) :
    Core { s.move ⟨p, i, .held dirty logged⟩ (.held dirty true) with
      bc := if added then s.bc.bpin i else s.bc
      log := log'
      abs := update s.abs (s.bc.buf i).blockno (s.bc.buf i).data } 0 0 0 := by
  have hdev : (s.bc.buf i).dev = s.log.dev := h.keys.useDev _ hu
  have hval : (s.bc.buf i).valid = true := h.locks.heldValid _ hu rfl
  have hk : SameKeys s.bc (if added then s.bc.bpin i else s.bc) := by
    split
    · exact sameKeys_set rfl rfl
    · exact ⟨fun _ => rfl, fun _ => rfl, fun _ hj => hj⟩
  have hfield {α : Type} (f : Buf → α)
      (hf : f { s.bc.buf i with refcnt := (s.bc.buf i).refcnt + 1 } = f (s.bc.buf i))
      (j : Fin NBUF) : f ((if added then s.bc.bpin i else s.bc).buf j) = f (s.bc.buf j) := by
    split
    · exact set_field f s.bc i _ hf j
    · rfl
  obtain ⟨hldev, hlstart, hlsize, hself, hmono, hback, hnodup, hfresh⟩ :=
    logWrite_list hlw hn h.nodup
  have hpins : ∀ j, pins (s.bc.buf j) s.log.dev (lhList log')
      = pins (s.bc.buf j) s.log.dev (lhList s.log) + if added ∧ j = i then 1 else 0 := by
    intro j
    have := h.keys.uniq j i
    grind [pins]
  have harea : ∀ b, log'.InArea b ↔ s.log.InArea b := by
    intro b
    unfold Log.InArea
    rw [hlstart, hlsize]
  have habs : ∀ b, b ≠ (s.bc.buf i).blockno →
      update s.abs (s.bc.buf i).blockno (s.bc.buf i).data b = s.abs b :=
    fun b hb => update_of_ne hb _ _
  refine ⟨?_, ?_, ?_, ?_, hnodup, ?_, Nat.le_refl 0, Nat.le_refl 0⟩
  · show Keys _ log'.dev _
    rw [hldev]
    exact h.keys.congr hk fun v hv => exists_of_mem_move hu hv
  · show Refs _ log'.dev _ (lhList log')
    rw [hldev]
    refine ⟨?_, ?_⟩
    · intro j
      have hrc := h.refs.refcnt j
      rw [hk.pins, hpins]
      have husers := users_move (.held dirty true) hu j
      rw [drop_zero] at hrc
      cases added <;> grind [Sys.move, BCache.bpin, set_buf]
    · intro b hb
      rcases hback b hb with rfl | hb
      · exact ⟨i, (hk.dev i).trans hdev, hk.blockno i, (hfield Buf.valid rfl i).trans hval⟩
      · obtain ⟨j, hd, hbn, hv⟩ := h.refs.pinValid b hb
        exact ⟨j, (hk.dev j).trans hd, (hk.blockno j).trans hbn,
          (hfield Buf.valid rfl j).trans hv⟩
  · exact h.locks.move_held hu (hfield Buf.lock rfl) (hfield Buf.valid rfl)
  · have huniq := fun j => h.keys.uniq j i
    have hdata := hfield Buf.data rfl
    have hvalid := hfield Buf.valid rfl
    obtain ⟨herase, hkept⟩ := erase_spec s.uses ⟨p, i, .held dirty logged⟩
    have hdev' := hk.dev
    have hbno := hk.blockno
    refine ⟨?_, ?_, ?_, ?_, fun t ht => absurd ht (Nat.not_lt_zero t)⟩
    · have := h.contents.clean
      grind [Sys.move]
    · have := h.contents.logClean
      grind [Sys.move]
    · have := h.contents.home
      grind [Sys.move]
    · have := h.contents.logged
      grind [Sys.move]
  · intro b hb
    show ¬ log'.InArea b
    rw [harea]
    rcases hback b hb with rfl | hb
    · exact hout
    · exact h.outside b hb

end Xv6.Proofs
