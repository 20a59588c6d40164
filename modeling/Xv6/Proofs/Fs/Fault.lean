import Xv6.Proofs.Fs.Flat
import Xv6.Proofs.Vm.Strings

/-!
# `Xv6.Proofs.Fs.Fault`: a write whose user copy fails

`writei` copies from user memory straight into the cached block. If a copy fails in the middle, the
bytes before the fault are in the block already, `writei` does not count them, and it does not call
`log_write`. `leftBy` are these bytes, and `faultAt` is where the copy that fails starts.

Such bytes are seen until the buffer is recycled, and then they are gone, unless the block happens
to be in the log for another reason. `evicted` is the disk with all buffers recycled. The write
changes only what it reports exactly if the bytes left in the block are the ones that were there, or
lie behind the end of the file in a block that is in the log (`faulting_write_iff`).
-/

set_option autoImplicit false

namespace Xv6

/-- The bytes at user address `va`, up to the first address without a page. -/
def userBytes (f : Nat → Option UInt8) : (va m : Nat) → List UInt8
  | _, 0 => []
  | va, m + 1 => (f va).elim [] fun b => b :: userBytes f (va + 1) m

theorem userBytes_length_le (f : Nat → Option UInt8) (m : Nat) :
    ∀ va, (userBytes f va m).length ≤ m := by
  induction m with
  | zero => exact fun _ => Nat.le_refl 0
  | succ m ih =>
    intro va
    rw [userBytes]
    cases f va with
    | none => exact Nat.zero_le _
    | some b => exact Nat.succ_le_succ (ih (va + 1))

/-- User memory from `va` on. -/
def Fs.Source.user (f : Nat → Option UInt8) (va : Nat) : Fs.Source where
  copy tot m := (userBytes f (va + tot) m, (userBytes f (va + tot) m).length = m)
  length_le tot m := userBytes_length_le f m (va + tot)
  length_eq tot m h := by simpa using h

namespace Proofs

open Lib Fs

/-! ### What `copyin` stores -/

/-- The bytes of the user memory up to the first that cannot be read. -/
theorem userBytes_eq {f : Nat → Option UInt8} (bs : List UInt8) :
    ∀ va m, (∀ (k : Nat) (b : UInt8), bs[k]? = some b → f (va + k) = some b) →
      (bs.length = m ∨ bs.length < m ∧ f (va + bs.length) = none) → userBytes f va m = bs := by
  induction bs with
  | nil =>
    intro va m _ hstop
    cases m with
    | zero => rfl
    | succ m =>
      have hnone : f va = none := by simpa using hstop
      rw [userBytes, hnone]
      rfl
  | cons b bs ih =>
    intro va m hbytes hstop
    cases m with
    | zero => simp at hstop
    | succ m =>
      have hfirst := hbytes 0 b rfl
      rw [Nat.add_zero] at hfirst
      rw [userBytes, hfirst, Option.elim_some, ih (va + 1) m]
      · intro k c hk
        rw [Nat.add_assoc, Nat.add_comm 1 k]
        exact hbytes (k + 1) c hk
      · rw [List.length_cons] at hstop
        rw [Nat.add_assoc, Nat.add_comm 1]
        exact hstop.imp Nat.succ.inj (And.imp_left Nat.lt_of_succ_lt_succ)

/-- `copyin` is the copy of a user source. -/
theorem copyin_user {ph : Phys} {d : Dirs} {tf : Entry} {es : List Entry} {other : List Nat}
    (h : AddressSpace ph d tf es other) (va tot m : Nat) :
    ∃ r, (copyin d.root (va + tot) m).run ph
        = .ok ((((Source.user (userAt ph d.root) va).copy tot m).1, r), ph) ∧
      (r = 0 ↔ ((Source.user (userAt ph d.root) va).copy tot m).2 = true) := by
  obtain ⟨bs, r, hrun, hext, hbytes⟩ := copyinLoop_exact h m (va + tot) m (Nat.le_refl m)
  have huser : userBytes (userAt ph d.root) (va + tot) m = bs := by
    refine userBytes_eq bs _ _ (fun k b hk => ?_) ?_
    · have hlt := (List.getElem?_eq_some_iff.mp hk).1
      obtain ⟨pg, hpg⟩ := Option.ne_none_iff_exists'.mp (hext.reach k hlt)
      rw [h.userAt, hpg]
      rw [hbytes k hlt pg hpg] at hk
      exact hk
    · rcases hext.stop with ⟨-, hlen⟩ | ⟨-, hlt, hnone, -⟩
      · exact .inl hlen
      · exact .inr ⟨hlt, by rw [h.userAt, hnone]; rfl⟩
  refine ⟨r, ?_, ?_⟩
  · rw [copyin, hrun]
    simp only [Source.user, huser]
  · simp only [Source.user, huser, decide_eq_true_iff]
    rcases hext.stop with ⟨hr, hlen⟩ | ⟨hr, hlt, -⟩
    · exact iff_of_true hr hlen
    · exact iff_of_false (by omega) (by omega)

/-! ### Buffers that are recycled -/

/-- The disk as it is read when the buffers have been recycled: the blocks in the log are pinned,
and written to their place from the cache; any other block is read again from its place. -/
def evicted (s : Fs) (home : Disk) : Disk := fun b => if b ∈ logged s.log then s.disk b else home b

variable {s s' : Fs} {ip : InodeId}

/-- The write changes only the bytes that it reports, now and after the buffers are recycled, and
leaves no block changed that is not in the log. -/
structure ReportsOnly (s s' : Fs) (home : Disk) (ip : InodeId) (off tot : Nat) : Prop where
  reads : ∀ j, Live s.sb (eff s) j → ∀ x, x < (eff s j).size →
    (j = (s.itable ip).inum → x < off ∨ off + tot ≤ x) →
    byteAt s'.disk (eff s' j) x = byteAt s.disk (eff s j) x
  rereads : ∀ j, Live s.sb (eff s) j → ∀ x, x < (eff s j).size →
    (j = (s.itable ip).inum → x < off ∨ off + tot ≤ x) →
    byteAt (evicted s' home) (eff s' j) x = byteAt s.disk (eff s j) x
  clean : ∀ b, b ∉ logged s'.log → s'.disk b = home b

/-- Where the first copy that fails starts, or `n` if all succeed. A copy starts at the first byte
and wherever a block of the file starts. -/
def faultAt (src : Source) (off n : Nat) : Nat :=
  ((List.range n).find? fun tot => (tot = 0 ∨ (off + tot) % BSIZE = 0) ∧
    (src.copy tot (chunkAt (off + tot) (n - tot))).2 = false).getD n

/-- Every byte that the failed copy leaves is the one that was there, or is behind the end of the
file in a block that is in the log. -/
def Harmless (s : Fs) (ip : InodeId) (src : Source) (off n : Nat) : Prop :=
  ∀ (i : Nat) (c : UInt8),
    (leftBy src (off + faultAt src off n) (faultAt src off n) n)[i]? = some c →
    ∀ b, b = fileBlock s.disk (s.itable ip).toDinode ((off + faultAt src off n) / BSIZE) → b ≠ 0 →
      c ≠ s.disk b ((off + faultAt src off n + i) % BSIZE) →
      (s.itable ip).size ≤ off + faultAt src off n + i ∧ b ∈ logged s.log

section

variable {src : Source} {off n tot : Nat} {ws : List Nat} {home : Disk}

/-- The write goes on up to the first copy that fails. -/
theorem WroteFile.tot_eq (h : WroteFile s s' ip src off n tot ws) : tot = faultAt src off n := by
  unfold faultAt
  rcases Nat.lt_or_eq_of_le h.le with hlt | rfl
  · rw [List.find?_range_eq_some.mpr, Option.getD_some]
    refine ⟨decide_eq_true ⟨h.start hlt, (h.failed hlt).1⟩, List.mem_range.mpr hlt, fun t ht => ?_⟩
    rw [Bool.not_eq_true', decide_eq_false_iff_not]
    exact fun hfail => Bool.false_ne_true (hfail.2.symm.trans (h.copied t ht hfail.1))
  · rw [List.find?_eq_none.mpr, Option.getD_none]
    intro t ht
    rw [decide_eq_true_eq]
    exact fun hfail =>
      Bool.false_ne_true (hfail.2.symm.trans (h.copied t (List.mem_range.mp ht) hfail.1))

/-- A byte that the failed copy has left is in the block at its end. -/
theorem left_split {i : Nat} {c : UInt8} (hc : (leftBy src (off + tot) tot n)[i]? = some c) :
    tot < n ∧ (off + tot + i) / BSIZE = (off + tot) / BSIZE ∧
      (off + tot + i) % BSIZE = (off + tot) % BSIZE + i := by
  have hi := (List.getElem?_eq_some_iff.mp hc).1
  unfold leftBy at hi
  split at hi
  · rename_i hlt
    have hle := src.length_le tot (chunkAt (off + tot) (n - tot))
    have hmin : chunkAt (off + tot) (n - tot) ≤ BSIZE - (off + tot) % BSIZE := Nat.min_le_right _ _
    exact ⟨hlt, pos_split (off + tot) i (by omega)⟩
  · simp at hi

/-- Bytes of a file are in its blocks. -/
theorem fileBlock_of_lt_size (hok : FsOk s) (hc : Cached s ip)
    (hlive : Live s.sb (eff s) (s.itable ip).inum) {x : Nat} (hx : x < (s.itable ip).size) :
    fileBlock s.disk (s.itable ip).toDinode (x / BSIZE) ≠ 0 := by
  have hfull := hok.alloc.full _ hlive (x / BSIZE)
  rw [eff_cached hok.table hc] at hfull
  exact hfull (Nat.lt_of_le_of_lt (Nat.div_mul_le_self x BSIZE) hx)

/-- Without harm, no block differs from its place unless it is in the log. -/
theorem WroteFile.evicted_eq (h : WroteFile s s' ip src off n tot ws) (hn : 0 ≤ s.log.lh.n)
    (hhome : ∀ b, b ∉ logged s.log → s.disk b = home b) (hharm : Harmless s ip src off n) :
    evicted s' home = s'.disk := by
  unfold Harmless at hharm
  rw [← h.tot_eq] at hharm
  funext a
  unfold evicted
  split
  · rfl
  · rename_i hnot
    rw [(h.writes.log.mem hn).2, Finset.mem_union, not_or, List.mem_toFinset] at hnot
    rw [← hhome a hnot.1]
    by_cases hlast : tot < n ∧ a = fileBlock s'.disk (s'.itable ip).toDinode ((off + tot) / BSIZE)
    swap
    · exact (h.frame a hnot.2 fun hlt heq => hlast ⟨hlt, heq⟩).symm
    · -- the block of the failed copy: it is an old one, and gets the bytes that it has
      obtain ⟨hlt, ha⟩ := hlast
      have hold : fileBlock s.disk (s.itable ip).toDinode ((off + tot) / BSIZE) ≠ 0 := fun hzero =>
        hnot.2 (ha ▸ h.fresh hlt hzero)
      rw [h.data hlt a ha hnot.2]
      rw [h.blocks _ hold] at ha
      funext o
      unfold putBytes
      split
      · rename_i ho
        set i := o - (off + tot) % BSIZE with hi
        have hget : (leftBy src (off + tot) tot n)[i]?
            = some ((leftBy src (off + tot) tot n).getD i 0) := by
          rw [List.getD_eq_getElem?_getD, List.getElem?_eq_getElem (by omega), Option.getD_some]
        have hmod := (left_split hget).2.2
        have hbyte : ¬ (leftBy src (off + tot) tot n).getD i 0 ≠ s.disk a o := by
          intro hne
          rw [show o = (off + tot + i) % BSIZE by omega] at hne
          exact hnot.1 (hharm i _ hget a ha (ha ▸ hold) hne).2
        exact (not_not.mp hbyte).symm
      · rfl

/-- A write has the reported effect only exactly if its copies leave nothing behind. -/
theorem WroteFile.reports_iff (h : WroteFile s s' ip src off n tot ws) (hok : FsOk s)
    (hc : Cached s ip) (hlive : Live s.sb (Proofs.eff s) (s.itable ip).inum)
    (hn : 0 ≤ s.log.lh.n) (hhome : ∀ b, b ∉ logged s.log → s.disk b = home b) :
    ReportsOnly s s' home ip off tot ↔ Harmless s ip src off n := by
  have heff := eff_cached hok.table hc
  have heff' := h.eff_self hc
  constructor
  · unfold Harmless
    rw [← h.tot_eq]
    intro hrep i c hi b hb hne hdiff
    obtain ⟨hlt, hdiv, hmod⟩ := left_split hi
    have hleft := h.left i c hi
    have hsame := h.blocks _ (hb ▸ hne)
    rw [← hb] at hsame
    rw [byteAt, hdiv, hsame] at hleft
    refine ⟨Nat.le_of_not_lt fun hx => ?_, ?_⟩
    · -- below the size it is seen at once
      have hread := hrep.reads _ hlive (off + tot + i) (heff.symm ▸ hx) fun _ => .inr (by omega)
      rw [heff, heff', byteAt, byteAt, hdiv, hsame, ← hb, hleft] at hread
      exact hdiff hread
    · -- in a block that is not in the log it differs from the place of the block
      by_contra hnot
      have hnot' : b ∉ logged s'.log := by
        rw [(h.writes.log.mem hn).2, Finset.mem_union, not_or, List.mem_toFinset]
        exact ⟨hnot, hb ▸ h.old hlt (hb ▸ hne)⟩
      rw [hrep.clean b hnot', ← hhome b hnot] at hleft
      exact hdiff hleft.symm
  · intro hharm
    have hevict := h.evicted_eq hn hhome hharm
    unfold Harmless at hharm
    rw [← h.tot_eq] at hharm
    have hreads : ∀ j, Live s.sb (Proofs.eff s) j → ∀ x, x < (Proofs.eff s j).size →
        (j = (s.itable ip).inum → x < off ∨ off + tot ≤ x) →
        byteAt s'.disk (Proofs.eff s' j) x = byteAt s.disk (Proofs.eff s j) x := by
      intro j hj x hx hout
      by_cases hji : j = (s.itable ip).inum
      · subst hji
        rw [heff] at hx ⊢
        rw [heff']
        by_cases hleft : off + tot ≤ x ∧ x < off + tot + (leftBy src (off + tot) tot n).length
        · -- a byte of the failed copy
          obtain ⟨i, rfl⟩ := Nat.exists_eq_add_of_le hleft.1
          have hi : i < (leftBy src (off + tot) tot n).length := by omega
          have hget := List.getElem?_eq_getElem hi
          obtain ⟨-, hdiv, -⟩ := left_split hget
          have hblock := fileBlock_of_lt_size hok hc hlive hx
          rw [h.left i _ hget, byteAt, hdiv]
          rw [hdiv] at hblock
          by_contra hdiff
          have hbehind := (hharm i _ hget _ rfl hblock hdiff).1
          omega
        · exact h.bytes x hx (by have := hout rfl; omega)
      · rw [h.eff j hji]
        refine h.others j hj hji x (hok.alloc.full j hj _ ?_)
        exact Nat.lt_of_le_of_lt (Nat.div_mul_le_self x BSIZE) hx
    refine ⟨hreads, by rwa [hevict], fun b hb => ?_⟩
    rw [← hevict, evicted, if_neg hb]

end

/-- A write that fails in a copy reports all its changes exactly if the bytes that the copy has left
do no harm. The disk `home` holds the blocks at their places; outside the log the cache agrees with
it before the call. -/
theorem faulting_write_iff {src : Source} {off n tot : Nat} {home : Disk} (hok : FsOk s)
    (hc : Cached s ip) (hlive : Live s.sb (eff s) (s.itable ip).inum) (hn : 0 ≤ s.log.lh.n)
    (hhome : ∀ b, b ∉ logged s.log → s.disk b = home b) (hoff : off < 2 ^ 32) (hlen : n < 2 ^ 32)
    (hrun : (writei ip src off n).run s = .ok ((tot : Int), s')) :
    ReportsOnly s s' home ip off tot ↔ Harmless s ip src off n := by
  have hfits : off ≤ (s.itable ip).size ∧ off + n ≤ MAXFILE * BSIZE := by
    by_contra hno
    have hrej : (writei ip src off n).run s = .ok (-1, s) := writei_rejects hoff hlen (by omega)
    rw [hrun] at hrej
    have hneg : (tot : Int) = -1 := congrArg Prod.fst (Except.ok.inj hrej)
    omega
  obtain ⟨tot', ws, htot, hwrote⟩ := wp_ok (writei_spec hok hc hlive hfits.1 hfits.2) hrun
  obtain rfl : tot = tot' := by omega
  exact hwrote.reports_iff hok hc hlive hn hhome

/-- A process with one page, full of ones. -/
def onePage (va : Nat) : Option UInt8 := if va < PGSIZE then some 1 else none

/-- What a write of `n` bytes at `off` from the last byte of the page returns, with the byte at `x`
of the file after it, now and after the buffers are recycled. -/
def faultOutcome (data : List UInt8) (off n x : Nat) : Option (Int × UInt8 × UInt8) :=
  match (writei firstEntry (.user onePage (PGSIZE - 1)) off n).run (oneFile data 1) with
  | .error _ => none
  | .ok (r, s') =>
    some (r, byteAt s'.disk (eff s' 1) x, byteAt (evicted s' (oneFile data 1).disk) (eff s' 1) x)

/-- What the outcome of a run says about the run. -/
theorem faultOutcome_some {data : List UInt8} {off n x : Nat} {r : Int} {b c : UInt8}
    (h : faultOutcome data off n x = some (r, b, c)) :
    ∃ s',
      (writei firstEntry (.user onePage (PGSIZE - 1)) off n).run (oneFile data 1) = .ok (r, s') ∧
      byteAt s'.disk (eff s' 1) x = b ∧
      byteAt (evicted s' (oneFile data 1).disk) (eff s' 1) x = c := by
  unfold faultOutcome at h
  split at h
  · cases h
  · rename_i r' s' hrun
    simp only [Option.some.injEq, Prod.mk.injEq] at h
    obtain ⟨rfl, hb, hc⟩ := h
    exact ⟨s', hrun, hb, hc⟩

/-- The copy stores one byte, hits the end of the page and fails. `writei` returns 0, and yet the
first byte of the file has changed; when the buffer is recycled it changes back. -/
theorem faulting_write_seen : ∃ s',
    (writei firstEntry (.user onePage (PGSIZE - 1)) 0 2).run (oneFile [7] 1) = .ok (0, s') ∧
    byteAt (oneFile [7] 1).disk (eff (oneFile [7] 1) 1) 0 = 7 ∧ byteAt s'.disk (eff s' 1) 0 = 1 ∧
    byteAt (evicted s' (oneFile [7] 1).disk) (eff s' 1) 0 = 7 ∧
    ¬ ReportsOnly (oneFile [7] 1) s' (oneFile [7] 1).disk firstEntry 0 0 := by
  obtain ⟨s', hrun, hnow, hlater⟩ :=
    faultOutcome_some (show faultOutcome [7] 0 2 0 = some (0, 1, 7) by decide +kernel)
  have hbefore : byteAt (oneFile [7] 1).disk (eff (oneFile [7] 1) 1) 0 = 7 := by decide +kernel
  refine ⟨s', hrun, hbefore, hnow, hlater, fun hrep => ?_⟩
  have hread := hrep.reads 1 (oneFile_live (by decide) (by decide)) 0 (by decide +kernel) fun _ =>
    .inr (Nat.le_refl 0)
  rw [hnow, hbefore] at hread
  exact absurd hread (by decide)

/-- Of two bytes, the first ends a block of the file and the page, and the second has no page: the
copy that fails has stored nothing. -/
theorem faulting_write_at_page_end : ∃ s',
    (writei firstEntry (.user onePage (PGSIZE - 1)) 1023 2).run (oneFile (List.replicate 1024 7) 1)
      = .ok (1, s') ∧
    ReportsOnly (oneFile (List.replicate 1024 7) 1) s' (oneFile (List.replicate 1024 7) 1).disk
      firstEntry 1023 1 := by
  obtain ⟨s', hrun, -, -⟩ := faultOutcome_some
    (show faultOutcome (List.replicate 1024 7) 1023 2 1023 = some (1, 1, 1) by decide +kernel)
  have hdata : (List.replicate 1024 (7 : UInt8)).length ≤ BSIZE := by
    rw [List.length_replicate, BSIZE_eq]
  have hleft : leftBy (.user onePage (PGSIZE - 1))
      (1023 + faultAt (.user onePage (PGSIZE - 1)) 1023 2)
      (faultAt (.user onePage (PGSIZE - 1)) 1023 2) 2 = [] := by decide +kernel
  refine ⟨s', hrun, (faulting_write_iff (oneFile_ok hdata (by decide)) (oneFile_cached _ 1)
    (oneFile_live hdata (by decide)) (Int.le_refl 0) (fun _ _ => rfl) (by decide) (by decide)
    hrun).mpr fun i c hc => ?_⟩
  rw [hleft] at hc
  simp at hc

end Proofs

end Xv6
