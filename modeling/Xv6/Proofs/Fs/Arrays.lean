import Xv6.Proofs.Fs.Flat

/-!
# `Xv6.Proofs.Fs.Arrays`: files refine arrays of bytes

`contents` maps a file to the list of its bytes. On these lists `readi` is a slice and `writei` is
`splice`, which replaces a range and extends the list if the range ends behind it. The range starts
at most at the end of the list.

A write may need blocks for its data and for the indirect table, and all that it changes goes
through the log. `RoomAt` is the room that it needs, neither more nor less: with it the write is
carried out, and without it the kernel panics (`writei_full_disk`).
-/

set_option autoImplicit false

namespace Xv6.Proofs

open Lib Fs List

variable {s : Fs} {ip : InodeId}

/-- The list with the bytes from `off` on replaced by `bs`. -/
def splice (c : List UInt8) (off : Nat) (bs : List UInt8) : List UInt8 :=
  c.take off ++ bs ++ c.drop (off + bs.length)

/-! ### Bytes of a file as lists -/

theorem length_bytesFrom (disk : Disk) (d : Dinode) (off n : Nat) :
    (bytesFrom disk d off n).length = n := by
  simp [bytesFrom]

theorem bytesFrom_congr {disk disk' : Disk} {d d' : Dinode} {off n : Nat}
    (h : ∀ x, off ≤ x → x < off + n → byteAt disk' d' x = byteAt disk d x) :
    bytesFrom disk' d' off n = bytesFrom disk d off n := by
  refine map_congr_left fun i hi => h _ (Nat.le_add_right _ _) ?_
  have := mem_range.mp hi
  omega

theorem take_bytesFrom (disk : Disk) (d : Dinode) (off m n : Nat) :
    (bytesFrom disk d off n).take m = bytesFrom disk d off (min m n) := by
  rw [bytesFrom, ← map_take, take_range]
  rfl

/-- The bytes of a file without the first `m` of them. -/
theorem drop_bytesFrom (disk : Disk) (d : Dinode) (off m n : Nat) :
    (bytesFrom disk d off n).drop m = bytesFrom disk d (off + m) (n - m) := by
  by_cases hle : m ≤ n
  · obtain ⟨k, rfl⟩ := Nat.exists_eq_add_of_le hle
    rw [bytesFrom_add, drop_left' (length_bytesFrom ..), Nat.add_sub_cancel_left]
  · rw [drop_eq_nil_of_le (by rw [length_bytesFrom]; omega), Nat.sub_eq_zero_of_le (by omega)]
    rfl

/-- The contents of the file of an entry. -/
theorem contents_cached (hok : FsOk s) (hc : Cached s ip) : contents s (s.itable ip).inum
    = bytesFrom s.disk (s.itable ip).toDinode 0 (s.itable ip).size := by
  rw [contents, eff_cached hok.table hc]

/-! ### `writei` and `readi` -/

section

variable {s' : Fs} {src : Source} {off n tot : Nat} {ws : List Nat}

/-- The file has the bytes that were written at their offset, and its other bytes. -/
theorem WroteFile.contents_self (h : WroteFile s s' ip src off n tot ws) (hok : FsOk s)
    (hc : Cached s ip) (hoff : off ≤ (s.itable ip).size) {g : Nat → UInt8} (hg : Delivers src g)
    (hleft : leftBy src (off + tot) tot n = []) :
    contents s' (s.itable ip).inum
      = splice (contents s (s.itable ip).inum) off ((List.range tot).map g) := by
  have hcontents := contents_cached h.ok (h.cached hc)
  rw [h.inum, h.size] at hcontents
  have hbytes := h.bytes
  rw [hleft, length_nil, Nat.add_zero] at hbytes
  rw [hcontents, contents_cached hok hc, splice, take_bytesFrom, drop_bytesFrom, length_map,
    length_range, Nat.zero_add, Nat.min_eq_left hoff]
  -- the part before the range, the range, and the part behind it
  have hsplit : max (s.itable ip).size (off + tot)
      = off + tot + ((s.itable ip).size - (off + tot)) := by omega
  rw [hsplit, bytesFrom_add, bytesFrom_add, Nat.zero_add, Nat.zero_add]
  congr 1
  · congr 1
    · exact bytesFrom_congr fun x _ hx => hbytes x (by omega) (.inl (by omega))
    · refine map_congr_left fun i hi => ?_
      rw [h.new g hg (off + i) (Nat.le_add_right _ _) (by have := mem_range.mp hi; omega),
        Nat.add_sub_cancel_left]
  · exact bytesFrom_congr fun x hx hx' => hbytes x (by omega) (.inr hx)

/-- The other files keep their contents. -/
theorem WroteFile.contents_other (h : WroteFile s s' ip src off n tot ws) (hok : FsOk s) {j : Nat}
    (hj : Live s.sb (Proofs.eff s) j) (hne : j ≠ (s.itable ip).inum) :
    contents s' j = contents s j := by
  unfold contents
  rw [h.eff j hne]
  refine bytesFrom_congr fun x _ hx => h.others j hj hne x (hok.alloc.full j hj _ ?_)
  rw [Nat.zero_add] at hx
  exact Nat.lt_of_le_of_lt (Nat.div_mul_le_self x BSIZE) hx

end

/-- What `writei` of bytes that all can be copied does: nothing if the range is not allowed, and
else a splice if there is room, and a panic if there is not. -/
def WritesArray (s : Fs) (ip : InodeId) (src : Source) (g : Nat → UInt8) (off n : Nat) : Prop :=
  ((s.itable ip).size < off ∨ 2 ^ 32 ≤ off + n ∨ MAXFILE * BSIZE < off + n →
    (writei ip src off n).run s = .ok (-1, s)) ∧
  (off ≤ (s.itable ip).size → off + n ≤ MAXFILE * BSIZE →
    (RoomAt s ip (touched off n) →
      ∃ s', (writei ip src off n).run s = .ok ((n : Int), s') ∧ FsOk s' ∧
        contents s' (s.itable ip).inum
          = splice (contents s (s.itable ip).inum) off ((List.range n).map g) ∧
        dinodeOf s.sb s'.disk (s.itable ip).inum = (s'.itable ip).toDinode ∧
        ∀ j, Live s.sb (eff s) j → j ≠ (s.itable ip).inum → contents s' j = contents s j) ∧
    (HeaderOk s.log → ¬ RoomAt s ip (touched off n) →
      ∃ e, (writei ip src off n).run s = .error e))

/-- What `readi` does if all can be copied: it delivers a slice and changes nothing. -/
def ReadsArray (s : Fs) (ip : InodeId) (dst : Dest) (off n : Nat) : Prop :=
  ((s.itable ip).size < off ∨ 2 ^ 32 ≤ off + n → (readi ip dst off n).run s = .ok (([], 0), s)) ∧
  (off ≤ (s.itable ip).size → off + n < 2 ^ 32 →
    (readi ip dst off n).run s = .ok
      ((((contents s (s.itable ip).inum).drop off).take n,
        (min n ((s.itable ip).size - off) : Nat)), s))

/-- The contents of a file are an array of bytes that `writei` splices and `readi` slices. -/
theorem file_is_array (hok : FsOk s) (hc : Cached s ip)
    (hlive : Live s.sb (eff s) (s.itable ip).inum) {off n : Nat} (hoff : off < 2 ^ 32)
    (hn : n < 2 ^ 32) {src : Source} (hsrc : ∀ tot m, (src.copy tot m).2 = true)
    {g : Nat → UInt8} (hg : Delivers src g) {dst : Dest} (hdst : ∀ tot m, dst tot m = true) :
    WritesArray s ip src g off n ∧ ReadsArray s ip dst off n := by
  have heff := eff_cached hok.table hc
  have hfull : ∀ bn, bn * BSIZE < (s.itable ip).size →
      fileBlock s.disk (s.itable ip).toDinode bn ≠ 0 := by
    rw [← heff]
    exact hok.alloc.full _ hlive
  -- no copy fails, so a write that returns has written all bytes
  have hall : ∀ {s' tot ws}, WroteFile s s' ip src off n tot ws → tot = n := by
    intro s' tot ws hwrote
    by_contra hne
    have hfail := (hwrote.failed (Nat.lt_of_le_of_ne hwrote.le hne)).1
    rw [hsrc] at hfail
    exact Bool.noConfusion hfail
  refine ⟨⟨writei_rejects hoff hn, fun hle hmax => ⟨fun hroom => ?_, fun hlog hroom => ?_⟩⟩,
    ⟨fun hout => ?_, fun hle hlt => ?_⟩⟩
  · have hspec := wp_mono (@writei_spec s ip src off n hok hc hlive hle hmax) (fun _ _ h => h)
      fun e he => he.2 hroom
    obtain ⟨r, s', hrun, tot, ws, rfl, hwrote⟩ := wp_returns hspec
    obtain rfl := hall hwrote
    have hleft : leftBy src (off + tot) tot tot = [] := if_neg (Nat.lt_irrefl _)
    exact ⟨s', hrun, hwrote.ok, hwrote.contents_self hok hc hle hg hleft, hwrote.dinode,
      fun j hj hne => hwrote.contents_other hok hj hne⟩
  · cases hrun : (writei ip src off n).run s with
    | error e => exact ⟨e, rfl⟩
    | ok r =>
      obtain ⟨tot, ws, -, hwrote⟩ := wp_ok (writei_spec hok hc hlive hle hmax) hrun
      exact absurd (hwrote.room (hall hwrote) hlog) hroom
  · obtain ⟨r, s', hrun, rfl, hr, -⟩ := wp_returns (@readi_spec s ip dst hfull off n hoff hn)
    rw [hrun, hr hout]
  · obtain ⟨r, s', hrun, rfl, -, hr⟩ := wp_returns (@readi_spec s ip dst hfull off n hoff hn)
    rw [hrun, hr hle hlt hdst, contents_cached hok hc, drop_bytesFrom, take_bytesFrom, Nat.zero_add]

/-- A file of one block and no free block: the write of the next byte panics. So does a write to a
file of one byte when one block less than the log holds is in it, since the block of the byte leaves
no room for the inode. -/
theorem writei_full_disk : FsOk (oneFile (List.replicate 1024 7) 0) ∧
    Cached (oneFile (List.replicate 1024 7) 0) firstEntry ∧
    ((oneFile (List.replicate 1024 7) 0).itable firstEntry).size = 1024 ∧
    (writei firstEntry (.ofFn fun _ => 9) 1024 1).run (oneFile (List.replicate 1024 7) 0)
      = .error .outOfBlocks ∧
    FsOk (busyLog (oneFile [7] 200) 28) ∧ HeaderOk (busyLog (oneFile [7] 200) 28).log ∧
    (writei firstEntry (.ofFn fun _ => 9) 0 1).run (busyLog (oneFile [7] 200) 28)
      = .error (.log .tooBig) := by
  have hdata : (List.replicate 1024 (7 : UInt8)).length ≤ BSIZE := by
    rw [length_replicate, BSIZE_eq]
  exact ⟨oneFile_ok hdata (by decide), oneFile_cached _ 0, length_replicate,
    panicOf_eq (by decide +kernel), (oneFile_ok (by decide) (by decide)).of_eq rfl rfl rfl,
    busyLog_ok _ 28, panicOf_eq (by decide +kernel)⟩

/-- There is room to overwrite a block while 27 blocks are in the log. -/
theorem busyLog_room :
    RoomAt (busyLog (oneFile [7] 200) 27) firstEntry (touched 0 2) :=
  ⟨by decide +kernel, busyLog_ok _ 27, by decide, by decide +kernel⟩

/-- Two bytes at the start of a file that has one, with room for two more blocks in the log. -/
theorem file_is_array_overwrite :
    (∃ s', (writei firstEntry (.ofFn fun i => (9 : UInt8) - i.toUInt8) 0 2).run
        (busyLog (oneFile [7] 200) 27) = .ok (2, s') ∧ contents s' 1 = [9, 8]) ∧
    (readi firstEntry .kernel 0 2).run (busyLog (oneFile [7] 200) 27)
      = .ok (([7], 1), busyLog (oneFile [7] 200) 27) := by
  have hcontents : contents (busyLog (oneFile [7] 200) 27)
      ((busyLog (oneFile [7] 200) 27).itable firstEntry).inum = [7] := by
    decide +kernel
  have hfile : FsOk (oneFile [7] 200) := oneFile_ok (by decide) (by decide)
  have hok : FsOk (busyLog (oneFile [7] 200) 27) := hfile.of_eq rfl rfl rfl
  have hc : Cached (busyLog (oneFile [7] 200) 27) firstEntry := oneFile_cached [7] 200
  have heff : eff (busyLog (oneFile [7] 200) 27) = eff (oneFile [7] 200) := eff_of_eq rfl rfl rfl
  have hlive : Live (busyLog (oneFile [7] 200) 27).sb (eff (busyLog (oneFile [7] 200) 27))
      ((busyLog (oneFile [7] 200) 27).itable firstEntry).inum := by
    rw [heff]
    exact oneFile_live (by decide) (by decide)
  have hall : WritesArray (busyLog (oneFile [7] 200) 27) firstEntry
        (.ofFn fun i => (9 : UInt8) - i.toUInt8) (fun i => (9 : UInt8) - i.toUInt8) 0 2 ∧
      ReadsArray (busyLog (oneFile [7] 200) 27) firstEntry .kernel 0 2 :=
    file_is_array hok hc hlive (by decide) (by decide) (fun _ _ => rfl) (fun _ _ _ => rfl)
      fun _ _ => rfl
  obtain ⟨s', hrun, -, hsplice, -⟩ := (hall.1.2 (by decide) (by decide)).1 busyLog_room
  refine ⟨⟨s', hrun, ?_⟩, ?_⟩
  · have hbytes : splice [7] 0 ((List.range 2).map fun i => (9 : UInt8) - i.toUInt8) = [9, 8] := by
      decide
    have hinum : ((busyLog (oneFile [7] 200) 27).itable firstEntry).inum = 1 := rfl
    rw [hcontents, hbytes, hinum] at hsplice
    exact hsplice
  · have hread := hall.2.2 (by decide) (by decide)
    rw [hcontents] at hread
    exact hread

end Xv6.Proofs
