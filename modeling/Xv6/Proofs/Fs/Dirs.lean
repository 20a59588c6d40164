import Xv6.Proofs.Fs.Arrays
import Xv6.Proofs.Fs.Inodes
import Mathlib.Data.List.TakeWhile

/-!
# `Xv6.Proofs.Fs.Dirs`: directories as finite maps

A directory is a file of entries of 16 bytes. A name is what `namecmp` sees of a string: the bytes
before the first 0, and at most `DIRSIZ` of them (`nameOf`). `HasEntry` is the map from names to
inode numbers that the entries make, with the offset of the entry. It is a map if no two entries
that are in use have the same name (`DirWf`).

All that a write of one entry does to this map is `WroteEntry.hasEntry_iff`; the results about
`dirlink` and about clearing an entry follow from it. A lookup needs an entry of the table of inodes
(`CanGet`) and a write needs room (`RoomAt`); without them the kernel panics.
-/

set_option autoImplicit false

namespace Xv6.Proofs

open Lib Fs List
open Function (update_idem update_of_ne update_self)

variable {n off : Nat} {name : List UInt8}

/-! ### Names -/

/-- The name in a buffer or a string. -/
def nameOf (bs : List UInt8) : List UInt8 := (bs.takeWhile (· ≠ 0)).take DIRSIZ

/-- Two names are the same for `strncmp` if they agree up to their first zero or their first `n`
bytes. -/
theorem strncmp_iff (n : Nat) : ∀ p q : List UInt8, strncmp n p q = true ↔
    (p.takeWhile (· ≠ 0)).take n = (q.takeWhile (· ≠ 0)).take n := by
  induction n with
  | zero => simp [strncmp]
  | succ n ih =>
    intro p q
    -- a string that has ended goes on with zeros
    rw [strncmp]
    cases p with
    | nil =>
      cases q with
      | nil => simp
      | cons b q =>
        by_cases hb : b = 0
        · simp [hb]
        · simp [hb, Ne.symm hb]
    | cons a p =>
      cases q with
      | nil =>
        by_cases ha : a = 0
        · simp [ha]
        · simp [ha]
      | cons b q =>
        by_cases ha : a = 0
        · by_cases hb : b = 0
          · simp [ha, hb]
          · simp [ha, hb, Ne.symm hb]
        · by_cases hab : a = b
          · subst hab
            simp [ha, ih p q]
          · by_cases hb : b = 0
            · simp [ha, hb]
            · simp [ha, hb, hab]

theorem namecmp_iff (p q : List UInt8) : namecmp p q = true ↔ nameOf p = nameOf q :=
  strncmp_iff DIRSIZ p q

/-- `strncpy` keeps the name. -/
theorem nameOf_strncpy (t : List UInt8) : nameOf (strncpy DIRSIZ t) = nameOf t := by
  have hall : ∀ b ∈ (t.takeWhile (· ≠ 0)).take DIRSIZ, decide (b ≠ 0) = true := fun b hb =>
    mem_takeWhile_imp (p := fun b => decide (b ≠ 0)) (mem_of_mem_take hb)
  -- the padding ends the name
  have hpad : ∀ m, (List.replicate m (0 : UInt8)).takeWhile (· ≠ 0) = [] := by
    intro m
    cases m with
    | zero => rfl
    | succ m => simp [replicate_succ]
  unfold nameOf strncpy
  dsimp only
  rw [takeWhile_append_of_pos hall, hpad, append_nil, take_take, Nat.min_self]

theorem length_strncpy (t : List UInt8) (n : Nat) : (strncpy n t).length = n := by
  simp [strncpy]

/-! ### Entries -/

theorem DIRENT_SIZE_eq : DIRENT_SIZE = 16 := rfl

/-- What is written is read back. -/
theorem getDirent_bytes {de : Dirent} (hinum : de.inum < 65536) (hname : de.name.length = DIRSIZ) :
    getDirent de.bytes = de := by
  have hlow : (UInt8.ofNat de.inum).toNat = de.inum % 256 := UInt8.toNat_ofNat'
  have hhigh : (UInt8.ofNat (de.inum / 256)).toNat = de.inum / 256 % 256 := UInt8.toNat_ofNat'
  obtain ⟨inum, name⟩ := de
  have hinum' : getLE (fun i => (Dirent.bytes ⟨inum, name⟩).getD i 0) 0 2 = inum := by
    simp only [Dirent.bytes, getLE, cons_append, nil_append, getD_cons_zero,
      getD_cons_succ, hlow, hhigh, Nat.mul_zero, Nat.add_zero, Nat.zero_add]
    dsimp only at hinum
    omega
  rw [getDirent, hinum']
  simp only [Dirent.bytes, cons_append, nil_append, drop_succ_cons, drop_zero]
  rw [take_of_length_le (Nat.le_of_eq hname)]

theorem length_bytes {de : Dirent} (hname : de.name.length = DIRSIZ) :
    de.bytes.length = DIRENT_SIZE := by
  simp [Dirent.bytes, hname, DIRSIZ, DIRENT_SIZE]

theorem getDirent_zero : (getDirent (List.replicate DIRENT_SIZE 0)).inum = 0 := by decide

/-- Entry `k` of a directory. -/
def direntAt (disk : Disk) (d : Dinode) (k : Nat) : Dirent :=
  getDirent (bytesFrom disk d (DIRENT_SIZE * k) DIRENT_SIZE)

/-- Entry `k` is in use and has the name. -/
def Named (disk : Disk) (d : Dinode) (name : List UInt8) (k : Nat) : Prop :=
  (direntAt disk d k).inum ≠ 0 ∧ nameOf (direntAt disk d k).name = nameOf name

instance (disk : Disk) (d : Dinode) (name : List UInt8) (k : Nat) :
    Decidable (Named disk d name k) := inferInstanceAs (Decidable (_ ∧ _))

/-- Directory `i` has the name for inode `n`, in the entry at `off`. -/
def HasEntry (s : Fs) (i : Nat) (name : List UInt8) (n off : Nat) : Prop :=
  ∃ k, off = DIRENT_SIZE * k ∧ off < (eff s i).size ∧ Named s.disk (eff s i) name k ∧
    n = (direntAt s.disk (eff s i) k).inum

/-- The size is a number of entries, and the names are pairwise different. -/
structure DirWf (s : Fs) (i : Nat) : Prop where
  size : (eff s i).size % DIRENT_SIZE = 0
  names : ∀ name n off n' off', HasEntry s i name n off → HasEntry s i name n' off' → off = off'

/-- A name is for one inode. -/
theorem DirWf.inum_eq {s : Fs} {i n' off' : Nat} (h : DirWf s i) (he : HasEntry s i name n off)
    (he' : HasEntry s i name n' off') : n = n' := by
  have hoff := h.names _ _ _ _ _ he he'
  obtain ⟨k, hk, -, -, rfl⟩ := he
  obtain ⟨k', hk', -, -, rfl⟩ := he'
  obtain rfl : k = k' := by
    rw [hk, hk', DIRENT_SIZE_eq] at hoff
    omega
  rfl

/-- The offset of the first entry that is not in use, or the end of the directory. -/
def emptyOff (disk : Disk) (d : Dinode) : Nat :=
  DIRENT_SIZE * ((List.range (d.size / DIRENT_SIZE)).find? fun k =>
    (direntAt disk d k).inum = 0).getD (d.size / DIRENT_SIZE)

/-! ### Reading the entries -/

variable {s : Fs} {dp : InodeId}

/-- An entry that has been read from disk and is a directory. -/
structure OpenDir (s : Fs) (dp : InodeId) : Prop where
  ok : FsOk s
  cached : Cached s dp
  type : (s.itable dp).type = T_DIR
  size : (s.itable dp).size % DIRENT_SIZE = 0

theorem OpenDir.live (h : OpenDir s dp) : Live s.sb (eff s) (s.itable dp).inum := by
  obtain ⟨hpos, hlt⟩ := h.ok.table.inum dp h.cached.1
  refine ⟨hpos, hlt, ?_⟩
  rw [eff_cached h.ok.table h.cached, h.type]
  decide

/-- `readi` delivers one entry of a directory. -/
theorem readi_dirent (h : OpenDir s dp) {k : Nat} (hk : DIRENT_SIZE * k < (s.itable dp).size) :
    (readi dp .kernel (DIRENT_SIZE * k) DIRENT_SIZE).run s
      = .ok ((bytesFrom s.disk (s.itable dp).toDinode (DIRENT_SIZE * k) DIRENT_SIZE,
          (DIRENT_SIZE : Int)), s) := by
  have hsize := h.size
  have hmax := h.ok.alloc.size_le _ h.live
  have hlt : MAXFILE * BSIZE + DIRENT_SIZE < 2 ^ 32 := by decide
  have hfull := h.ok.alloc.full _ h.live
  rw [eff_cached h.ok.table h.cached] at hfull hmax
  obtain ⟨r, s', hrun, rfl, -, hr⟩ := wp_returns
    (@readi_spec s dp .kernel hfull (DIRENT_SIZE * k) DIRENT_SIZE (by omega) (by decide))
  have hwhole : min DIRENT_SIZE ((s'.itable dp).size - DIRENT_SIZE * k) = DIRENT_SIZE := by
    rw [DIRENT_SIZE_eq] at *
    omega
  rw [hrun, hr (by omega) (by omega) fun _ _ => rfl, hwhole]

/-- `dirlookup` finds the first entry with the name, or there is none. -/
def LookedUp (s : Fs) (dp : InodeId) (name : List UInt8) (r : Option (InodeId × Nat)) (s' : Fs) :
    Prop :=
  (r = none ∧ s' = s ∧ ∀ k, DIRENT_SIZE * k < (s.itable dp).size →
    ¬ Named s.disk (s.itable dp).toDinode name k) ∨
  ∃ k ip i, r = some (ip, DIRENT_SIZE * k) ∧ DIRENT_SIZE * k < (s.itable dp).size ∧
    Named s.disk (s.itable dp).toDinode name k ∧ TableOnly s s' ∧
    Igot s (direntAt s.disk (s.itable dp).toDinode k).inum ip i ∧
    s'.itable = Function.update s.itable ip i

/-- `dirlookup` fails if the table of inodes is full. -/
def LookupErr (s : Fs) (dp : InodeId) (name : List UInt8) (e : FsPanic) : Prop :=
  e = .iget ∧ ∃ k, DIRENT_SIZE * k < (s.itable dp).size ∧
    Named s.disk (s.itable dp).toDinode name k ∧
    ¬ CanGet s (direntAt s.disk (s.itable dp).toDinode k).inum

/-- The loop of `dirlookup`, from entry `k` on, if the name is in none of the entries before it. -/
theorem dirlookupLoop_spec (h : OpenDir s dp) (name : List UInt8) : ∀ rounds k,
    (s.itable dp).size < DIRENT_SIZE * (k + rounds) →
    (∀ j, j < k → ¬ Named s.disk (s.itable dp).toDinode name j) →
    wp (dirlookupLoop dp name rounds (DIRENT_SIZE * k)) (LookedUp s dp name)
      (LookupErr s dp name) s := by
  intro rounds
  -- the entries before the offset do not have the name
  have hdone : ∀ k, (∀ j, j < k → ¬ Named s.disk (s.itable dp).toDinode name j) →
      (s.itable dp).size ≤ DIRENT_SIZE * k → LookedUp s dp name none s := by
    intro k hbefore hend
    refine .inl ⟨rfl, rfl, fun j hj => hbefore j ?_⟩
    rw [DIRENT_SIZE_eq] at *
    omega
  induction rounds with
  | zero =>
    intro k hrounds hbefore
    exact hdone k hbefore (Nat.le_of_lt hrounds)
  | succ rounds ih =>
    intro k hrounds hbefore
    rw [dirlookupLoop, wp_bind, wp_get]
    refine wp_ite (fun hlt => ?_) fun hge => ?_
    swap
    · exact hdone k hbefore (Nat.le_of_not_lt hge)
    rw [wp_bind]
    refine wp_of_ok (readi_dirent h hlt) ?_
    dsimp only
    refine wp_ite (fun hne => absurd rfl hne) fun _ => ?_
    have hnext : DIRENT_SIZE * k + DIRENT_SIZE = DIRENT_SIZE * (k + 1) := rfl
    have hstep : ¬ Named s.disk (s.itable dp).toDinode name k →
        wp (dirlookupLoop dp name rounds (DIRENT_SIZE * k + DIRENT_SIZE)) (LookedUp s dp name)
          (LookupErr s dp name) s := by
      intro hno
      rw [hnext]
      refine ih (k + 1) (by rwa [Nat.add_assoc, Nat.add_comm 1]) fun j hj => ?_
      rcases Nat.lt_succ_iff_lt_or_eq.mp hj with hj | rfl
      · exact hbefore j hj
      · exact hno
    refine wp_ite (fun hzero => hstep fun hnamed => hnamed.1 hzero) fun hinum => ?_
    refine wp_ite (fun hcmp => ?_) fun hcmp => hstep fun hnamed => ?_
    · have hnamed : Named s.disk (s.itable dp).toDinode name k :=
        ⟨hinum, ((namecmp_iff _ _).mp hcmp).symm⟩
      rw [wp_bind]
      refine wp_mono (iget_run _ s) ?_ fun e he => ⟨he.1, k, hlt, hnamed, he.2⟩
      rintro ip s' ⟨hs, i, hgot, htable⟩
      exact .inr ⟨k, ip, i, rfl, hlt, hnamed, hs, hgot, htable⟩
    · exact hcmp ((namecmp_iff _ _).mpr hnamed.2.symm)

/-- `dirlookup` goes over the entries in order, and panics only in `iget`. -/
theorem dirlookup_spec (h : OpenDir s dp) (name : List UInt8) :
    wp (dirlookup dp name) (LookedUp s dp name) (LookupErr s dp name) s := by
  unfold dirlookup
  rw [wp_bind, wp_get]
  refine wp_ite (fun hne => absurd h.type hne) fun _ => ?_
  refine dirlookupLoop_spec h name _ 0 ?_ fun j hj => absurd hj (Nat.not_lt_zero j)
  unfold direntRounds
  rw [DIRENT_SIZE_eq]
  omega

/-- The loop of `dirlink` finds the first empty entry, or the end of the directory. -/
theorem emptyLoop_spec (h : OpenDir s dp) : ∀ rounds k,
    (s.itable dp).size < DIRENT_SIZE * (k + rounds) →
    (∀ j, j < k → (direntAt s.disk (s.itable dp).toDinode j).inum ≠ 0) →
    DIRENT_SIZE * k ≤ (s.itable dp).size →
    (emptyLoop dp rounds (DIRENT_SIZE * k)).run s
      = .ok (emptyOff s.disk (s.itable dp).toDinode, s) := by
  intro rounds
  have hsize := h.size
  induction rounds with
  | zero =>
    intro k hrounds hbefore hle
    rw [DIRENT_SIZE_eq] at *
    omega
  | succ rounds ih =>
    intro k hrounds hbefore hle
    have hspec : wp (emptyLoop dp (rounds + 1) (DIRENT_SIZE * k))
        (fun off s' => off = emptyOff s.disk (s.itable dp).toDinode ∧ s' = s)
        (fun _ => False) s := by
      rw [emptyLoop, wp_bind, wp_get]
      refine wp_ite (fun hlt => ?_) fun hge => ?_
      · rw [wp_bind]
        refine wp_of_ok (readi_dirent h hlt) ?_
        dsimp only
        refine wp_ite (fun hne => absurd rfl hne) fun _ => ?_
        refine wp_ite (fun hzero => ?_) fun hne => ?_
        · -- the first entry that is not in use
          rw [wp_pure, emptyOff, find?_range_eq_some.mpr ⟨?_, ?_, ?_⟩]
          · exact ⟨rfl, rfl⟩
          · simpa using (show (direntAt s.disk (s.itable dp).toDinode k).inum = 0 from hzero)
          · rw [mem_range]
            rw [DIRENT_SIZE_eq] at *
            omega
          · intro j hj
            simpa using hbefore j hj
        · have hnext : DIRENT_SIZE * k + DIRENT_SIZE = DIRENT_SIZE * (k + 1) := rfl
          rw [hnext]
          refine wp_of_ok (ih (k + 1) (by rwa [Nat.add_assoc, Nat.add_comm 1]) (fun j hj => ?_) ?_)
            ⟨rfl, rfl⟩
          · rcases Nat.lt_succ_iff_lt_or_eq.mp hj with hj | rfl
            · exact hbefore j hj
            · exact hne
          · rw [DIRENT_SIZE_eq] at *
            omega
      · -- all are in use
        have hend : k = (s.itable dp).size / DIRENT_SIZE := by
          rw [DIRENT_SIZE_eq] at *
          omega
        rw [wp_pure, emptyOff, find?_eq_none.mpr, Option.getD_none, ← hend]
        · exact ⟨rfl, rfl⟩
        · intro j hj
          have hj : j < k := hend ▸ mem_range.mp hj
          simpa using hbefore j hj
    obtain ⟨off, s', hrun, rfl, rfl⟩ := wp_returns hspec
    exact hrun

/-! ### Writing an entry -/

/-- Entry `j` of the directory is written. -/
structure WroteEntry (s s' : Fs) (dp : InodeId) (j : Nat) (de : Dirent) : Prop where
  ok : FsOk s'
  cached : Cached s' dp
  inum : (s'.itable dp).inum = (s.itable dp).inum
  type : (s'.itable dp).type = (s.itable dp).type
  size : (s'.itable dp).size = max (s.itable dp).size (DIRENT_SIZE * j + DIRENT_SIZE)
  self : direntAt s'.disk (s'.itable dp).toDinode j = de
  other : ∀ k, k ≠ j → DIRENT_SIZE * k < (s.itable dp).size →
    direntAt s'.disk (s'.itable dp).toDinode k = direntAt s.disk (s.itable dp).toDinode k

/-- All bytes of an entry can be copied, so a write of one returns only if there is room for it. -/
theorem writei_dirent (h : OpenDir s dp) {j : Nat} {bs : List UInt8}
    (hlen : bs.length = DIRENT_SIZE) (hj : DIRENT_SIZE * j ≤ (s.itable dp).size)
    (hmax : DIRENT_SIZE * j + DIRENT_SIZE ≤ MAXFILE * BSIZE) :
    wp (writei dp (.kernel bs) (DIRENT_SIZE * j) DIRENT_SIZE)
      (fun r s' => r = DIRENT_SIZE ∧ WroteEntry s s' dp j (getDirent bs) ∧
        (HeaderOk s.log → RoomAt s dp (touched (DIRENT_SIZE * j) DIRENT_SIZE)))
      (IoErr (RoomAt s dp (touched (DIRENT_SIZE * j) DIRENT_SIZE))) s := by
  refine wp_post (writei_spec h.ok h.cached h.live hj hmax) ?_
  rintro r s' ⟨tot, ws, rfl, hwrote⟩
  -- a kernel buffer can always be copied
  have hsrc : ∀ a m, ((Source.kernel bs).copy a m).2 = true := fun _ _ => rfl
  have hdel : Delivers (.kernel bs) fun i => bs.getD i 0 := fun _ _ _ => rfl
  obtain rfl : tot = DIRENT_SIZE := by
    by_contra hne
    have hfail := (hwrote.failed (Nat.lt_of_le_of_ne hwrote.le hne)).1
    rw [hsrc] at hfail
    exact Bool.noConfusion hfail
  have hleft : leftBy (.kernel bs) (DIRENT_SIZE * j + DIRENT_SIZE) DIRENT_SIZE DIRENT_SIZE = [] :=
    if_neg (Nat.lt_irrefl _)
  have hbytes := hwrote.bytes
  rw [hleft, length_nil, Nat.add_zero] at hbytes
  obtain ⟨as, hentry⟩ := hwrote.entry
  refine ⟨rfl, ⟨hwrote.ok, hwrote.cached h.cached, hwrote.inum, ?_, hwrote.size, ?_,
    fun k hk hlt => ?_⟩, hwrote.room rfl⟩
  · rw [hentry]
    rfl
  · have hnew : bytesFrom s'.disk (s'.itable dp).toDinode (DIRENT_SIZE * j) DIRENT_SIZE = bs := by
      refine ext_getElem (by rw [length_bytesFrom, hlen]) fun i hi hi' => ?_
      have hbyte := hwrote.new _ hdel (DIRENT_SIZE * j + i) (Nat.le_add_right _ _) (by omega)
      rw [Nat.add_sub_cancel_left, getD_eq_getElem?_getD, getElem?_eq_getElem hi',
        Option.getD_some] at hbyte
      simpa [bytesFrom] using hbyte
    rw [direntAt, hnew]
  · have hsize := h.size
    unfold direntAt
    rw [bytesFrom_congr fun x hx hx' => hbytes x ?_ ?_]
    · rw [DIRENT_SIZE_eq] at *
      omega
    · rw [DIRENT_SIZE_eq] at *
      omega

section

variable {s' : Fs} {j : Nat} {de : Dirent}

theorem WroteEntry.openDir (h : WroteEntry s s' dp j de) (hd : OpenDir s dp) : OpenDir s' dp := by
  refine ⟨h.ok, h.cached, h.type.trans hd.type, ?_⟩
  have hsize := hd.size
  rw [h.size]
  rw [DIRENT_SIZE_eq] at *
  omega

/-- The map after a write: the old entries in other places, and the new one. -/
theorem WroteEntry.hasEntry_iff (h : WroteEntry s s' dp j de) (hd : OpenDir s dp)
    (hj : DIRENT_SIZE * j ≤ (s.itable dp).size) :
    HasEntry s' (s.itable dp).inum name n off ↔
      (off ≠ DIRENT_SIZE * j ∧ HasEntry s (s.itable dp).inum name n off) ∨
      (off = DIRENT_SIZE * j ∧ n = de.inum ∧ n ≠ 0 ∧ nameOf de.name = nameOf name) := by
  have heff := eff_cached hd.ok.table hd.cached
  have heff' := eff_cached h.ok.table h.cached
  rw [h.inum] at heff'
  have hsize := hd.size
  unfold HasEntry
  rw [heff, heff', h.size]
  constructor
  · rintro ⟨k, rfl, hlt, hnamed, rfl⟩
    by_cases hk : k = j
    · subst hk
      unfold Named at hnamed
      rw [h.self] at hnamed ⊢
      exact .inr ⟨rfl, rfl, hnamed.1, hnamed.2⟩
    · have hlt' : DIRENT_SIZE * k < (s.itable dp).size := by
        rw [DIRENT_SIZE_eq] at *
        omega
      unfold Named at hnamed
      rw [h.other k hk hlt'] at hnamed ⊢
      refine .inl ⟨fun heq => hk ?_, k, rfl, hlt', hnamed, rfl⟩
      rw [DIRENT_SIZE_eq] at heq
      omega
  · rintro (⟨hne, k, rfl, hlt, hnamed, rfl⟩ | ⟨rfl, rfl, hne, hname⟩)
    · have hk : k ≠ j := fun heq => hne (by rw [heq])
      refine ⟨k, rfl, by omega, ?_, by rw [h.other k hk hlt]⟩
      unfold Named
      rw [h.other k hk hlt]
      exact hnamed
    · refine ⟨j, rfl, by rw [DIRENT_SIZE_eq]; omega, ?_, by rw [h.self]⟩
      unfold Named
      rw [h.self]
      exact ⟨hne, hname⟩

end

/-! ### The map -/

/-- Nothing has changed but entries of the table that are free. -/
structure Unchanged (s s' : Fs) : Prop extends TableOnly s s' where
  itable : ∀ ip, s'.itable ip = s.itable ip ∨ (s.itable ip).ref = 0 ∧ (s'.itable ip).ref = 0

/-- The names and numbers of a directory are a map, and the operations on it are those of a map:
`dirlookup` reads it, `dirlink` adds a name that is not there, and a write of zeros to an entry
removes its name. Each of them panics exactly if what it needs is not there: an entry of the table
for the inode that is found, or room for the write. -/
structure DirIsMap (s : Fs) (dp : InodeId) : Prop where
  absent : ∀ name, (∀ n off, ¬ HasEntry s (s.itable dp).inum name n off) →
    (dirlookup dp name).run s = .ok (none, s)
  present : ∀ name n off, HasEntry s (s.itable dp).inum name n off → CanGet s n →
    ∃ ip s', (dirlookup dp name).run s = .ok (some (ip, off), s') ∧ TableOnly s s' ∧
      (s'.itable ip).inum = n
  linkPresent : ∀ name inum n off, HasEntry s (s.itable dp).inum name n off → CanGet s n →
    ∃ s', (dirlink dp name inum).run s = .ok (-1, s') ∧ Unchanged s s'
  full : ∀ name inum n off, HasEntry s (s.itable dp).inum name n off → ¬ CanGet s n →
    (dirlookup dp name).run s = .error .iget ∧ (dirlink dp name inum).run s = .error .iget
  linkAbsent : ∀ name inum, (∀ n off, ¬ HasEntry s (s.itable dp).inum name n off) → 1 ≤ inum →
    inum ≤ 65535 →
    emptyOff s.disk (s.itable dp).toDinode + DIRENT_SIZE ≤ MAXFILE * BSIZE →
    (RoomAt s dp (touched (emptyOff s.disk (s.itable dp).toDinode) DIRENT_SIZE) →
      ∃ s', (dirlink dp name inum).run s = .ok (0, s') ∧ DirWf s' (s.itable dp).inum ∧
        (∃ off, HasEntry s' (s.itable dp).inum name inum off) ∧
        ∀ name' n off, nameOf name' ≠ nameOf name →
          (HasEntry s' (s.itable dp).inum name' n off
            ↔ HasEntry s (s.itable dp).inum name' n off)) ∧
    (HeaderOk s.log →
      ¬ RoomAt s dp (touched (emptyOff s.disk (s.itable dp).toDinode) DIRENT_SIZE) →
      ∃ e, (dirlink dp name inum).run s = .error e)
  clear : ∀ name n off, HasEntry s (s.itable dp).inum name n off →
    (RoomAt s dp (touched off DIRENT_SIZE) →
      ∃ s', (writei dp (.kernel (List.replicate DIRENT_SIZE 0)) off DIRENT_SIZE).run s
          = .ok ((DIRENT_SIZE : Int), s') ∧ DirWf s' (s.itable dp).inum ∧
        (∀ n off, ¬ HasEntry s' (s.itable dp).inum name n off) ∧
        ∀ name' n off, nameOf name' ≠ nameOf name →
          (HasEntry s' (s.itable dp).inum name' n off
            ↔ HasEntry s (s.itable dp).inum name' n off)) ∧
    (HeaderOk s.log → ¬ RoomAt s dp (touched off DIRENT_SIZE) →
      ∃ e, (writei dp (.kernel (List.replicate DIRENT_SIZE 0)) off DIRENT_SIZE).run s = .error e)

/-- The map of an open directory, read from its entry of the table. -/
theorem OpenDir.hasEntry_iff (h : OpenDir s dp) :
    HasEntry s (s.itable dp).inum name n off ↔ ∃ k, off = DIRENT_SIZE * k ∧
      off < (s.itable dp).size ∧ Named s.disk (s.itable dp).toDinode name k ∧
      n = (direntAt s.disk (s.itable dp).toDinode k).inum := by
  unfold HasEntry
  rw [eff_cached h.ok.table h.cached]

/-- A name that is not there is not found. -/
theorem dirlookup_absent (h : OpenDir s dp)
    (hnone : ∀ n off, ¬ HasEntry s (s.itable dp).inum name n off) :
    (dirlookup dp name).run s = .ok (none, s) := by
  have hno : ∀ k, DIRENT_SIZE * k < (s.itable dp).size →
      ¬ Named s.disk (s.itable dp).toDinode name k := fun k hlt hnamed =>
    hnone _ _ (h.hasEntry_iff.mpr ⟨k, rfl, hlt, hnamed, rfl⟩)
  have hspec := wp_mono (dirlookup_spec h name) (fun _ _ hr => hr)
    fun e (he : LookupErr s dp name e) => he.2.elim fun k hk => hno k hk.1 hk.2.1
  obtain ⟨r, s', hrun, ⟨rfl, rfl, -⟩ | ⟨k, ip, i, -, hlt, hnamed, -⟩⟩ := wp_returns hspec
  · exact hrun
  · exact absurd hnamed (hno k hlt)

/-- The entry with a name is the only one. -/
theorem OpenDir.named_unique (h : OpenDir s dp) (hwf : DirWf s (s.itable dp).inum)
    (hentry : HasEntry s (s.itable dp).inum name n off) {k : Nat}
    (hlt : DIRENT_SIZE * k < (s.itable dp).size)
    (hnamed : Named s.disk (s.itable dp).toDinode name k) :
    off = DIRENT_SIZE * k ∧ n = (direntAt s.disk (s.itable dp).toDinode k).inum := by
  have hoff := hwf.names _ _ _ _ _ hentry (h.hasEntry_iff.mpr ⟨k, rfl, hlt, hnamed, rfl⟩)
  obtain ⟨k', hk', -, -, hn⟩ := h.hasEntry_iff.mp hentry
  obtain rfl : k' = k := by
    rw [DIRENT_SIZE_eq] at *
    omega
  exact ⟨hoff, hn⟩

/-- `dirlookup` of a name that is there takes a reference to its inode, if it can. -/
theorem dirlookup_named (h : OpenDir s dp) (hwf : DirWf s (s.itable dp).inum)
    (hentry : HasEntry s (s.itable dp).inum name n off) :
    wp (dirlookup dp name) (fun r s' => ∃ ip i, r = some (ip, off) ∧ TableOnly s s' ∧
        Igot s n ip i ∧ s'.itable = Function.update s.itable ip i)
      (fun e => e = .iget ∧ ¬ CanGet s n) s := by
  refine wp_mono (dirlookup_spec h name) ?_ ?_
  · rintro r s' (⟨-, -, hno⟩ | ⟨k, ip, i, rfl, hlt, hnamed, hs, hgot, htable⟩)
    · obtain ⟨k, rfl, hlt, hnamed, -⟩ := h.hasEntry_iff.mp hentry
      exact absurd hnamed (hno k hlt)
    · obtain ⟨rfl, rfl⟩ := h.named_unique hwf hentry hlt hnamed
      exact ⟨ip, i, rfl, hs, hgot, htable⟩
  · rintro e ⟨rfl, k, hlt, hnamed, hfull⟩
    obtain ⟨-, rfl⟩ := h.named_unique hwf hentry hlt hnamed
    exact ⟨rfl, hfull⟩

/-- A name that is there is found, and its inode gets a reference. -/
theorem dirlookup_present (h : OpenDir s dp) (hwf : DirWf s (s.itable dp).inum)
    (hentry : HasEntry s (s.itable dp).inum name n off) (hcan : CanGet s n) :
    ∃ ip i s', (dirlookup dp name).run s = .ok (some (ip, off), s') ∧ TableOnly s s' ∧
      Igot s n ip i ∧ s'.itable = Function.update s.itable ip i := by
  have hspec := wp_mono (dirlookup_named h hwf hentry) (fun _ _ hr => hr) fun e he => he.2 hcan
  obtain ⟨r, s', hrun, ip, i, rfl, hgot⟩ := wp_returns hspec
  exact ⟨ip, i, s', hrun, hgot⟩

/-- A name that is there cannot be looked up when the table has no entry left. -/
theorem dirlookup_full (h : OpenDir s dp) (hwf : DirWf s (s.itable dp).inum)
    (hentry : HasEntry s (s.itable dp).inum name n off) (hfull : ¬ CanGet s n) :
    (dirlookup dp name).run s = .error .iget := by
  cases hrun : (dirlookup dp name).run s with
  | error e => rw [(wp_error (dirlookup_named h hwf hentry) hrun).1]
  | ok r =>
    obtain ⟨ip, i, -, -, hgot, -⟩ := wp_ok (dirlookup_named h hwf hentry) hrun
    exact absurd hgot.canGet hfull

/-- A reference that has just been taken is given back, and the inode is not freed. -/
theorem iput_after_iget {s₁ : Fs} {ip : InodeId} {i : Inode} (hgot : Igot s n ip i)
    (hs : TableOnly s s₁) (htable : s₁.itable = Function.update s.itable ip i) :
    wp (iput ip) (fun _ s' => Unchanged s s') (fun _ => False) s₁ := by
  have hself : s₁.itable ip = i := by rw [htable, update_self]
  unfold iput
  rw [wp_bind, wp_get]
  rw [hself]
  refine wp_ite (fun hfree => ?_) fun _ => wp_modifyTable fun s' hs' htable' => ?_
  · -- it has another reference, or it has not been read
    cases hgot with
    | found href _ =>
      have hone : (s.itable ip).ref + 1 = 1 := hfree.1
      omega
    | filled _ _ => exact absurd hfree.2.1 Bool.false_ne_true
  · rw [hself, htable, update_idem] at htable'
    refine ⟨hs.trans hs', fun jp => ?_⟩
    rw [htable']
    by_cases hjp : jp = ip
    · subst hjp
      rw [update_self]
      cases hgot with
      | found _ _ => exact .inl rfl
      | filled _ hfree => exact .inr ⟨hfree, rfl⟩
    · rw [update_of_ne hjp]
      exact .inl rfl

/-- The entry that `dirlink` fills is empty, or it is behind the last one. -/
theorem emptyOff_cases (disk : Disk) {d : Dinode} (hsize : d.size % DIRENT_SIZE = 0) :
    ∃ j, emptyOff disk d = DIRENT_SIZE * j ∧ DIRENT_SIZE * j ≤ d.size ∧
      (DIRENT_SIZE * j < d.size → (direntAt disk d j).inum = 0) := by
  unfold emptyOff
  cases hfind : (List.range (d.size / DIRENT_SIZE)).find? fun k => (direntAt disk d k).inum = 0 with
  | none =>
    refine ⟨_, rfl, ?_, fun hlt => ?_⟩
    · exact Nat.mul_div_le _ _
    · simp only [Option.getD_none] at hlt
      rw [DIRENT_SIZE_eq] at *
      omega
  | some j =>
    have hj := mem_range.mp (mem_of_find?_eq_some hfind)
    refine ⟨j, rfl, ?_, fun _ => by simpa using find?_some hfind⟩
    rw [DIRENT_SIZE_eq] at *
    omega

/-- A name that is there is not added again, and nothing changes. -/
theorem dirlink_present (h : OpenDir s dp) (hwf : DirWf s (s.itable dp).inum) {inum : Nat}
    (hentry : HasEntry s (s.itable dp).inum name n off) (hcan : CanGet s n) :
    ∃ s', (dirlink dp name inum).run s = .ok (-1, s') ∧ Unchanged s s' := by
  obtain ⟨ip, i, s₁, hrun, hs, hgot, htable⟩ := dirlookup_present h hwf hentry hcan
  have hspec : wp (dirlink dp name inum) (fun r s' => r = -1 ∧ Unchanged s s') (fun _ => False)
      s := by
    unfold dirlink
    rw [wp_bind]
    refine wp_of_ok hrun ?_
    dsimp only
    rw [wp_bind]
    exact wp_post (iput_after_iget hgot hs htable) fun _ s' hs' => ⟨rfl, hs'⟩
  obtain ⟨r, s', hrun', rfl, hs'⟩ := wp_returns hspec
  exact ⟨s', hrun', hs'⟩

/-- `dirlink` of a name that is not there writes an entry that is not in use. -/
theorem dirlink_absent (h : OpenDir s dp) {inum : Nat}
    (hnone : ∀ n off, ¬ HasEntry s (s.itable dp).inum name n off) (hinum : inum ≤ 65535)
    (hmax : emptyOff s.disk (s.itable dp).toDinode + DIRENT_SIZE ≤ MAXFILE * BSIZE) :
    wp (dirlink dp name inum)
      (fun r s' => r = 0 ∧ ∃ j, DIRENT_SIZE * j ≤ (s.itable dp).size ∧
        (DIRENT_SIZE * j < (s.itable dp).size →
          (direntAt s.disk (s.itable dp).toDinode j).inum = 0) ∧
        WroteEntry s s' dp j { inum := inum, name := strncpy DIRSIZ name } ∧
        (HeaderOk s.log →
          RoomAt s dp (touched (emptyOff s.disk (s.itable dp).toDinode) DIRENT_SIZE)))
      (IoErr (RoomAt s dp (touched (emptyOff s.disk (s.itable dp).toDinode) DIRENT_SIZE))) s := by
  obtain ⟨j, hj, hle, hempty⟩ := emptyOff_cases s.disk h.size
  unfold dirlink
  rw [wp_bind]
  refine wp_of_ok (dirlookup_absent h hnone) ?_
  dsimp only
  rw [wp_bind, wp_get, wp_bind]
  refine wp_of_ok (emptyLoop_spec h _ 0 ?_ (fun j hj => absurd hj (Nat.not_lt_zero j))
    (Nat.zero_le _)) ?_
  · unfold direntRounds
    rw [DIRENT_SIZE_eq]
    omega
  have hname : (strncpy DIRSIZ name).length = DIRSIZ := length_strncpy name DIRSIZ
  have hde : getDirent (Dirent.bytes { inum := inum, name := strncpy DIRSIZ name })
      = { inum := inum, name := strncpy DIRSIZ name } :=
    getDirent_bytes (Nat.lt_succ_of_le hinum) hname
  rw [hj] at hmax ⊢
  rw [wp_bind]
  refine wp_mono (writei_dirent h (length_bytes hname) hle hmax) ?_ fun _ he => he
  rintro r s' ⟨rfl, hwrote, hroom⟩
  rw [hde] at hwrote
  refine wp_ite (fun hne => absurd rfl hne) fun _ => ?_
  exact ⟨rfl, j, hle, hempty, hwrote, hroom⟩

section

variable {s' : Fs} {j : Nat} {de : Dirent}

/-- A write that leaves every name with at most one place keeps the directory well formed. -/
theorem WroteEntry.wf (h : WroteEntry s s' dp j de) (hd : OpenDir s dp)
    (hwf : DirWf s (s.itable dp).inum) (hj : DIRENT_SIZE * j ≤ (s.itable dp).size)
    (hnew : ∀ n off, de.inum ≠ 0 → HasEntry s (s.itable dp).inum de.name n off →
      off = DIRENT_SIZE * j) : DirWf s' (s.itable dp).inum := by
  have heff' := eff_cached h.ok.table h.cached
  rw [h.inum] at heff'
  refine ⟨heff' ▸ (h.openDir hd).size, fun name n off n' off' he he' => ?_⟩
  have hrename : ∀ n off, nameOf de.name = nameOf name → HasEntry s (s.itable dp).inum name n off →
      HasEntry s (s.itable dp).inum de.name n off := by
    rintro n off heq ⟨k, hk, hlt, ⟨hinum, hname⟩, hn⟩
    exact ⟨k, hk, hlt, ⟨hinum, hname.trans heq.symm⟩, hn⟩
  rcases (h.hasEntry_iff hd hj).mp he with ⟨hne, he⟩ | ⟨hoff, hn, hpos, heq⟩
  · rcases (h.hasEntry_iff hd hj).mp he' with ⟨-, he'⟩ | ⟨hoff', hn', hpos', heq'⟩
    · exact hwf.names _ _ _ _ _ he he'
    · exact absurd (hnew _ _ (hn' ▸ hpos') (hrename _ _ heq' he)) hne
  · rcases (h.hasEntry_iff hd hj).mp he' with ⟨hne', he'⟩ | ⟨hoff', -⟩
    · exact absurd (hnew _ _ (hn ▸ hpos) (hrename _ _ heq he')) hne'
    · rw [hoff, hoff']

end

/-- The entry at the offset of a name has that name only. -/
theorem nameOf_eq_of_hasEntry {i : Nat} {name' : List UInt8} {n' : Nat}
    (h : HasEntry s i name n off) (h' : HasEntry s i name' n' off) :
    nameOf name' = nameOf name := by
  obtain ⟨k, hk, -, ⟨-, hname⟩, -⟩ := h
  obtain ⟨k', hk', -, ⟨-, hname'⟩, -⟩ := h'
  obtain rfl : k = k' := by
    rw [DIRENT_SIZE_eq] at *
    omega
  rw [← hname, ← hname']

/-- The map after `dirlink` has used an entry that held no name. -/
theorem WroteEntry.linked {s' : Fs} {j inum : Nat}
    (hwrote : WroteEntry s s' dp j { inum := inum, name := strncpy DIRSIZ name })
    (h : OpenDir s dp) (hwf : DirWf s (s.itable dp).inum)
    (hnone : ∀ n off, ¬ HasEntry s (s.itable dp).inum name n off) (hpos : 1 ≤ inum)
    (hj : DIRENT_SIZE * j ≤ (s.itable dp).size)
    (hempty : DIRENT_SIZE * j < (s.itable dp).size →
      (direntAt s.disk (s.itable dp).toDinode j).inum = 0) :
    DirWf s' (s.itable dp).inum ∧ (∃ off, HasEntry s' (s.itable dp).inum name inum off) ∧
      ∀ name' n off, nameOf name' ≠ nameOf name →
        (HasEntry s' (s.itable dp).inum name' n off
          ↔ HasEntry s (s.itable dp).inum name' n off) := by
  -- the place that is written held no name
  have hunused : ∀ name' n off, HasEntry s (s.itable dp).inum name' n off →
      off ≠ DIRENT_SIZE * j := by
    rintro name' n off hentry rfl
    obtain ⟨k, hk, hlt, hnamed, -⟩ := h.hasEntry_iff.mp hentry
    obtain rfl : j = k := by
      rw [DIRENT_SIZE_eq] at *
      omega
    exact hnamed.1 (hempty hlt)
  refine ⟨hwrote.wf h hwf hj fun n off _ hentry => ?_, ⟨DIRENT_SIZE * j,
    (hwrote.hasEntry_iff h hj).mpr (.inr
      ⟨rfl, rfl, Nat.pos_iff_ne_zero.mp hpos, nameOf_strncpy name⟩)⟩, fun name' n off hne => ?_⟩
  · obtain ⟨k, hk, hlt, ⟨hinum, hname⟩, hn⟩ := hentry
    exact absurd ⟨k, hk, hlt, ⟨hinum, hname.trans (nameOf_strncpy name)⟩, hn⟩ (hnone n off)
  · rw [hwrote.hasEntry_iff h hj]
    constructor
    · rintro (⟨-, hentry⟩ | ⟨-, -, -, heq⟩)
      · exact hentry
      · exact absurd (heq.symm.trans (nameOf_strncpy name)) hne
    · exact fun hentry => .inl ⟨hunused _ _ _ hentry, hentry⟩

/-- The map after the entry of a name has been cleared. -/
theorem WroteEntry.cleared {s' : Fs} {k : Nat}
    (hwrote : WroteEntry s s' dp k (getDirent (List.replicate DIRENT_SIZE 0)))
    (h : OpenDir s dp) (hwf : DirWf s (s.itable dp).inum)
    (hentry : HasEntry s (s.itable dp).inum name n (DIRENT_SIZE * k))
    (hk : DIRENT_SIZE * k ≤ (s.itable dp).size) :
    DirWf s' (s.itable dp).inum ∧ (∀ n off, ¬ HasEntry s' (s.itable dp).inum name n off) ∧
      ∀ name' n off, nameOf name' ≠ nameOf name →
        (HasEntry s' (s.itable dp).inum name' n off
          ↔ HasEntry s (s.itable dp).inum name' n off) := by
  have hmap : ∀ name' n' off', HasEntry s' (s.itable dp).inum name' n' off' ↔
      off' ≠ DIRENT_SIZE * k ∧ HasEntry s (s.itable dp).inum name' n' off' := by
    intro name' n' off'
    rw [hwrote.hasEntry_iff h hk]
    refine or_iff_left ?_
    rintro ⟨-, rfl, hne, -⟩
    exact hne getDirent_zero
  refine ⟨hwrote.wf h hwf hk fun n' off' hne _ => absurd getDirent_zero hne,
    fun n' off' he => ?_, fun name' n' off' hne => ?_⟩
  · obtain ⟨hoff, he⟩ := (hmap _ _ _).mp he
    exact hoff (hwf.names _ _ _ _ _ he hentry)
  · rw [hmap, and_iff_right_of_imp]
    rintro he rfl
    exact hne (nameOf_eq_of_hasEntry hentry he)

/-- An open directory is a finite map from names to inode numbers, and stays one. -/
theorem directory_is_map (h : OpenDir s dp) (hwf : DirWf s (s.itable dp).inum) :
    DirIsMap s dp where
  absent _ hnone := dirlookup_absent h hnone
  present _ _ _ hentry hcan := by
    obtain ⟨ip, i, s', hrun, hs, hgot, htable⟩ := dirlookup_present h hwf hentry hcan
    exact ⟨ip, s', hrun, hs, by rw [htable, update_self, hgot.inum]⟩
  linkPresent _ _ _ _ hentry hcan := dirlink_present h hwf hentry hcan
  full name inum _ _ hentry hfull := by
    have hrun := dirlookup_full h hwf hentry hfull
    exact ⟨hrun, run_bind_error hrun⟩
  linkAbsent name inum hnone hpos hle hmax := by
    have hspec := dirlink_absent h hnone hle hmax
    refine ⟨fun hroom => ?_, fun hlog hroom => ?_⟩
    · obtain ⟨r, s', hrun, rfl, j, hj, hempty, hwrote, -⟩ :=
        wp_returns (wp_mono hspec (fun _ _ hr => hr) fun e he => he.2 hroom)
      exact ⟨s', hrun, hwrote.linked h hwf hnone hpos hj hempty⟩
    · cases hrun : (dirlink dp name inum).run s with
      | error e => exact ⟨e, rfl⟩
      | ok r =>
        obtain ⟨-, -, -, -, -, hgot⟩ := wp_ok hspec hrun
        exact absurd (hgot hlog) hroom
  clear name n off hentry := by
    obtain ⟨k, rfl, hlt, -, -⟩ := h.hasEntry_iff.mp hentry
    have hsize := h.size
    have hmax := h.ok.alloc.size_le _ h.live
    rw [eff_cached h.ok.table h.cached] at hmax
    have hend : DIRENT_SIZE * k + DIRENT_SIZE ≤ MAXFILE * BSIZE := by
      rw [DIRENT_SIZE_eq] at *
      omega
    have hspec := writei_dirent h (length_replicate (a := (0 : UInt8))) (Nat.le_of_lt hlt) hend
    refine ⟨fun hroom => ?_, fun hlog hroom => ?_⟩
    · obtain ⟨r, s', hrun, rfl, hwrote, -⟩ :=
        wp_returns (wp_mono hspec (fun _ _ hr => hr) fun e he => he.2 hroom)
      exact ⟨s', hrun, hwrote.cleared h hwf hentry (Nat.le_of_lt hlt)⟩
    · cases hrun : (writei dp (.kernel (List.replicate DIRENT_SIZE 0)) (DIRENT_SIZE * k)
          DIRENT_SIZE).run s with
      | error e => exact ⟨e, rfl⟩
      | ok r =>
        obtain ⟨-, -, hgot⟩ := wp_ok hspec hrun
        exact absurd (hgot hlog) hroom

/-! ### A directory with one name -/

/-- A file of directory entries. -/
def dirFile (entries : List (Nat × List UInt8)) : FlatFile :=
  { type := T_DIR, nlink := 1
    data := entries.flatMap fun e => Dirent.bytes { inum := e.1, name := strncpy DIRSIZ e.2 } }

/-- The root directory has the name "a" for inode `n`, and there are `m` files. -/
def oneName (n m : Nat) (entries : List (Nat × Bool)) : Fs :=
  flat (dirFile [(n, [97])] :: List.replicate m { type := T_FILE, nlink := 1, data := [] }) 200
    entries

theorem oneName_files (n : Nat) {m : Nat} (hm : m ≤ 100) :
    FlatOk (dirFile [(n, [97])] :: List.replicate m { type := T_FILE, nlink := 1, data := [] })
      200 := by
  refine ⟨by decide, ?_, ?_, ?_, ?_⟩
  · rw [length_cons, length_replicate]
    omega
  · simp [dirFile, T_DIR, T_FILE]
  · simp [dirFile]
  · simp [dirFile, Dirent.bytes, length_strncpy, DIRSIZ, BSIZE]

section

variable {m : Nat} {entries : List (Nat × Bool)}

theorem oneName_ok (n : Nat) (hm : m ≤ 100) (he : EntriesOk entries) :
    FsOk (oneName n m entries) := flat_ok (oneName_files n hm) he

/-- The directory of the example has one entry. -/
theorem oneName_size (n : Nat) (hm : m ≤ 100) (he : EntriesOk entries) :
    (eff (oneName n m entries) 1).size = DIRENT_SIZE := by
  have heff : eff (oneName n m entries) = flatNode (dirFile [(n, [97])] :: List.replicate m
      { type := T_FILE, nlink := 1, data := [] }) := flat_eff (oneName_files n hm) he
  have hlen : (strncpy DIRSIZ [97]).length = DIRSIZ := length_strncpy _ _
  rw [heff]
  show (dirFile [(n, [97])]).data.length = _
  rw [dirFile, flatMap_singleton]
  exact length_bytes hlen

/-- There is one entry only. -/
theorem oneName_wf (n : Nat) (hm : m ≤ 100) (he : EntriesOk entries) :
    DirWf (oneName n m entries) 1 := by
  have hsize := oneName_size n hm he
  refine ⟨by rw [hsize]; rfl, ?_⟩
  rintro name n' off n'' off' ⟨k, rfl, hlt, -, -⟩ ⟨k', rfl, hlt', -, -⟩
  rw [hsize, DIRENT_SIZE_eq] at hlt hlt'
  rw [DIRENT_SIZE_eq]
  omega

/-- The directory of the example can be read. -/
theorem oneName_open (n : Nat) {b : Bool} (hm : m ≤ 100) (he : EntriesOk ((1, b) :: entries)) :
    OpenDir (oneName n m ((1, b) :: entries)) firstEntry := by
  have hok := oneName_ok n hm he
  have hcached : Cached (oneName n m ((1, b) :: entries)) firstEntry := ⟨Nat.zero_lt_one, rfl⟩
  refine ⟨hok, hcached, rfl, ?_⟩
  have hsize := (oneName_wf n hm he).size
  have heff : eff (oneName n m ((1, b) :: entries)) 1
      = ((oneName n m ((1, b) :: entries)).itable firstEntry).toDinode :=
    eff_cached hok.table hcached
  rwa [heff] at hsize

end

/-- The first fifty inodes are in the table. -/
def fullTable (locked : Bool) : List (Nat × Bool) :=
  (1, locked) :: (List.range' 2 49).map fun i => (i, false)

/-- What is in the log does not matter to the names. -/
theorem DirWf.busyLog {s : Fs} {i : Nat} (h : DirWf s i) (n : Nat) :
    DirWf (Proofs.busyLog s n) i := by
  have heff : eff (Proofs.busyLog s n) = eff s := eff_of_eq rfl rfl rfl
  have hsame : ∀ name n' off, HasEntry (Proofs.busyLog s n) i name n' off →
      HasEntry s i name n' off := by
    rintro name n' off ⟨k, hk, hlt, hnamed, hn⟩
    rw [heff] at hlt hnamed hn
    exact ⟨k, hk, hlt, hnamed, hn⟩
  refine ⟨by rw [heff]; exact h.size, fun name n' off n'' off' he he' => ?_⟩
  exact h.names name n' off n'' off' (hsame _ _ _ he) (hsame _ _ _ he')

theorem OpenDir.busyLog (h : OpenDir s dp) (n : Nat) : OpenDir (Proofs.busyLog s n) dp :=
  ⟨h.ok.of_eq rfl rfl rfl, h.cached, h.type, h.size⟩

/-- Fifty inodes are in the table, and the name is for another one: `dirlookup` panics. With 28
blocks in the log there is no room for an entry and the inode, and a write of one panics. -/
theorem dirlookup_table_full : OpenDir (oneName 51 50 (fullTable true)) firstEntry ∧
    DirWf (oneName 51 50 (fullTable true)) 1 ∧
    HasEntry (oneName 51 50 (fullTable true)) 1 [97] 51 0 ∧
    (dirlookup firstEntry [97]).run (oneName 51 50 (fullTable true)) = .error .iget ∧
    OpenDir (busyLog (oneName 2 1 [(1, true)]) 28) firstEntry ∧
    (dirlink firstEntry [98] 2).run (busyLog (oneName 2 1 [(1, true)]) 28)
      = .error (.log .tooBig) ∧
    (writei firstEntry (.kernel (List.replicate DIRENT_SIZE 0)) 0 DIRENT_SIZE).run
      (busyLog (oneName 2 1 [(1, true)]) 28) = .error (.log .tooBig) := by
  have he : EntriesOk (fullTable true) := ⟨by decide, by decide⟩
  have he' : EntriesOk [(1, true)] := ⟨by decide, by decide⟩
  exact ⟨oneName_open 51 (by decide) he, oneName_wf 51 (by decide) he,
    ⟨0, rfl, by decide +kernel, by decide +kernel, by decide +kernel⟩,
    panicOf_eq (by decide +kernel), (oneName_open 2 (by decide) he').busyLog 28,
    panicOf_eq (by decide +kernel), panicOf_eq (by decide +kernel)⟩

/-- With room for two more blocks in the log, the name "b" is added after the name "a", and the name
"a" is found and can be cleared. -/
theorem directory_is_map_two_names :
    (∃ ip s', (dirlookup firstEntry [97]).run (busyLog (oneName 2 1 [(1, true)]) 27)
        = .ok (some (ip, 0), s') ∧ (s'.itable ip).inum = 2) ∧
    (∃ s', (dirlink firstEntry [98] 2).run (busyLog (oneName 2 1 [(1, true)]) 27) = .ok (0, s') ∧
      DirWf s' 1 ∧ (∃ off, HasEntry s' 1 [98] 2 off) ∧ HasEntry s' 1 [97] 2 0) ∧
    ∃ s', (writei firstEntry (.kernel (List.replicate DIRENT_SIZE 0)) 0 DIRENT_SIZE).run
        (busyLog (oneName 2 1 [(1, true)]) 27) = .ok (16, s') ∧
      ∀ n off, ¬ HasEntry s' 1 [97] n off := by
  have he : EntriesOk [(1, true)] := ⟨by decide, by decide⟩
  have hm : 1 ≤ 100 := by decide
  have hopen := oneName_open 2 hm he
  have hmap := directory_is_map (hopen.busyLog 27) ((oneName_wf 2 hm he).busyLog 27)
  have hentry : HasEntry (busyLog (oneName 2 1 [(1, true)]) 27) 1 [97] 2 0 :=
    ⟨0, rfl, by decide +kernel, by decide +kernel, by decide +kernel⟩
  have hnone : ∀ n off, ¬ HasEntry (busyLog (oneName 2 1 [(1, true)]) 27) 1 [98] n off := by
    have hno : ¬ Named (oneName 2 1 [(1, true)]).disk (eff (oneName 2 1 [(1, true)]) 1) [98] 0 := by
      decide +kernel
    have heff : eff (busyLog (oneName 2 1 [(1, true)]) 27) = eff (oneName 2 1 [(1, true)]) :=
      eff_of_eq rfl rfl rfl
    have hsize := oneName_size 2 hm he
    rintro n off ⟨k, rfl, hlt, hnamed, -⟩
    rw [heff] at hlt hnamed
    obtain rfl : k = 0 := by
      rw [hsize, DIRENT_SIZE_eq] at hlt
      omega
    exact hno hnamed
  obtain ⟨ip, s₁, hrun₁, -, hinum⟩ := hmap.present [97] 2 0 hentry
    (.inr ⟨⟨1, by decide⟩, by decide +kernel⟩)
  obtain ⟨s₂, hrun₂, hwf₂, hnew, hold⟩ := (hmap.linkAbsent [98] 2 hnone (by decide) (by decide)
    (by decide +kernel)).1 ⟨by decide +kernel, busyLog_ok _ 27, by decide, by decide +kernel⟩
  obtain ⟨s₃, hrun₃, -, hgone, -⟩ := (hmap.clear [97] 2 0 hentry).1
    ⟨by decide +kernel, busyLog_ok _ 27, by decide, by decide +kernel⟩
  exact ⟨⟨ip, s₁, hrun₁, hinum⟩, ⟨s₂, hrun₂, hwf₂, hnew,
    (hold [97] 2 0 (by decide)).mpr hentry⟩, s₃, hrun₃, hgone⟩

end Xv6.Proofs
