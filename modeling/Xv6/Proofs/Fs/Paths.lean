import Xv6.Proofs.Fs.Dirs

/-!
# `Xv6.Proofs.Fs.Paths`: path names

The components of a path are its maximal runs of bytes other than `/`, cut to `DIRSIZ` bytes.
`skipElems_components` says that these are what `skipelem` yields one after the other.

`Walk` is the lookup of one component after the other from an inode. `namexLoop_spec` follows it: at
each component one reference is held, to the inode that has been reached, and no inode is locked
between the components. While a component is looked up there are two, to the directory and to the
inode that is found in it. `CanWalk` says that the table of inodes has room for them at every
component; if it has not, the kernel panics.
-/

set_option autoImplicit false

namespace Xv6.Proofs

open Lib Fs List
open Function (update_of_ne update_self)

variable {cwd : InodeId} {extra : List Nat} {i j : Nat} {lock : Finset InodeId} {name : List UInt8}
  {names : List (List UInt8)} {parent : Bool} {s₁ : Fs}

/-! ### Components -/

/-- The maximal runs of bytes other than `/`. -/
def runs (path : List UInt8) : List (List UInt8) :=
  (path.splitOnP (· = slash)).filter (· ≠ [])

def components (path : List UInt8) : List (List UInt8) := (runs path).map (·.take DIRSIZ)

/-- The names that `skipelem` yields, and then it returns 0. -/
inductive SkipElems : List UInt8 → List (List UInt8) → Prop where
  | done {path : List UInt8} (h : skipelem path = none) : SkipElems path []
  | next {path rest name : List UInt8} {names : List (List UInt8)}
      (h : skipelem path = some (name, rest)) (hrest : SkipElems rest names) :
      SkipElems path (name :: names)

theorem runs_slash (path : List UInt8) : runs (slash :: path) = runs path := by
  unfold runs
  rw [splitOnP_cons_eq_if_modifyHead, if_pos (decide_eq_true rfl),
    filter_cons_of_neg (by simp)]

theorem runs_dropWhile (path : List UInt8) : runs (path.dropWhile (· = slash)) = runs path := by
  induction path with
  | nil => rfl
  | cons b path ih =>
    by_cases hb : b = slash
    · rw [dropWhile_cons_of_pos (by simpa using hb), ih, hb, runs_slash]
    · rw [dropWhile_cons_of_neg (by simpa using hb)]

/-- A run, and then nothing or a slash. -/
theorem runs_word {word rest : List UInt8} (hne : word ≠ []) (hword : ∀ b ∈ word, b ≠ slash)
    (hrest : ∀ b, rest.head? = some b → b = slash) : runs (word ++ rest) = word :: runs rest := by
  have hno : ∀ b ∈ word, decide (b = slash) = false := fun b hb => by simpa using hword b hb
  cases rest with
  | nil =>
    -- the run is the whole path
    rw [append_nil, runs, splitOnP_eq_singleton hno,
      filter_cons_of_pos (by simpa using hne)]
    rfl
  | cons b rest =>
    obtain rfl : b = slash := hrest b rfl
    rw [runs_slash, runs,
      splitOnP_append_cons_of_forall_mem hno slash (decide_eq_true rfl) rest,
      filter_cons_of_pos (by simpa using hne)]
    rfl

theorem head?_dropWhile {p : UInt8 → Bool} {l : List UInt8} {b : UInt8}
    (h : (l.dropWhile p).head? = some b) : p b = false := by
  induction l with
  | nil => cases h
  | cons a l ih =>
    by_cases ha : p a = true
    · rw [dropWhile_cons_of_pos ha] at h
      exact ih h
    · rw [dropWhile_cons_of_neg ha, head?_cons] at h
      rw [← Option.some.inj h]
      simpa using ha

/-- What `skipelem` does to a path: there is nothing but slashes, or a run is cut off. -/
theorem skipelem_cases (path : List UInt8) :
    (skipelem path = none ∧ runs path = []) ∨
    ∃ word rest, word ≠ [] ∧ skipelem path = some (word.take DIRSIZ, rest) ∧
      rest.length < path.length ∧ runs path = word :: runs rest := by
  have hruns := runs_dropWhile path
  have hlen : (path.dropWhile (· = slash)).length ≤ path.length :=
    (dropWhile_suffix _).length_le
  have hhead : ∀ b, (path.dropWhile (· = slash)).head? = some b → b ≠ slash := fun b hb => by
    simpa using head?_dropWhile hb
  unfold skipelem
  generalize path.dropWhile (· = slash) = p at hruns hlen hhead
  dsimp only
  by_cases hnil : p = []
  · rw [if_pos hnil, ← hruns, hnil]
    exact .inl ⟨rfl, rfl⟩
  · right
    obtain ⟨b, q, rfl⟩ := exists_cons_of_ne_nil hnil
    have hb : b ≠ slash := hhead b rfl
    have hword : ∀ c ∈ (b :: q).takeWhile (· ≠ slash), c ≠ slash := fun c hc => by
      simpa using mem_takeWhile_imp (p := fun c => decide (c ≠ slash)) hc
    have hne : (b :: q).takeWhile (· ≠ slash) ≠ [] := by
      rw [takeWhile_cons_of_pos (by simpa using hb)]
      exact cons_ne_nil _ _
    have hsplit : (b :: q).takeWhile (· ≠ slash) ++ (b :: q).dropWhile (· ≠ slash) = b :: q :=
      takeWhile_append_dropWhile
    have hrest : ∀ c, ((b :: q).dropWhile (· ≠ slash)).head? = some c → c = slash := fun c hc => by
      simpa using head?_dropWhile hc
    have hle : (((b :: q).dropWhile (· ≠ slash)).dropWhile (· = slash)).length
        ≤ ((b :: q).dropWhile (· ≠ slash)).length := (dropWhile_suffix _).length_le
    have hsum := congrArg List.length hsplit
    have hpos := length_pos_iff.mpr hne
    rw [length_append] at hsum
    refine ⟨_, _, hne, if_neg hnil, by omega, ?_⟩
    have hword' := runs_word hne hword hrest
    rw [hsplit] at hword'
    rw [← hruns, hword', runs_dropWhile]

/-- `skipelem`, again and again, gives the components of the path. -/
theorem skipElems_components (path : List UInt8) : SkipElems path (components path) := by
  induction hn : path.length using Nat.strong_induction_on generalizing path with
  | _ n ih =>
    subst hn
    rcases skipelem_cases path with ⟨hnone, hruns⟩ | ⟨word, rest, -, hsome, hlt, hruns⟩
    · rw [components, hruns]
      exact .done hnone
    · rw [components, hruns, map_cons]
      exact .next hsome (ih _ hlt rest rfl)

/-- The rounds of the loop are enough. -/
theorem SkipElems.loop {path : List UInt8} (h : SkipElems path names) :
    ∀ rounds, path.length ≤ rounds → pathElemsLoop rounds path = names := by
  induction h with
  | done hnone =>
    intro rounds _
    cases rounds with
    | zero => rfl
    | succ rounds => rw [pathElemsLoop, hnone]
  | @next path rest name names hsome _ ih =>
    intro rounds hrounds
    obtain ⟨hnone, -⟩ | ⟨word, rest', -, hsome', hlt, -⟩ := skipelem_cases path
    · rw [hnone] at hsome
      cases hsome
    · obtain rfl : rest' = rest := by
        rw [hsome'] at hsome
        exact congrArg Prod.snd (Option.some.inj hsome)
      cases rounds with
      | zero => omega
      | succ rounds =>
        rw [pathElemsLoop, hsome]
        dsimp only
        rw [ih rounds (by omega)]

theorem pathElems_eq (path : List UInt8) : pathElems path = components path :=
  (skipElems_components path).loop _ (Nat.le_refl _)

/-! ### The lookup of a path -/

/-- The components lead from inode `i` to inode `j`. -/
inductive Walk (s : Fs) : Nat → List (List UInt8) → Nat → Prop where
  | nil (i : Nat) : Walk s i [] i
  | cons {i n j off : Nat} {name : List UInt8} {names : List (List UInt8)}
      (hdir : (eff s i).type = T_DIR) (hentry : HasEntry s i name n off) (h : Walk s n names j) :
      Walk s i (name :: names) j

/-- The inode that a path leads to, or the directory of its last component. -/
def Reaches (s : Fs) (parent : Bool) (i : Nat) (names : List (List UInt8)) (j : Nat) : Prop :=
  if parent then names ≠ [] ∧ Walk s i names.dropLast j ∧ (eff s j).type = T_DIR
  else Walk s i names j

/-- The inode is allocated, and the last `iput` does not free it: it has a name, or someone holds
it. -/
structure Safe (s : Fs) (i : Nat) : Prop where
  live : Live s.sb (eff s) i
  keep : 0 < (eff s i).nlink ∨ 0 < refsTo s i

/-- The names of every directory are a map to inodes that are there. -/
structure Tree (s : Fs) : Prop where
  wf : ∀ i, Live s.sb (eff s) i → (eff s i).type = T_DIR → DirWf s i
  safe : ∀ i name n off, Live s.sb (eff s) i → (eff s i).type = T_DIR →
    HasEntry s i name n off → Safe s n
  root : Safe s ROOTINO

/-- The components lead to one inode. -/
theorem Tree.walk_unique {s : Fs} (htree : Tree s) {j' : Nat} (hi : Live s.sb (eff s) i)
    (h : Walk s i names j) (h' : Walk s i names j') : j = j' := by
  induction h with
  | nil i =>
    cases h'
    rfl
  | cons hdir hentry _ ih =>
    cases h' with
    | cons _ hentry' hrest' =>
      rw [← (htree.wf _ hi hdir).inum_eq hentry hentry'] at hrest'
      exact ih (htree.safe _ _ _ _ hi hdir hentry).live hrest'

/-- At every component that is looked up and found, the table has room for the directory and for
the inode that is found. -/
def CanWalk (s : Fs) (parent : Bool) : List (List UInt8) → Nat → Prop
  | [], _ => True
  | name :: names, i => (eff s i).type = T_DIR → (parent && names.isEmpty) = false →
    ∀ n off, HasEntry s i name n off → TableHolds s {n, i} ∧ CanWalk s parent names n

/-- A component that is found is for one inode. -/
theorem DirWf.canWalk_iff {s : Fs} {n off : Nat} (hwf : DirWf s i) (hdir : (eff s i).type = T_DIR)
    (hmore : (parent && names.isEmpty) = false) (hentry : HasEntry s i name n off) :
    CanWalk s parent (name :: names) i ↔ TableHolds s {n, i} ∧ CanWalk s parent names n := by
  rw [CanWalk]
  constructor
  · exact fun h => h hdir hmore n off hentry
  · intro h _ _ n' off' hentry'
    rwa [← hwf.inum_eq hentry hentry']

/-- What a lookup leaves: a reference to the inode that has been reached, or no change. -/
def Resolved (s : Fs) (P : Nat → Prop) (r : Option InodeId) (s' : Fs) : Prop :=
  (∃ ip j, r = some ip ∧ P j ∧ (s'.itable ip).inum = j ∧ 0 < (s'.itable ip).ref ∧
    InodesHeld s s' [j] ∅) ∨
  (r = none ∧ (∀ j, ¬ P j) ∧ InodesHeld s s' [] ∅)

variable {s : Fs}

theorem Resolved.congr {P P' : Nat → Prop} {r : Option InodeId} {s' : Fs}
    (h : Resolved s P r s') (hP : ∀ j, P j ↔ P' j) : Resolved s P' r s' := by
  obtain rfl : P = P' := funext fun j => propext (hP j)
  exact h

/-- No path goes through a file. -/
theorem not_reaches_of_file (hfile : (eff s i).type ≠ T_DIR) :
    ¬ Reaches s parent i (name :: names) j := by
  unfold Reaches
  split
  · rintro ⟨-, hwalk, hdir⟩
    cases names with
    | nil =>
      cases hwalk
      exact hfile hdir
    | cons name' names =>
      cases hwalk with
      | cons hdir' _ _ => exact hfile hdir'
  · intro hwalk
    cases hwalk with
    | cons hdir _ _ => exact hfile hdir

/-- The first step of a lookup. -/
theorem reaches_cons_iff (hdir : (eff s i).type = T_DIR)
    (hmore : (parent && names.isEmpty) = false) :
    Reaches s parent i (name :: names) j ↔
      ∃ n off, HasEntry s i name n off ∧ Reaches s parent n names j := by
  unfold Reaches
  cases parent with
  | false =>
    simp only [Bool.false_eq_true, if_false]
    constructor
    · intro hwalk
      cases hwalk with
      | cons _ hentry hrest => exact ⟨_, _, hentry, hrest⟩
    · rintro ⟨n, off, hentry, hrest⟩
      exact .cons hdir hentry hrest
  | true =>
    simp only [if_true]
    cases names with
    | nil => cases hmore
    | cons name' names =>
      rw [dropLast_cons_cons]
      constructor
      · rintro ⟨-, hwalk, htype⟩
        cases hwalk with
        | cons _ hentry hrest => exact ⟨_, _, hentry, cons_ne_nil _ _, hrest, htype⟩
      · rintro ⟨n, off, hentry, -, hrest, htype⟩
        exact ⟨cons_ne_nil _ _, .cons hdir hentry hrest, htype⟩

/-- The entries of a directory are on disk, and do not depend on the table. -/
theorem InodesHeld.hasEntry_iff (h : InodesHeld s s₁ extra lock) {n off : Nat} :
    HasEntry s₁ i name n off ↔ HasEntry s i name n off := by
  unfold HasEntry
  rw [h.eff, h.only.disk]

/-- The directory that is locked, as the functions on directories see it. -/
theorem InodesHeld.openDir {dp : InodeId} (h : InodesHeld s s₁ extra lock) (hc : Cached s₁ dp)
    (htree : Tree s) (hlive : Live s.sb (Proofs.eff s) (s₁.itable dp).inum)
    (hdir : (Proofs.eff s (s₁.itable dp).inum).type = T_DIR) :
    OpenDir s₁ dp ∧ DirWf s₁ (s₁.itable dp).inum := by
  have heff : Proofs.eff s (s₁.itable dp).inum = (s₁.itable dp).toDinode := by
    rw [← h.eff]
    exact eff_cached h.ok.table hc
  have hwf := htree.wf _ hlive hdir
  refine ⟨⟨h.ok, hc, ?_, ?_⟩, h.eff ▸ hwf.size, fun name n off n' off' he he' => ?_⟩
  · rw [heff] at hdir
    exact hdir
  · have hsize := hwf.size
    rwa [heff] at hsize
  · exact hwf.names _ _ _ _ _ (h.hasEntry_iff.mp he) (h.hasEntry_iff.mp he')

/-- What `dirlookup` finds in a directory: nothing, or an inode that is held then. -/
def DirFound (s s₁ : Fs) (extra : List Nat) (lock : Finset InodeId) (i : Nat) (name : List UInt8)
    (r : Option (InodeId × Nat)) (s₂ : Fs) : Prop :=
  (r = none ∧ s₂ = s₁ ∧ ∀ n off, ¬ HasEntry s i name n off) ∨
  ∃ ip off n, r = some (ip, off) ∧ HasEntry s i name n off ∧
    TableHolds s (insert n extra.toFinset) ∧ InodesHeld s s₂ (n :: extra) lock ∧
    (s₂.itable ip).inum = n ∧ 0 < (s₂.itable ip).ref ∧
    ∀ jp, 0 < (s₁.itable jp).ref → (s₂.itable jp).inum = (s₁.itable jp).inum ∧
      (s₂.itable jp).valid = (s₁.itable jp).valid

/-- `dirlookup` in a directory that the process has locked. -/
theorem InodesHeld.dirlookup {dp : InodeId} (h : InodesHeld s s₁ extra lock) (hc : Cached s₁ dp)
    (htree : Tree s) (hlive : Live s.sb (Proofs.eff s) (s₁.itable dp).inum)
    (hdir : (Proofs.eff s (s₁.itable dp).inum).type = T_DIR) (name : List UInt8) :
    wp (Fs.dirlookup dp name) (DirFound s s₁ extra lock (s₁.itable dp).inum name)
      (fun e => e = .iget ∧ ∃ n off, HasEntry s (s₁.itable dp).inum name n off ∧
        ¬ TableHolds s (insert n extra.toFinset)) s₁ := by
  obtain ⟨hopen, -⟩ := h.openDir hc htree hlive hdir
  refine wp_mono (dirlookup_spec hopen name) ?_ ?_
  · rintro r s₂ (⟨rfl, rfl, hnone⟩ | ⟨k, ip, i, rfl, hlt, hnamed, honly, hgot, htable⟩)
    · refine .inl ⟨rfl, rfl, fun n off he => ?_⟩
      obtain ⟨k, rfl, hlt, hnamed, -⟩ := hopen.hasEntry_iff.mp (h.hasEntry_iff.mpr he)
      exact hnone k hlt hnamed
    · have hentry := h.hasEntry_iff.mp (hopen.hasEntry_iff.mpr ⟨k, rfl, hlt, hnamed, rfl⟩)
      have hnext := htree.safe _ _ _ _ hlive hdir hentry
      refine .inr ⟨ip, _, _, rfl, hentry, h.canGet_iff.mp hgot.canGet,
        h.got hgot honly htable ⟨hnext.live.1, hnext.live.2.1⟩, ?_, ?_, fun jp hjp => ?_⟩
      · rw [htable, update_self, hgot.inum]
      · rw [htable, update_self]
        exact hgot.ref_pos
      · rw [htable]
        refine ⟨hgot.inum_update hjp, ?_⟩
        by_cases heq : jp = ip
        · subst heq
          rw [update_self]
          cases hgot with
          | found _ _ => rfl
          | filled _ hfree => exact absurd hfree (Nat.ne_of_gt hjp)
        · rw [update_of_ne heq]
  · rintro e ⟨rfl, k, hlt, hnamed, hfull⟩
    exact ⟨rfl, _, _, h.hasEntry_iff.mp (hopen.hasEntry_iff.mpr ⟨k, rfl, hlt, hnamed, rfl⟩),
      fun hroom => hfull (h.canGet_iff.mpr hroom)⟩

theorem erase_second (m n : Nat) : [m, n].erase n = [m] := by
  by_cases heq : m = n
  · rw [heq, erase_cons_head]
  · rw [erase_cons_tail (by simpa using heq), erase_cons_head]

/-- One step of the loop: the next inode is held, and the last one is given back. The loop fails
exactly if the table has no room at one of the steps. -/
theorem namexLoop_spec (htree : Tree s) (names : List (List UInt8)) :
    ∀ (s₁ : Fs) (ip : InodeId) (i : Nat), InodesHeld s s₁ [i] ∅ → (s₁.itable ip).inum = i →
      0 < (s₁.itable ip).ref → Safe s i →
      wp (namexLoop parent names ip)
        (fun r s' => Resolved s (Reaches s parent i names) r s' ∧ CanWalk s parent names i)
        (fun e => e = .iget ∧ ¬ CanWalk s parent names i) s₁ := by
  induction names with
  | nil =>
    rintro s₁ ip i h rfl href hsafe
    rw [namexLoop]
    refine wp_ite (fun hparent => ?_) fun hnot => ?_
    · rw [wp_bind]
      refine wp_sure (h.iput href mem_cons_self
        (fun hin => absurd hin (Finset.notMem_empty ip)) hsafe.keep) ?_
      rintro - s₂ ⟨h₂, -⟩
      rw [erase_cons_head] at h₂
      refine ⟨.inr ⟨rfl, fun j hj => ?_, h₂⟩, trivial⟩
      unfold Reaches at hj
      rw [if_pos hparent] at hj
      exact hj.1 rfl
    · refine ⟨.inl ⟨ip, _, rfl, ?_, rfl, href, h⟩, trivial⟩
      unfold Reaches
      rw [if_neg hnot]
      exact .nil _
  | cons name names ih =>
    rintro s₁ ip i h rfl href hsafe
    rw [namexLoop, wp_bind]
    refine wp_sure (h.ilock href (Finset.notMem_empty ip) hsafe.live) ?_
    rintro - s₂ ⟨h₂, hinum, hvalid, -⟩
    rw [← hinum] at hsafe h₂ ⊢
    have href₂ := h₂.holder ip (Finset.mem_insert_self ip ∅)
    have htype : (eff s (s₂.itable ip).inum).type = (s₂.itable ip).type := by
      rw [← h₂.eff, eff_cached h₂.ok.table ⟨href₂, hvalid⟩]
    rw [wp_bind, wp_get]
    -- the inode is given back, and the lookup fails
    have hfail : (∀ j, ¬ Reaches s parent (s₂.itable ip).inum (name :: names) j) →
        CanWalk s parent (name :: names) (s₂.itable ip).inum →
        wp (do
            iunlockput ip
            return none)
          (fun r s' => Resolved s (Reaches s parent (s₂.itable ip).inum (name :: names)) r s' ∧
            CanWalk s parent (name :: names) (s₂.itable ip).inum)
          (fun e => e = .iget ∧ ¬ CanWalk s parent (name :: names) (s₂.itable ip).inum) s₂ := by
      intro hno hwalk
      rw [wp_bind]
      refine wp_sure (h₂.iunlockput (Finset.notMem_empty ip) mem_cons_self hsafe.keep) ?_
      rintro - s₃ ⟨h₃, -⟩
      rw [erase_cons_head] at h₃
      exact ⟨.inr ⟨rfl, hno, h₃⟩, hwalk⟩
    refine wp_ite (fun hfile => ?_) fun hdir => ?_
    · have hfile : (eff s (s₂.itable ip).inum).type ≠ T_DIR := htype.symm ▸ hfile
      exact hfail (fun j => not_reaches_of_file hfile) fun hdir => absurd hdir hfile
    replace hdir : (eff s (s₂.itable ip).inum).type = T_DIR := htype.trans (not_not.mp hdir)
    refine wp_ite (fun hlast => ?_) fun hmore => ?_
    · -- stop one level early
      rw [Bool.and_eq_true, List.isEmpty_iff] at hlast
      obtain ⟨rfl, rfl⟩ := hlast
      rw [wp_bind]
      refine wp_sure (h₂.iunlock (Finset.notMem_empty ip)) ?_
      rintro - s₃ ⟨h₃, hsame⟩
      exact ⟨.inl ⟨ip, _, rfl, ⟨cons_ne_nil _ _, .nil _, hdir⟩, (hsame ip).1,
        (hsame ip).2.symm ▸ href₂, h₃⟩, fun _ hmore => absurd hmore (by simp)⟩
    have hmore : (parent && names.isEmpty) = false := by simpa using hmore
    rw [wp_bind]
    refine wp_mono (h₂.dirlookup ⟨href₂, hvalid⟩ htree hsafe.live hdir name) ?_ ?_
    · rintro r s₃ (⟨rfl, rfl, hnone⟩ |
        ⟨next, off, n, rfl, hentry, hroom, h₃, hnextInum, hnextRef, hsame⟩)
      · refine hfail (fun j hj => ?_) fun _ _ n off hentry => absurd hentry (hnone n off)
        obtain ⟨n, off, hentry, -⟩ := (reaches_cons_iff hdir hmore).mp hj
        exact hnone n off hentry
      have hnext := htree.safe _ _ _ _ hsafe.live hdir hentry
      have hwf := htree.wf _ hsafe.live hdir
      have hcan := hwf.canWalk_iff hdir hmore hentry
      dsimp only
      have hip := (hsame ip href₂).1
      rw [← hip] at h₃ hsafe
      rw [wp_bind]
      refine wp_sure (h₃.iunlockput (Finset.notMem_empty ip) (.tail _ mem_cons_self)
        hsafe.keep) ?_
      rintro - s₄ ⟨h₄, hstays⟩
      -- of the two references, the one to the next inode is left
      rw [erase_second] at h₄ hstays
      obtain ⟨hinum₄, href₄⟩ := hstays next hnextRef (by rw [hnextInum]; exact mem_cons_self)
      refine wp_mono (ih s₄ next n h₄ (hinum₄.trans hnextInum) href₄ hnext) ?_ fun e he =>
        ⟨he.1, fun hwalk => he.2 (hcan.mp hwalk).2⟩
      rintro r s₅ ⟨hr, hwalk⟩
      refine ⟨hr.congr fun j => ?_, hcan.mpr ⟨hroom, hwalk⟩⟩
      rw [reaches_cons_iff hdir hmore]
      constructor
      · exact fun hj => ⟨n, off, hentry, hj⟩
      · rintro ⟨n', off', hentry', hj⟩
        rwa [← hwf.inum_eq hentry hentry'] at hj
    · rintro e ⟨rfl, n, off, hentry, hfull⟩
      exact ⟨rfl, fun hwalk => hfull (hwalk hdir hmore n off hentry).1⟩

/-- The inode where a path starts. -/
def pathStart (s : Fs) (cwd : InodeId) (path : List UInt8) : Nat :=
  if path.head? = some slash then ROOTINO else (s.itable cwd).inum

/-- No other process interferes: what is in the table is on disk, no inode is locked, and the
current directory of the process is there. -/
structure Quiet (s : Fs) (cwd : InodeId) : Prop where
  ok : FsOk s
  synced : Synced s
  unlocked : ∀ jp, (s.itable jp).locked = false
  tree : Tree s
  cwdRef : 0 < (s.itable cwd).ref
  cwdLive : Live s.sb (eff s) (s.itable cwd).inum

/-- The table has room for the root if the path starts there, and for every component. -/
def CanResolve (s : Fs) (cwd : InodeId) (path : List UInt8) (parent : Bool) : Prop :=
  (path.head? = some slash → TableHolds s {ROOTINO}) ∧
  CanWalk s parent (components path) (pathStart s cwd path)

/-- How `namex` ends. It panics exactly if the table has no room for an inode on the way. -/
theorem namex_wp (h : Quiet s cwd) (path : List UInt8) (parent : Bool) :
    wp (namex cwd path parent)
      (fun r s' => Resolved s (Reaches s parent (pathStart s cwd path) (components path)) r s' ∧
        CanResolve s cwd path parent)
      (fun e => e = .iget ∧ ¬ CanResolve s cwd path parent) s := by
  have hinit := InodesHeld.init h.ok h.synced h.unlocked
  unfold namex pathStart CanResolve pathStart
  rw [pathElems_eq]
  refine wp_ite (fun hslash => ?_) fun hslash => ?_
  · have hlive := h.tree.root.live
    rw [wp_bind]
    refine wp_mono (iget_run ROOTINO s) ?_ fun e he =>
      ⟨he.1, fun hcan => he.2 (h.ok.table.canGet_iff.mpr (hcan.1 hslash))⟩
    rintro ip s₁ ⟨honly, i, hgot, htable⟩
    have hroot := h.ok.table.canGet_iff.mp hgot.canGet
    rw [if_pos hslash]
    have hfrom := hinit.got hgot honly htable ⟨hlive.1, hlive.2.1⟩
    have hip : (s₁.itable ip).inum = ROOTINO := by rw [htable, update_self, hgot.inum]
    have href : 0 < (s₁.itable ip).ref := by
      rw [htable, update_self]
      exact hgot.ref_pos
    exact wp_mono (namexLoop_spec h.tree _ s₁ ip _ hfrom hip href h.tree.root)
      (fun r s' hr => ⟨hr.1, fun _ => hroot, hr.2⟩) fun e he => ⟨he.1, fun hcan => he.2 hcan.2⟩
  · have hsafe : Safe s (s.itable cwd).inum :=
      ⟨h.cwdLive, .inr (refsTo_entry h.ok.table h.cwdRef ▸ h.cwdRef)⟩
    rw [wp_bind]
    refine wp_sure (hinit.idup h.cwdRef) ?_
    rintro - s₁ ⟨h₁, hinum, href⟩
    rw [if_neg hslash]
    exact wp_mono (namexLoop_spec h.tree _ s₁ cwd _ h₁ hinum href hsafe)
      (fun r s' hr => ⟨hr.1, fun hroot => absurd hroot hslash, hr.2⟩)
      fun e he => ⟨he.1, fun hcan => he.2 hcan.2⟩

/-- With room in the table, `namex` returns the inode that the path reaches, if there is one. -/
theorem namex_spec (h : Quiet s cwd) {path : List UInt8} {parent : Bool}
    (hcan : CanResolve s cwd path parent) :
    ∃ r s', (namex cwd path parent).run s = .ok (r, s') ∧
      Resolved s (Reaches s parent (pathStart s cwd path) (components path)) r s' := by
  obtain ⟨r, s', hrun, hr, -⟩ :=
    wp_returns (wp_mono (namex_wp h path parent) (fun _ _ h => h) fun _ he => he.2 hcan)
  exact ⟨r, s', hrun, hr⟩

/-- `namex` panics if the table has no room for an inode on the way. -/
theorem namex_full (h : Quiet s cwd) {path : List UInt8} {parent : Bool}
    (hfull : ¬ CanResolve s cwd path parent) :
    (namex cwd path parent).run s = .error .iget := by
  cases hrun : (namex cwd path parent).run s with
  | error e => rw [(wp_error (namex_wp h path parent) hrun).1]
  | ok r => exact absurd (wp_ok (namex_wp h path parent) hrun).2 hfull

/-- What `skipelem`, `namei` and `nameiparent` do with a path. -/
structure PathResolves (s : Fs) (cwd : InodeId) (path : List UInt8) : Prop where
  elems : SkipElems path (components path)
  namei : CanResolve s cwd path false → ∃ r s', (namei cwd path).run s = .ok (r, s') ∧
    Resolved s (Walk s (pathStart s cwd path) (components path)) r s'
  nameiFull : ¬ CanResolve s cwd path false → (Fs.namei cwd path).run s = .error .iget
  nameiparent : CanResolve s cwd path true → ∃ r s', (nameiparent cwd path).run s = .ok (r, s') ∧
    Resolved s (fun j => components path ≠ [] ∧
      Walk s (pathStart s cwd path) (components path).dropLast j ∧ (eff s j).type = T_DIR)
      (r.map Prod.fst) s' ∧
    ∀ ip name, r = some (ip, name) → (components path).getLast? = some name
  nameiparentFull : ¬ CanResolve s cwd path true →
    (Fs.nameiparent cwd path).run s = .error .iget

/-- The components of a path are looked up one after the other, from the root or from the current
directory, as long as the table of inodes has room for what is looked up. -/
theorem path_resolves {cwd : InodeId} (h : Quiet s cwd) (path : List UInt8) :
    PathResolves s cwd path where
  elems := skipElems_components path
  namei hcan := by
    obtain ⟨r, s', hrun, hr⟩ := namex_spec h hcan
    exact ⟨r, s', hrun, hr.congr fun j => Iff.of_eq (if_neg Bool.false_ne_true)⟩
  nameiFull hfull := namex_full h hfull
  nameiparent hcan := by
    obtain ⟨r, s', hrun, hr⟩ := namex_spec h hcan
    replace hr := hr.congr fun j => Iff.of_eq (if_pos rfl)
    unfold nameiparent
    rw [run_bind_ok hrun]
    cases r with
    | none => exact ⟨none, s', rfl, hr, fun ip name h => absurd h.symm (Option.some_ne_none _)⟩
    | some dp =>
      refine ⟨_, s', rfl, hr, fun ip name hsome => ?_⟩
      obtain ⟨rfl, rfl⟩ := Prod.mk.inj (Option.some.inj hsome)
      -- a parent has been found, so there is a component
      obtain ⟨ip, j, -, ⟨hne, -⟩, -⟩ | ⟨hnone, -⟩ := hr
      · rw [pathElems_eq, getLastD_eq_getLast?, getLast?_eq_getLast_of_ne_nil hne]
        rfl
      · cases hnone
  nameiparentFull hfull := run_bind_error (namex_full h hfull)

/-! ### A tree with one name -/

theorem flat_synced {files : List FlatFile} {spare : Nat} {entries : List (Nat × Bool)}
    (h : FlatOk files spare) (he : EntriesOk entries) : Synced (flat files spare entries) := by
  intro ip hc
  obtain ⟨e, hmem, heq⟩ := flat_entry hc.1
  rw [heq]
  exact flatDisk_dinode h (he.range e (mem_of_getElem? hmem)).2

section

variable {m n : Nat} {entries : List (Nat × Bool)}

/-- The inodes of the example: a directory and files. -/
theorem oneName_inode (hm : m ≤ 100) (he : EntriesOk entries) (hi : 1 ≤ i) (him : i ≤ m + 1) :
    (eff (oneName n m entries) i).type = (if i = 1 then T_DIR else T_FILE) ∧
      (eff (oneName n m entries) i).nlink = 1 := by
  have heff : eff (oneName n m entries) = flatNode (dirFile [(n, [97])] :: List.replicate m
      { type := T_FILE, nlink := 1, data := [] }) := flat_eff (oneName_files n hm) he
  rw [heff]
  obtain ⟨k, rfl⟩ := Nat.exists_eq_add_of_le' hi
  cases k with
  | zero => exact ⟨rfl, rfl⟩
  | succ k =>
    have hk : (List.replicate m ({ type := T_FILE, nlink := 1, data := [] } : FlatFile))[k]?
        = some { type := T_FILE, nlink := 1, data := [] } := by
      rw [List.getElem?_replicate, if_pos (by omega)]
    simp only [flatNode, Nat.add_one_ne_zero, if_false, Nat.add_sub_cancel, List.getElem?_cons_succ,
      hk, Option.elim_some]
    simp

theorem oneName_safe (hm : m ≤ 100) (he : EntriesOk entries) (hi : 1 ≤ i) (him : i ≤ m + 1) :
    Safe (oneName n m entries) i := by
  obtain ⟨htype, hnlink⟩ := oneName_inode (n := n) hm he hi him
  refine ⟨⟨hi, ?_, ?_⟩, .inl (hnlink ▸ Nat.zero_lt_one)⟩
  · show i < 200
    omega
  · rw [htype]
    split <;> decide

/-- The root is the only directory, and its name is for one of the files. -/
theorem oneName_quiet (hm : m ≤ 100) (he : EntriesOk entries) (hn : 2 ≤ n ∧ n ≤ m + 1)
    (hentry : (direntAt (oneName n m entries).disk (eff (oneName n m entries) 1) 0).inum = n)
    (hfree : ∀ e ∈ entries, e.2 = false) (hcwd : ∃ e, entries[cwd.val]? = some e ∧ e.1 ≤ m + 1) :
    Quiet (oneName n m entries) cwd := by
  have hroot : ∀ i, Live (oneName n m entries).sb (eff (oneName n m entries)) i →
      (eff (oneName n m entries) i).type = T_DIR → i = 1 := by
    intro i hi hdir
    have him : i ≤ m + 1 := by
      have heff : eff (oneName n m entries) = flatNode _ := flat_eff (oneName_files n hm) he
      rw [heff] at hi
      have hlive : Live (flatSb _ 200) (flatNode _) i := hi
      obtain ⟨k, f, rfl, hf, -⟩ := flat_live hlive
      obtain ⟨hk, -⟩ := List.getElem?_eq_some_iff.mp hf
      rw [length_cons, length_replicate] at hk
      omega
    rw [(oneName_inode hm he hi.1 him).1] at hdir
    by_contra hne
    rw [if_neg hne] at hdir
    exact absurd hdir (by decide)
  obtain ⟨e, hmem, hle⟩ := hcwd
  have hsome : (oneName n m entries).itable cwd
      = { flatNode (dirFile [(n, [97])] :: List.replicate m
          { type := T_FILE, nlink := 1, data := [] }) e.1 with
        inum := e.1, ref := 1, locked := e.2, valid := true } := by
    simp only [oneName, flat, hmem, Option.elim_some]
  refine ⟨oneName_ok n hm he, flat_synced (oneName_files n hm) he, fun jp => ?_,
    ⟨fun i hi hdir => ?_, fun i name n' off hi hdir hhas => ?_,
      oneName_safe hm he (Nat.le_refl 1) (Nat.le_add_left 1 m)⟩, ?_, ?_⟩
  · simp only [oneName, flat]
    cases hjp : entries[jp.val]? with
    | none => rfl
    | some e => exact hfree e (mem_of_getElem? hjp)
  · rw [hroot i hi hdir]
    exact oneName_wf n hm he
  · rw [hroot i hi hdir] at hhas
    obtain ⟨k, rfl, hlt, -, rfl⟩ := hhas
    obtain rfl : k = 0 := by
      rw [oneName_size n hm he, DIRENT_SIZE_eq] at hlt
      omega
    rw [hentry]
    exact oneName_safe hm he (Nat.le_of_succ_le hn.1) hn.2
  · rw [hsome]
    exact Nat.zero_lt_one
  · rw [hsome]
    exact (oneName_safe hm he (he.range e (mem_of_getElem? hmem)).1 hle).live

end

/-- The root is the current directory, and 49 files are open. There is no entry for a fiftieth one,
so that its lookup panics. -/
theorem namei_table_full : Quiet (oneName 51 50 (fullTable false)) firstEntry ∧
    (namei firstEntry [47, 97]).run (oneName 51 50 (fullTable false)) = .error .iget := by
  refine ⟨oneName_quiet (by decide) ⟨by decide, by decide⟩ (by decide) (by decide +kernel)
    (by decide) ⟨(1, false), rfl, by decide⟩, panicOf_eq (by decide +kernel)⟩

/-- The path "/a" is for inode 2, which is open: that the table is full does not matter. -/
theorem path_resolves_one_name : ∃ ip s',
    (namei firstEntry [47, 97]).run (oneName 2 50 (fullTable false)) = .ok (some ip, s') ∧
    (s'.itable ip).inum = 2 := by
  have he : EntriesOk (fullTable false) := ⟨by decide, by decide⟩
  have hquiet : Quiet (oneName 2 50 (fullTable false)) firstEntry :=
    oneName_quiet (by decide) he (by decide) (by decide +kernel) (by decide)
      ⟨(1, false), rfl, by decide⟩
  have hentry : HasEntry (oneName 2 50 (fullTable false)) 1 [97] 2 0 :=
    ⟨0, rfl, by decide +kernel, by decide +kernel, by decide +kernel⟩
  have hwalk : Walk (oneName 2 50 (fullTable false)) 1 [[97]] 2 :=
    .cons (by decide +kernel) hentry (.nil 2)
  have hcan : CanWalk (oneName 2 50 (fullTable false)) false [[97]] 1 :=
    ((oneName_wf 2 (by decide) he).canWalk_iff (by decide +kernel) rfl hentry).mpr
      ⟨by decide +kernel, trivial⟩
  obtain ⟨r, s', hrun, ⟨ip, j, rfl, hj, hinum, -⟩ | ⟨-, hnone, -⟩⟩ :=
    (path_resolves hquiet [47, 97]).namei ⟨fun _ => by decide +kernel, hcan⟩
  · have htwo := hquiet.tree.walk_unique hquiet.tree.root.live hj hwalk
    exact ⟨ip, s', hrun, hinum.trans htwo⟩
  · exact absurd hwalk (hnone 2)

end Xv6.Proofs
