import Xv6.Proofs.Log.Ops
import Mathlib.Algebra.BigOperators.Group.List.Basic
import Mathlib.Tactic.IntervalCases

/-!
# `Xv6.Proofs.Log.Capacity`: how full a transaction can get

`begin_op` admits an operation when `lh.n + (outstanding + 1) * MAXOPBLOCKS` is at most
`LOGSIZE`, so it reserves room for `LOGSIZE = 30` logged blocks. The log area `mkfs` lays out
has `LOGSIZE` blocks with the header among them, so `log_write` panics when 29 blocks are
logged, and it does so before it looks for a block to absorb into.

`txnBlocks` and `opBlocks` are computed from the calls alone: the distinct blocks logged
since the last commit, and the distinct blocks that one operation has logged so far.
`runInv_run` relates them to the fields of `struct log` along every run.

* `log_write_no_panic_iff`: in every run, however many blocks its operations log,
  `log_write` does not panic with "too big a transaction" exactly when no `log_write` comes
  when 29 distinct blocks are already logged. The number of logged blocks never exceeds 29.
* `log_write_panics_three_full_ops`: three operations of ten blocks reach the panic.
* `nine_block_ops_never_panic`: operations of at most nine distinct blocks are safe.
-/

set_option autoImplicit false

namespace Xv6.Proofs

open Function (update update_of_ne update_self)
open List

variable {e : LogPanic} {ev : LogEvent} {m : Nat} {s s' : LogState}

/-! ### What the calls determine -/

/-- The distinct blocks logged since the last commit. -/
def txnBlocks (evs : List LogEvent) : Finset Nat :=
  evs.foldl
    (fun s ev =>
      match ev with
      | .logWrite _ b => insert b s
      | .commit => ∅
      | _ => s)
    ∅

/-- The distinct blocks that the current operation of process `p` has logged. -/
def opBlocks (p : Nat) (evs : List LogEvent) : Finset Nat :=
  evs.foldl
    (fun s ev =>
      match ev with
      | .beginOp q => if q = p then ∅ else s
      | .logWrite q b => if q = p then insert b s else s
      | _ => s)
    ∅

/-- Every operation logs at most `m` distinct blocks between its `begin_op` and its
`end_op`. -/
def OpsBounded (m : Nat) (evs : List LogEvent) : Prop :=
  ∀ k < evs.length, ∀ p b, evs[k]? = some (.logWrite p b) →
    (opBlocks p (evs.take (k + 1))).card ≤ m

/-- No `log_write` comes when `m` distinct blocks are already logged. -/
def TxnBelow (m : Nat) (evs : List LogEvent) : Prop :=
  ∀ k < evs.length, ∀ p b, evs[k]? = some (.logWrite p b) → (txnBlocks (evs.take k)).card < m

/-- A property of the caller of a `log_write` event is checked by looking at the event. -/
instance decidableLogWrite (o : Option LogEvent) (P : Nat → Prop) [DecidablePred P] :
    Decidable (∀ p b, o = some (.logWrite p b) → P p) :=
  match o with
  | none => isTrue (fun _ _ h => nomatch h)
  | some (.beginOp _) => isTrue (fun _ _ h => nomatch h)
  | some (.endOp _) => isTrue (fun _ _ h => nomatch h)
  | some .commit => isTrue (fun _ _ h => nomatch h)
  | some (.logWrite p b) =>
    decidable_of_iff (P p)
      ⟨fun h _ _ he => by cases he; exact h, fun h => h p b rfl⟩

instance (m : Nat) (evs : List LogEvent) : Decidable (OpsBounded m evs) :=
  inferInstanceAs (Decidable (∀ k < evs.length, _))

instance (m : Nat) (evs : List LogEvent) : Decidable (TxnBelow m evs) :=
  inferInstanceAs (Decidable (∀ k < evs.length, _))

section snoc
variable (evs : List LogEvent) (p q b : Nat)

@[simp]
theorem txnBlocks_beginOp : txnBlocks (evs ++ [.beginOp p]) = txnBlocks evs := by
  simp [txnBlocks]

@[simp]
theorem txnBlocks_logWrite : txnBlocks (evs ++ [.logWrite p b]) = insert b (txnBlocks evs) := by
  simp [txnBlocks]

@[simp]
theorem txnBlocks_endOp : txnBlocks (evs ++ [.endOp p]) = txnBlocks evs := by
  simp [txnBlocks]

@[simp]
theorem txnBlocks_commit : txnBlocks (evs ++ [.commit]) = ∅ := by
  simp [txnBlocks]

@[simp]
theorem opBlocks_beginOp :
    opBlocks p (evs ++ [.beginOp q]) = if q = p then ∅ else opBlocks p evs := by
  simp [opBlocks]

@[simp]
theorem opBlocks_logWrite :
    opBlocks p (evs ++ [.logWrite q b])
      = if q = p then insert b (opBlocks p evs) else opBlocks p evs := by
  simp [opBlocks]

@[simp]
theorem opBlocks_endOp : opBlocks p (evs ++ [.endOp q]) = opBlocks p evs := by
  simp [opBlocks]

end snoc

theorem OpsBounded.of_snoc {evs : List LogEvent} (h : OpsBounded m (evs ++ [ev])) :
    OpsBounded m evs := by
  intro k hk p b hev
  have hlast := h k (by simp; omega) p b (by rw [getElem?_append_left hk]; exact hev)
  rwa [take_append_of_le_length (by omega)] at hlast

theorem OpsBounded.last {p b : Nat} {evs : List LogEvent}
    (h : OpsBounded m (evs ++ [.logWrite p b])) : (insert b (opBlocks p evs)).card ≤ m := by
  have hlast := h evs.length (by simp) p b (by simp)
  rw [take_of_length_le (by simp)] at hlast
  simpa using hlast

theorem TxnBelow.of_snoc {evs : List LogEvent} (h : TxnBelow m (evs ++ [ev])) : TxnBelow m evs := by
  intro k hk p b hev
  have hlast := h k (by simp; omega) p b (by rw [getElem?_append_left hk]; exact hev)
  rwa [take_append_of_le_length (by omega)] at hlast

theorem TxnBelow.last {p b : Nat} {evs : List LogEvent} (h : TxnBelow m (evs ++ [.logWrite p b])) :
    (txnBlocks evs).card < m := by
  have hlast := h evs.length (by simp) p b (by simp)
  simpa using hlast

/-- A step that is no `log_write` adds nothing to check. -/
theorem TxnBelow.snoc {evs : List LogEvent} (h : TxnBelow m evs)
    (hev : ∀ p b, ev = .logWrite p b → (txnBlocks evs).card < m) : TxnBelow m (evs ++ [ev]) := by
  intro k hk p b hk'
  rcases Nat.lt_or_ge k evs.length with hlt | hge
  · rw [getElem?_append_left hlt] at hk'
    rw [take_append_of_le_length (by omega)]
    exact h k hlt p b hk'
  · have hkeq : k = evs.length := by
      rw [length_append, length_singleton] at hk
      omega
    subst hkeq
    rw [getElem?_append_right (Nat.le_refl _)] at hk'
    simp only [Nat.sub_self, getElem?_cons_zero, Option.some.injEq] at hk'
    simpa using hev p b hk'

/-! ### The invariant of a run -/

/-- What holds in the state after the calls `evs`. -/
structure RunInv (evs : List LogEvent) (s : LogState) : Prop where
  size : s.log.size = LOGSIZE
  outstanding : s.log.outstanding = s.active.length
  nodup : s.active.Nodup
  committing : s.log.committing = true → s.active = []
  nonneg : 0 ≤ s.log.lh.n
  room : s.log.lh.n ≤ s.log.size - 1
  listed : ∀ b, (∃ t < s.log.lh.n.toNat, s.log.lh.block t = b) ↔ b ∈ txnBlocks evs
  distinct : ∀ t t', t < s.log.lh.n.toNat → t' < s.log.lh.n.toNat →
    s.log.lh.block t = s.log.lh.block t' → t = t'

/-- `lh.n` counts the distinct blocks logged since the last commit. -/
theorem RunInv.n_eq {evs : List LogEvent} (h : RunInv evs s) :
    s.log.lh.n = (txnBlocks evs).card := by
  have himage : txnBlocks evs = (Finset.range s.log.lh.n.toNat).image s.log.lh.block := by
    ext b
    rw [← h.listed b]
    simp
  have hinj : Set.InjOn s.log.lh.block (Finset.range s.log.lh.n.toNat) := by
    intro t ht t' ht' heq
    exact h.distinct t t' (Finset.mem_range.mp ht) (Finset.mem_range.mp ht') heq
  rw [himage, Finset.card_image_of_injOn hinj, Finset.card_range]
  exact (Int.toNat_of_nonneg h.nonneg).symm

theorem runInv_init : RunInv [] { log := mkfsLog, active := [] } where
  size := rfl
  outstanding := rfl
  nodup := List.nodup_nil
  committing := fun _ => rfl
  nonneg := Int.le_refl _
  room := by decide
  listed := by intro b; simp [mkfsLog, txnBlocks]
  distinct := by intro t t' ht; simp [mkfsLog] at ht

/-- A step of the log, with everything it can do. -/
theorem stepLog_cases (h : stepLog s ev = some (.ok s')) :
    (∃ p log', ev = .beginOp p ∧ p ∉ s.active ∧ s.log.beginOp = some log' ∧
      s' = { log := log', active := p :: s.active }) ∨
    (∃ p b log' added, ev = .logWrite p b ∧ p ∈ s.active ∧
      s.log.logWrite b = .ok (log', added) ∧ s' = { s with log := log' }) ∨
    (∃ p log' doCommit, ev = .endOp p ∧ p ∈ s.active ∧ s.log.endOp = .ok (log', doCommit) ∧
      s' = { log := log', active := s.active.erase p }) ∨
    (ev = .commit ∧ s.log.committing = true ∧
      s' = { s with log := (s.log.setN 0).endCommit }) := by
  cases ev with
  | beginOp p => cases hb : s.log.beginOp <;> grind [stepLog]
  | logWrite p b => cases hw : s.log.logWrite b <;> grind [stepLog, Except.map]
  | endOp p => cases he : s.log.endOp <;> grind [stepLog, Except.map]
  | commit => grind [stepLog]

/-- One step keeps the invariant. -/
theorem runInv_step {evs : List LogEvent} (hi : RunInv evs s) (h : stepLog s ev = some (.ok s')) :
    RunInv (evs ++ [ev]) s' := by
  rcases stepLog_cases h with ⟨p, log', rfl, hp, hb, rfl⟩ | ⟨p, b, log', added, rfl, hp, hw, rfl⟩ |
    ⟨p, log', doCommit, rfl, hp, he, rfl⟩ | ⟨rfl, hc, rfl⟩
  · obtain ⟨hc, -, rfl⟩ := beginOp_some hb
    have hlisted := hi.listed
    exact { hi with
      outstanding := by grind [RunInv]
      nodup := nodup_cons.mpr ⟨hp, hi.nodup⟩
      committing := by grind
      listed := by simpa using hlisted }
  · obtain ⟨hroom, hw⟩ := logWrite_ok hw hi.nonneg
    have hlisted := hi.listed
    have hn := hi.nonneg
    have hlast : s.log.lh.n.toNat < (s.log.lh.n + 1).toNat := by omega
    rcases hw with ⟨-, ⟨t, ht, hb⟩, rfl⟩ | ⟨-, hnew, rfl⟩
    · -- Absorbed: the block is among the logged ones already.
      refine { hi with listed := ?_ }
      grind [txnBlocks_logWrite]
    · have hdistinct := hi.distinct
      refine { hi with nonneg := ?_, room := ?_, listed := ?_, distinct := ?_ }
      · grind
      · grind
      · intro b'
        rw [txnBlocks_logWrite, Finset.mem_insert, ← hlisted b']
        constructor
        · grind
        · rintro (rfl | ⟨t, ht, htb⟩)
          · exact ⟨_, hlast, update_self _ _ _⟩
          · exact ⟨t, by grind⟩
      · grind
  · obtain ⟨hc, hdo, rfl⟩ := endOp_ok he
    have hlen : (s.active.erase p).length = s.active.length - 1 := length_erase_of_mem hp
    have hpos : 0 < s.active.length := length_pos_of_mem hp
    have hout := hi.outstanding
    have hlisted := hi.listed
    exact { hi with
      outstanding := by grind
      nodup := hi.nodup.erase p
      committing := fun hcom => length_eq_zero_iff.mp (by grind)
      listed := by simpa using hlisted }
  · have hsize := hi.size
    refine { hi with committing := ?_, nonneg := ?_, room := ?_, listed := ?_, distinct := ?_ } <;>
      grind [Log.setN, Log.endCommit, txnBlocks_commit, LOGSIZE, MAXOPBLOCKS]

/-- The run one step further. -/
theorem runLog_snoc (evs : List LogEvent) (ev : LogEvent) :
    runLog (evs ++ [ev])
      = match runLog evs with
        | some (.ok s) => stepLog s ev
        | r => r := by
  unfold runLog
  rw [foldl_append]
  rfl

/-- A run has panicked before its last step, or takes it. -/
theorem runLog_snoc_cases {evs : List LogEvent} {r : Except LogPanic LogState}
    (h : runLog (evs ++ [ev]) = some r) :
    (∃ e, runLog evs = some (.error e) ∧ r = .error e) ∨
      ∃ s, runLog evs = some (.ok s) ∧ stepLog s ev = some r := by
  rw [runLog_snoc] at h
  cases hr : runLog evs with
  | none => rw [hr] at h; cases h
  | some r₀ =>
    rw [hr] at h
    cases r₀ with
    | error e => exact .inl ⟨e, rfl, (Option.some.inj h).symm⟩
    | ok s => exact .inr ⟨s, rfl, h⟩

/-- The invariant holds along every run. -/
theorem runInv_run (evs : List LogEvent) :
    ∀ s, runLog evs = some (.ok s) → RunInv evs s := by
  induction evs using List.reverseRecOn with
  | nil =>
    intro s h
    cases h
    exact runInv_init
  | append_singleton evs ev ih =>
    intro s h
    rcases runLog_snoc_cases h with ⟨e, -, ⟨⟩⟩ | ⟨s₀, hr, hstep⟩
    exact runInv_step (ih s₀ hr) hstep

/-! ### When `log_write` panics -/

/-- A `log_write` inside an operation panics with "too big a transaction" exactly when 29
distinct blocks are logged, and never with another message. -/
theorem logWrite_error_iff {evs : List LogEvent} {p b : Nat} (hi : RunInv evs s)
    (hp : p ∈ s.active) :
    s.log.logWrite b = .error e ↔ e = .tooBig ∧ LOGSIZE - 1 ≤ (txnBlocks evs).card := by
  have hn := hi.n_eq
  have hlen : 0 < s.active.length := length_pos_of_mem hp
  have hout : ¬ s.log.outstanding < 1 := by
    rw [hi.outstanding]
    omega
  unfold Log.logWrite
  rw [hi.size, if_neg hout, hn]
  have hcap : ((txnBlocks evs).card : Int) ≥ LOGSIZE ∨
      ((txnBlocks evs).card : Int) ≥ LOGSIZE - 1 ↔ LOGSIZE - 1 ≤ (txnBlocks evs).card := by
    unfold LOGSIZE MAXOPBLOCKS
    omega
  by_cases hfull : LOGSIZE - 1 ≤ (txnBlocks evs).card
  · rw [if_pos (hcap.mpr hfull)]
    constructor
    · intro h
      cases h
      exact ⟨rfl, hfull⟩
    · rintro ⟨rfl, -⟩
      rfl
  · rw [if_neg (fun h => hfull (hcap.mp h))]
    constructor
    · intro h
      simp only at h
      split at h <;> cases h
    · rintro ⟨-, h⟩
      exact absurd h hfull

/-- `end_op` never finds a commit in progress, so no run ends in that panic. -/
theorem endOp_ne_error {evs : List LogEvent} {p : Nat} (hi : RunInv evs s) (hp : p ∈ s.active) :
    s.log.endOp ≠ .error e := by
  intro h
  unfold Log.endOp at h
  simp only at h
  split at h
  · rename_i hc
    rw [hi.committing hc] at hp
    simp at hp
  · split at h <;> cases h

/-- A step that panics is a `log_write` with 29 distinct blocks logged. -/
theorem stepLog_error {evs : List LogEvent} (hi : RunInv evs s)
    (h : stepLog s ev = some (.error e)) :
    e = .tooBig ∧ LOGSIZE - 1 ≤ (txnBlocks evs).card ∧ ∃ p b, ev = .logWrite p b := by
  have hwrite := fun p b => logWrite_error_iff (b := b) (e := e) (p := p) hi
  have hend := fun p => endOp_ne_error (e := e) (p := p) hi
  cases ev with
  | beginOp p => cases hb : s.log.beginOp <;> grind [stepLog]
  | logWrite p b => cases hw : s.log.logWrite b <;> grind [stepLog, Except.map]
  | endOp p => cases he : s.log.endOp <;> grind [stepLog, Except.map]
  | commit => grind [stepLog]

/-- The only panic a run can end in is "too big a transaction". -/
theorem runLog_error (evs : List LogEvent) :
    ∀ e, runLog evs = some (.error e) → e = .tooBig := by
  induction evs using List.reverseRecOn with
  | nil => intro e h; cases h
  | append_singleton evs ev ih =>
    intro e h
    rcases runLog_snoc_cases h with ⟨e', hr, ⟨⟩⟩ | ⟨s, hr, hstep⟩
    · exact ih e hr
    · exact (stepLog_error (runInv_run evs s hr) hstep).1

/-- A run does not panic exactly when no `log_write` in it comes with 29 distinct blocks
already logged. -/
theorem runLog_tooBig_iff (evs : List LogEvent) (hrun : runLog evs ≠ none) :
    runLog evs ≠ some (.error .tooBig) ↔ TxnBelow (LOGSIZE - 1) evs := by
  induction evs using List.reverseRecOn with
  | nil =>
    constructor
    · intro _ k hk
      simp at hk
    · intro _ h
      cases h
  | append_singleton evs ev ih =>
    rw [runLog_snoc] at hrun ⊢
    cases hr : runLog evs with
    | none => rw [hr] at hrun; exact absurd rfl hrun
    | some r =>
      have ih' := ih (by rw [hr]; simp)
      rw [hr] at ih' hrun
      cases r with
      | error e =>
        -- The earlier part has panicked already.
        have he := runLog_error evs e hr
        subst he
        constructor
        · intro h
          exact absurd rfl h
        · intro h
          exact absurd rfl (ih'.mpr h.of_snoc)
      | ok s =>
        have hi := runInv_run evs s hr
        have hbelow : TxnBelow (LOGSIZE - 1) evs := ih'.mp (by intro h; cases h)
        constructor
        · intro hno
          refine hbelow.snoc ?_
          rintro p b rfl
          by_contra hfull
          -- The block is logged inside an operation, so the step is possible.
          simp only [stepLog] at hno hrun
          split at hno
          · rename_i hp
            have herr := (logWrite_error_iff (b := b) (e := .tooBig) hi hp).mpr
              ⟨rfl, Nat.not_lt.mp hfull⟩
            rw [herr] at hno
            exact hno rfl
          · rename_i hp
            rw [if_neg hp] at hrun
            exact hrun rfl
        · intro h herr
          obtain ⟨-, hfull, p, b, rfl⟩ := stepLog_error hi herr
          have := h.last
          omega

/-- **When the log is too small.** A run of `begin_op`, `log_write` and `end_op` by any
processes reaches no "too big a transaction" panic if and only if no `log_write` in it
comes when `LOGSIZE - 1` distinct blocks have been logged since the last commit; and `lh.n`
never exceeds the `log.size - 1` data blocks of the log. -/
theorem log_write_no_panic_iff (evs : List LogEvent) (hrun : runLog evs ≠ none) :
    (runLog evs ≠ some (.error .tooBig) ↔ TxnBelow (LOGSIZE - 1) evs) ∧
    ∀ s, runLog evs = some (.ok s) → s.log.lh.n ≤ s.log.size - 1 :=
  ⟨runLog_tooBig_iff evs hrun, fun s hs => (runInv_run evs s hs).room⟩

/-- Three operations are admitted together, and each logs ten blocks of its own. -/
def threeFullOps : List LogEvent :=
  [.beginOp 0, .beginOp 1, .beginOp 2] ++
    (List.range 10).map (fun b => .logWrite 0 (50 + b)) ++
    (List.range 10).map (fun b => .logWrite 1 (60 + b)) ++
    (List.range 10).map (fun b => .logWrite 2 (70 + b))

/-- The last `log_write` of `threeFullOps` panics, though every operation keeps to
`MAXOPBLOCKS` distinct blocks. -/
theorem log_write_panics_three_full_ops :
    OpsBounded MAXOPBLOCKS threeFullOps ∧ runLog threeFullOps = some (.error .tooBig) :=
  ⟨by decide +kernel, by rfl⟩

/-- Without its last call the run is panic-free, with 29 blocks logged. -/
theorem log_write_no_panic_iff_dropLast :
    runLog threeFullOps.dropLast ≠ some (.error .tooBig) :=
  (log_write_no_panic_iff threeFullOps.dropLast (by intro h; cases h)).1.mpr (by decide +kernel)

/-! ### The reservation argument -/

/-- What the outstanding operations may still log when each may log `m` blocks. -/
def reserved (m : Nat) (evs : List LogEvent) (active : List Nat) : Nat :=
  (active.map fun p => m - (opBlocks p evs).card).sum

theorem reserved_le (m : Nat) (evs : List LogEvent) (active : List Nat) :
    reserved m evs active ≤ m * active.length := by
  unfold reserved
  induction active with
  | nil => simp
  | cons p rest ih =>
    rw [map_cons, sum_cons, length_cons, Nat.mul_succ]
    omega

/-- The share of one operation, split off. -/
theorem reserved_erase (m : Nat) (evs : List LogEvent) {p : Nat} {active : List Nat}
    (hp : p ∈ active) :
    m - (opBlocks p evs).card + reserved m evs (active.erase p) = reserved m evs active :=
  sum_map_erase (fun p => m - (opBlocks p evs).card) hp

/-- The share of the operations that a call does not belong to stays the same. -/
theorem reserved_congr {evs evs' : List LogEvent} {active : List Nat}
    (h : ∀ p ∈ active, opBlocks p evs' = opBlocks p evs) :
    reserved m evs' active = reserved m evs active := by
  unfold reserved
  congr 1
  apply map_congr_left
  intro p hp
  rw [h p hp]

/-- The reservation invariant of operations of at most nine blocks. An operation that is
admitted next to another one leaves one block of its reservation of ten unused, and so does
the other, which is what keeps two blocks free. -/
structure NineInv (evs : List LogEvent) (s : LogState) : Prop where
  idle : s.log.committing = false → s.active = [] → txnBlocks evs = ∅
  own : ∀ p ∈ s.active, opBlocks p evs ⊆ txnBlocks evs
  sum : (txnBlocks evs).card + reserved 9 evs s.active ≤ LOGSIZE - 2

/-- One step keeps the reservations. A block that is new to the transaction is paid for by the
operation that logs it. -/
theorem nineInv_step {evs : List LogEvent} (hr : RunInv evs s) (hi : NineInv evs s)
    (hops : OpsBounded 9 (evs ++ [ev])) (h : stepLog s ev = some (.ok s')) :
    NineInv (evs ++ [ev]) s' := by
  have hsum := hi.sum
  rcases stepLog_cases h with ⟨p, log', rfl, hp, hb, rfl⟩ | ⟨p, b, log', added, rfl, hp, hw, rfl⟩ |
    ⟨p, log', doCommit, rfl, hp, he, rfl⟩ | ⟨rfl, hc, rfl⟩
  · obtain ⟨hc, hroom, rfl⟩ := beginOp_some hb
    have hkeep : ∀ q ∈ s.active, opBlocks q (evs ++ [.beginOp p]) = opBlocks q evs := by
      grind [opBlocks_beginOp]
    refine ⟨fun _ hnil => absurd hnil (cons_ne_nil _ _), ?_, ?_⟩
    · have := hi.own
      grind [txnBlocks_beginOp, opBlocks_beginOp]
    · rw [txnBlocks_beginOp]
      have hnew : reserved 9 (evs ++ [.beginOp p]) (p :: s.active)
          = 9 + reserved 9 evs s.active := by
        rw [← reserved_congr hkeep]
        simp [reserved]
      have hle := reserved_le 9 evs s.active
      rw [hnew]
      rw [hr.n_eq, hr.outstanding] at hroom
      unfold LOGSIZE MAXOPBLOCKS at *
      rcases Nat.eq_zero_or_pos s.active.length with hzero | hpos
      · have hempty := hi.idle hc (length_eq_zero_iff.mp hzero)
        rw [hempty, Finset.card_empty]
        omega
      · omega
  · have hbound := hops.last
    have hsub := hi.own p hp
    have hkeep : ∀ q ∈ s.active.erase p,
        opBlocks q (evs ++ [.logWrite p b]) = opBlocks q evs := by
      have := hr.nodup.not_mem_erase (a := p)
      grind [opBlocks_logWrite]
    refine ⟨fun _ hnil => absurd hp (by grind), ?_, ?_⟩
    · have := hi.own
      grind [opBlocks_logWrite, txnBlocks_logWrite]
    · have hold := reserved_erase 9 evs hp
      have hnew := reserved_erase 9 (evs ++ [.logWrite p b]) hp
      rw [reserved_congr hkeep, opBlocks_logWrite, if_pos rfl] at hnew
      rw [txnBlocks_logWrite]
      show (insert b (txnBlocks evs)).card + reserved 9 (evs ++ [.logWrite p b]) s.active ≤ _
      -- A block new to the transaction is new to the operation as well.
      by_cases hin : b ∈ txnBlocks evs
      · rw [Finset.insert_eq_self.mpr hin]
        have hmono := Finset.card_le_card (Finset.subset_insert b (opBlocks p evs))
        omega
      · have hnotin : b ∉ opBlocks p evs := fun hmem => hin (hsub hmem)
        rw [Finset.card_insert_of_notMem hin]
        rw [Finset.card_insert_of_notMem hnotin] at hnew hbound
        omega
  · obtain ⟨hc, hdo, rfl⟩ := endOp_ok he
    have hkeep : ∀ q ∈ s.active.erase p,
        opBlocks q (evs ++ [.endOp p]) = opBlocks q evs := fun q _ => opBlocks_endOp ..
    refine ⟨?_, ?_, ?_⟩
    · intro hncom hnil
      have hlen : (s.active.erase p).length = s.active.length - 1 := length_erase_of_mem hp
      have hpos : 0 < s.active.length := length_pos_of_mem hp
      have hout := hr.outstanding
      grind
    · intro q hq
      rw [opBlocks_endOp, txnBlocks_endOp]
      exact hi.own q (mem_of_mem_erase hq)
    · have hold := reserved_erase 9 evs hp
      rw [txnBlocks_endOp, reserved_congr hkeep]
      omega
  · have hnil := hr.committing hc
    refine ⟨fun _ _ => txnBlocks_commit evs, ?_, ?_⟩
    · intro q hq
      rw [show s.active = [] from hnil] at hq
      simp at hq
    · rw [txnBlocks_commit]
      show _ + reserved 9 _ s.active ≤ _
      rw [hnil]
      exact Nat.zero_le _

/-- The reservations hold along every run of such operations. -/
theorem nineInv_run (evs : List LogEvent) :
    OpsBounded 9 evs → ∀ s, runLog evs = some (.ok s) → NineInv evs s := by
  induction evs using List.reverseRecOn with
  | nil =>
    intro _ s h
    cases h
    exact ⟨fun _ _ => rfl, by simp, by decide⟩
  | append_singleton evs ev ih =>
    intro hops s h
    rcases runLog_snoc_cases h with ⟨e, -, ⟨⟩⟩ | ⟨s₀, hr, hstep⟩
    exact nineInv_step (runInv_run evs s₀ hr) (ih hops.of_snoc s₀ hr) hops hstep

/-- Operations of at most nine distinct blocks never reach the panic: a bound of one less
than `MAXOPBLOCKS` makes up for the header block. -/
theorem nine_block_ops_never_panic (evs : List LogEvent) (hops : OpsBounded 9 evs) :
    ∀ e, runLog evs ≠ some (.error e) := by
  induction evs using List.reverseRecOn with
  | nil => intro e h; cases h
  | append_singleton evs ev ih =>
    intro e h
    rcases runLog_snoc_cases h with ⟨e', hr, -⟩ | ⟨s, hr, hstep⟩
    · exact ih hops.of_snoc e' hr
    · have hfull := (stepLog_error (runInv_run evs s hr) hstep).2.1
      have hsum := (nineInv_run evs hops.of_snoc s hr).sum
      unfold LOGSIZE MAXOPBLOCKS at *
      omega

/-- Three operations, the first of which has logged nine blocks. -/
theorem nine_block_ops_never_panic_take : runLog (threeFullOps.take 12) ≠ some (.error .tooBig) :=
  nine_block_ops_never_panic _ (by decide +kernel) _

end Xv6.Proofs
