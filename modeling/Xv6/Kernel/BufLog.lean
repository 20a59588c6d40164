import Xv6.Kernel.Bio
import Xv6.Kernel.LogOps

/-!
# `Xv6.Kernel.BufLog`: processes at the buffer cache and the log

The system is the disk, the buffer cache, the log, and for every process the buffers it is
using. Any process may call `bread`, change a buffer it holds, and call `log_write`,
`brelse`, `begin_op` and `end_op`, in any order and interleaved with the others at every
release of a lock:

* `bread` is the critical section of `bget`, then `acquiresleep`, then the read of the disk;
* `brelse` is `releasesleep`, then the critical section that drops the reference;
* `commit` is one statement at a time, with its own calls of `bread` and `brelse`.

Two rules are the callers': a buffer is changed only by the process that holds it, and a
changed buffer is passed to `log_write` before its `brelse`. Callers write blocks outside
the log area only.

`abs` is not in the source. It is the abstract disk: the contents each block was last given
by a process that passed it to `log_write`.
-/

set_option autoImplicit false

namespace Xv6

/-- Where a process is with a buffer that `bget` gave it. -/
inductive Phase where
  /-- in `acquiresleep` -/
  | waiting
  /-- holds the sleep lock, `bread` has not returned -/
  | reading
  /-- `bread` has returned; whether the data were changed, and whether `log_write` was
  called -/
  | held (dirty logged : Bool)
  /-- in `brelse`, after `releasesleep` -/
  | releasing
  deriving DecidableEq

/-- The process holds the sleep lock in this phase. -/
def Phase.locks : Phase → Bool
  | .reading => true
  | .held _ _ => true
  | _ => false

/-- `bread` has returned and `brelse` has not been called. -/
def Phase.isHeld : Phase → Bool
  | .held _ _ => true
  | _ => false

/-- A reference to buffer `buf` by process `tid`. -/
structure Use where
  tid : Nat
  buf : Fin NBUF
  phase : Phase
  deriving DecidableEq

/-- The next statement of `commit()`, with the local variables that are still live. -/
inductive CommitPc where
  | wlTo (tail : Nat)
  | wlFrom (tail : Nat) (tbuf : Fin NBUF)
  | wlCopy (tail : Nat) (tbuf fbuf : Fin NBUF)
  | wlRelFrom (tail : Nat) (tbuf fbuf : Fin NBUF)
  | wlRelTo (tail : Nat) (tbuf : Fin NBUF)
  | hdBread (cleared : Bool)
  | hdWrite (cleared : Bool) (buf : Fin NBUF)
  | hdRel (cleared : Bool) (buf : Fin NBUF)
  | itLog (tail : Nat)
  | itDst (tail : Nat) (lbuf : Fin NBUF)
  | itCopy (tail : Nat) (lbuf dbuf : Fin NBUF)
  | itUnpin (tail : Nat) (lbuf dbuf : Fin NBUF)
  | itRelLog (tail : Nat) (lbuf dbuf : Fin NBUF)
  | itRelDst (tail : Nat) (dbuf : Fin NBUF)
  | clear
  | done

/-- The whole system. `active` are the processes between `begin_op` and `end_op`, and
`commit` is the process inside `commit()`. -/
structure Sys where
  disk : Disk
  bc : BCache
  log : Log
  uses : List Use
  active : List Nat
  commit : Option (Nat × CommitPc)
  abs : Disk

namespace Sys

/-- Process `p` is inside no `bread` and no `brelse`. -/
def idle (s : Sys) (p : Nat) : Bool :=
  s.uses.all fun u => u.tid != p || u.phase.isHeld

/-- Process `p` is about to make a call of its own: it is in no call and not in
`commit()`. -/
def caller (s : Sys) (p : Nat) : Bool :=
  s.idle p && !(s.commit.any fun c => c.1 == p)

/-- Whether `p` holds buffer `i`, and its flags. -/
def heldBy (s : Sys) (p : Nat) (i : Fin NBUF) : Option (Bool × Bool) :=
  s.uses.findSome? fun u =>
    match u.phase with
    | .held dirty logged => if u.tid = p ∧ u.buf = i then some (dirty, logged) else none
    | _ => none

/-- The reference `u` moves on to another phase. -/
def move (s : Sys) (u : Use) (phase : Phase) : Sys :=
  { s with uses := { u with phase := phase } :: s.uses.erase u }

/-- `p` calls `bread(log.dev, b)`: the critical section of `bget`. -/
def startBread (s : Sys) (p b : Nat) : Option (Fin NBUF × Sys) :=
  (s.bc.bget s.log.dev b).map fun r =>
    (r.1, { s with bc := r.2, uses := ⟨p, r.1, .waiting⟩ :: s.uses })

/-- `acquiresleep` succeeds. -/
def acquire (s : Sys) (p : Nat) (i : Fin NBUF) : Option Sys :=
  let u : Use := ⟨p, i, .waiting⟩
  if u ∈ s.uses ∧ (s.bc.buf i).lock = none then
    some { s.move u .reading with bc := s.bc.set i { s.bc.buf i with lock := some p } }
  else none

/-- The rest of `bread`: read the disk if the buffer is not valid, and return. -/
def fill (s : Sys) (p : Nat) (i : Fin NBUF) : Option Sys :=
  let u : Use := ⟨p, i, .reading⟩
  if u ∈ s.uses then
    let b := s.bc.buf i
    let b' := if b.valid then b else { b with data := s.disk b.blockno, valid := true }
    some { s.move u (.held false false) with bc := s.bc.set i b' }
  else none

/-- `p` changes the contents of buffer `i`. After `log_write` the change belongs to the
logged contents. -/
def modify (s : Sys) (p : Nat) (i : Fin NBUF) (data : Block) : Option Sys :=
  let b := s.bc.buf i
  if s.log.InArea b.blockno then none
  else
    (s.heldBy p i).map fun f =>
      { s.move ⟨p, i, .held f.1 f.2⟩ (.held true f.2) with
        bc := s.bc.set i { b with data := data }
        abs := if f.2 then Function.update s.abs b.blockno data else s.abs }

/-- `p` calls `log_write` on buffer `i`. -/
def logWrite (s : Sys) (p : Nat) (i : Fin NBUF) : Option Sys :=
  let b := s.bc.buf i
  if s.log.InArea b.blockno then none
  else
    (s.heldBy p i).bind fun f =>
      match s.log.logWrite b.blockno with
      | .error _ => none
      | .ok (log, added) =>
        some { s.move ⟨p, i, .held f.1 f.2⟩ (.held f.1 true) with
          bc := if added then s.bc.bpin i else s.bc
          log := log
          abs := Function.update s.abs b.blockno b.data }

/-- The first half of `brelse`: `releasesleep`. -/
def releasesleep (s : Sys) (p : Nat) (i : Fin NBUF) : Option Sys :=
  (s.heldBy p i).bind fun f =>
    if (s.bc.buf i).lock = some p ∧ (f.1 = true → f.2 = true) then
      some { s.move ⟨p, i, .held f.1 f.2⟩ .releasing with
        bc := s.bc.set i { s.bc.buf i with lock := none } }
    else none

/-- The second half of `brelse`: drop the reference. -/
def unref (s : Sys) (p : Nat) (i : Fin NBUF) : Option Sys :=
  let u : Use := ⟨p, i, .releasing⟩
  if u ∈ s.uses then
    some { s with bc := s.bc.unref i, uses := s.uses.erase u }
  else none

def beginOp (s : Sys) (p : Nat) : Option Sys :=
  if p ∈ s.active then none
  else s.log.beginOp.map fun log => { s with log := log, active := p :: s.active }

/-- `end_op` up to `commit()`, which its process enters when it was the last one. -/
def endOp (s : Sys) (p : Nat) : Option Sys :=
  if p ∈ s.active then
    match s.log.endOp with
    | .error _ => none
    | .ok (log, doCommit) =>
      some { s with
        log := log
        active := s.active.erase p
        commit :=
          if doCommit then some (p, if log.lh.n > 0 then .wlTo 0 else .done) else s.commit }
  else none

/-- `bwrite` of a held buffer with new contents. -/
def bwrite (s : Sys) (p : Nat) (i : Fin NBUF) (data : Block) : Option Sys :=
  if (s.bc.buf i).lock = some p then
    some { s with
      bc := s.bc.set i { s.bc.buf i with data := data }
      disk := Function.update s.disk (s.bc.buf i).blockno data }
  else none

/-- The process in `commit()` goes on to `pc`. -/
def goto (s : Sys) (p : Nat) (pc : CommitPc) : Sys := { s with commit := some (p, pc) }

/-- The next statement of `commit()`. -/
def commitStep (s : Sys) : Option Sys :=
  match s.commit with
  | none => none
  | some (p, pc) =>
    if s.idle p then
      match pc with
      -- write_log
      | .wlTo tail =>
        if (tail : Int) < s.log.lh.n then
          (s.startBread p (s.log.start + tail + 1)).map fun r => r.2.goto p (.wlFrom tail r.1)
        else some (s.goto p (.hdBread false))
      | .wlFrom tail tbuf =>
        (s.startBread p (s.log.lh.block tail)).map fun r => r.2.goto p (.wlCopy tail tbuf r.1)
      | .wlCopy tail tbuf fbuf =>
        (s.bwrite p tbuf (s.bc.buf fbuf).data).map fun s' => s'.goto p (.wlRelFrom tail tbuf fbuf)
      | .wlRelFrom tail tbuf fbuf =>
        (s.releasesleep p fbuf).map fun s' => s'.goto p (.wlRelTo tail tbuf)
      | .wlRelTo tail tbuf =>
        (s.releasesleep p tbuf).map fun s' => s'.goto p (.wlTo (tail + 1))
      -- write_head, before and after log.lh.n = 0
      | .hdBread cleared =>
        (s.startBread p s.log.start).map fun r => r.2.goto p (.hdWrite cleared r.1)
      | .hdWrite cleared buf =>
        (s.bwrite p buf (putHead s.log.lh (s.bc.buf buf).data)).map
          fun s' => s'.goto p (.hdRel cleared buf)
      | .hdRel cleared buf =>
        (s.releasesleep p buf).map fun s' => s'.goto p (if cleared then .done else .itLog 0)
      -- install_trans(0)
      | .itLog tail =>
        if (tail : Int) < s.log.lh.n then
          (s.startBread p (s.log.start + tail + 1)).map fun r => r.2.goto p (.itDst tail r.1)
        else some (s.goto p .clear)
      | .itDst tail lbuf =>
        (s.startBread p (s.log.lh.block tail)).map fun r => r.2.goto p (.itCopy tail lbuf r.1)
      | .itCopy tail lbuf dbuf =>
        (s.bwrite p dbuf (s.bc.buf lbuf).data).map fun s' => s'.goto p (.itUnpin tail lbuf dbuf)
      | .itUnpin tail lbuf dbuf =>
        some ({ s with bc := s.bc.bunpin dbuf }.goto p (.itRelLog tail lbuf dbuf))
      | .itRelLog tail lbuf dbuf =>
        (s.releasesleep p lbuf).map fun s' => s'.goto p (.itRelDst tail dbuf)
      | .itRelDst tail dbuf =>
        (s.releasesleep p dbuf).map fun s' => s'.goto p (.itLog (tail + 1))
      | .clear => some ({ s with log := s.log.setN 0 }.goto p (.hdBread true))
      -- the critical section of end_op after commit()
      | .done => some { s with log := s.log.endCommit, commit := none }
    else none

end Sys

/-- What can happen next. The last four belong to calls that are under way. -/
inductive Act where
  | bread (p b : Nat)
  | modify (p : Nat) (i : Fin NBUF) (data : Block)
  | logWrite (p : Nat) (i : Fin NBUF)
  | brelse (p : Nat) (i : Fin NBUF)
  | beginOp (p : Nat)
  | endOp (p : Nat)
  | acquire (p : Nat) (i : Fin NBUF)
  | fill (p : Nat) (i : Fin NBUF)
  | unref (p : Nat) (i : Fin NBUF)
  | commit

/-- One step of the system; `none` when it is not possible or panics. -/
def stepSys (s : Sys) : Act → Option Sys
  | .bread p b => if s.caller p then (s.startBread p b).map Prod.snd else none
  | .modify p i data => if s.caller p then s.modify p i data else none
  | .logWrite p i => if s.caller p then s.logWrite p i else none
  | .brelse p i => if s.caller p then s.releasesleep p i else none
  | .beginOp p => if s.caller p then s.beginOp p else none
  | .endOp p => if s.caller p then s.endOp p else none
  | .acquire p i => s.acquire p i
  | .fill p i => s.fill p i
  | .unref p i => s.unref p i
  | .commit => s.commitStep

/-- A run of the system. -/
def runSys (s : Sys) : List Act → Option Sys
  | [] => some s
  | a :: acts => (stepSys s a).bind fun s' => runSys s' acts

end Xv6
