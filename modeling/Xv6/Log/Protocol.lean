import Mathlib.Data.Finset.Card
import Mathlib.Data.Fintype.Basic
import Xv6.Disk

/-!
# `begin_op`, `log_write` and `end_op` as interleaved steps

The in-memory side of `log.c`: any number of processes enter, log blocks and leave, and the last
one out commits. Each process has a program counter; a step moves one process. Between two steps
any other process may run.

## What is one step

`log.lock` and `ptable.lock` are explicit, so a critical section is the steps between taking and
releasing one of them. Three things are deliberately not folded into their neighbours:

* `log_write` reads `log.lh.n` and `log.outstanding` before it takes the lock, so its two tests
  are steps of their own and anything may happen between them and the append;
* `sleep` takes `ptable.lock`, then releases `log.lock`, then marks the process `SLEEPING`, so a
  waker can get in between and find the process not asleep yet;
* `commit` runs with no lock held.

What `commit` does to the disk is the subject of `Log.Recovery`; here it reads `lh` and later
sets `lh.n` to zero. `kill` may make a sleeping process runnable at any time.

The field `history` is a ghost: the completed `begin_op`s, the size tests passed, the completed
`log_write`s, the `end_op`s and the commits, newest first. No step reads it.
-/

namespace Xv6

inductive Pc where
  | idle
  /-- `begin_op`: about to `acquire(&log.lock)`. -/
  | beginAcquire
  /-- At the top of `while(1)`, holding `log.lock`. -/
  | beginTest
  /-- In `sleep`, about to `acquire(&ptable.lock)`. -/
  | sleepAcquire
  /-- In `sleep`, about to `release(lk)`. -/
  | sleepRelease
  /-- In `sleep`, about to set `SLEEPING` and switch to the scheduler. -/
  | sleepSet
  /-- `SLEEPING` on `&log`. -/
  | sleeping
  | woken
  /-- Between `begin_op` and `end_op`. -/
  | inOp
  /-- `log_write`: about to test `log.lh.n`. -/
  | writeTestSize (b : ℕ)
  /-- About to test `log.outstanding`. -/
  | writeTestOutstanding (b : ℕ)
  /-- About to `acquire(&log.lock)`. -/
  | writeAcquire (b : ℕ)
  /-- Holding `log.lock`, about to absorb or append. -/
  | writeAppend (b : ℕ)
  /-- `end_op`: about to `acquire(&log.lock)`. -/
  | endAcquire
  /-- Holding `log.lock`, about to decrement `log.outstanding`. -/
  | endLocked
  /-- About to `wakeup(&log)`, holding `log.lock`. -/
  | endWakeup
  /-- About to release `log.lock`, with `do_commit` decided. -/
  | endRelease (doCommit : Bool)
  /-- In `commit`, about to test `log.lh.n` and write the log. -/
  | commitTest
  /-- The transaction is installed; about to set `log.lh.n = 0`. -/
  | commitClear
  /-- Back in `end_op`, about to `acquire(&log.lock)`. -/
  | commitAcquire
  /-- About to clear `log.committing`. -/
  | commitLocked
  /-- About to `wakeup(&log)`, holding `log.lock`. -/
  | commitWakeup
  /-- About to release `log.lock`. -/
  | commitRelease
  deriving DecidableEq, Repr

/-- The panics of `log_write` and `end_op`. -/
inductive LogPanic where
  /-- `panic("too big a transaction")`. -/
  | tooBig
  /-- `panic("log_write outside of trans")`. -/
  | outsideTrans
  /-- `panic("log.committing")`. -/
  | committing
  deriving DecidableEq, Repr

inductive LogEvent (P : Type) where
  /-- `begin_op` returns. -/
  | begin (p : P)
  /-- The size test of `log_write(b)` passes. -/
  | claim (p : P) (b : ℕ)
  /-- `log_write(b)` returns. -/
  | log (p : P) (b : ℕ)
  /-- `end_op` decrements `log.outstanding`. -/
  | finish (p : P)
  /-- `commit` writes these blocks. -/
  | commit (blocks : List ℕ)
  deriving DecidableEq, Repr

/-- The log, the two locks, and every process's program counter. -/
structure LogState (P : Type) where
  /-- The process holding `log.lock`. -/
  lock : Option P
  /-- The process holding `ptable.lock` in `sleep`. -/
  ptableLock : Option P
  outstanding : ℤ
  /-- In `commit`, please wait. -/
  committing : Bool
  /-- `log.lh.block[0..log.lh.n)`. -/
  lh : List ℕ
  pc : P → Pc
  panic : Option LogPanic
  history : List (LogEvent P)

/-- The choices of the environment: what a process does next when it is free to choose, who runs,
and whom `kill` hits. -/
inductive LogAction (P : Type) where
  | beginOp (p : P)
  | logWrite (p : P) (b : ℕ)
  | endOp (p : P)
  | run (p : P)
  | kill (p : P)
  deriving DecidableEq, Repr

variable {P : Type} [DecidableEq P]

namespace LogState

def init : LogState P where
  lock := none
  ptableLock := none
  outstanding := 0
  committing := false
  lh := []
  pc := fun _ => .idle
  panic := none
  history := []

/-- Move process `p` to `c`. -/
def goto (s : LogState P) (p : P) (c : Pc) : LogState P :=
  { s with pc := fun q => if q = p then c else s.pc q }

/-- `wakeup(&log)`: every process sleeping on `&log` becomes runnable. -/
def wakeup (s : LogState P) : LogState P :=
  { s with pc := fun q => if s.pc q = .sleeping then .woken else s.pc q }

def fail (s : LogState P) (e : LogPanic) : LogState P := { s with panic := some e }

def record (s : LogState P) (e : LogEvent P) : LogState P := { s with history := e :: s.history }

end LogState

/-- The search and store of `log_write`: `i` is the first slot holding `b`, or `n`. -/
def logAppend (lh : List ℕ) (b : ℕ) : List ℕ :=
  let i := lh.idxOf b
  if i = lh.length then lh ++ [b] else lh.set i b

/-- The admission test of `begin_op`: the log might run out if one more operation started. -/
def LogState.mustWait (s : LogState P) : Bool :=
  s.committing || decide ((s.lh.length : ℤ) + (s.outstanding + 1) * MAXOPBLOCKS > LOGSIZE)

/-- The size test of `log_write`. -/
def tooBig (size : ℕ) (lh : List ℕ) : Bool :=
  decide (lh.length ≥ LOGSIZE) || decide ((lh.length : ℤ) ≥ size - 1)

/-- Process `p` takes its next step, in a log of `size` blocks. -/
def LogState.runStep (size : ℕ) (s : LogState P) (p : P) : Option (LogState P) :=
  match s.pc p with
  | .idle => none
  | .beginAcquire =>
    if s.lock = none then some ({ s with lock := some p }.goto p .beginTest) else none
  | .beginTest =>
    if s.mustWait then some (s.goto p .sleepAcquire)
    else some (({ s with outstanding := s.outstanding + 1, lock := none }.goto p .inOp).record
      (.begin p))
  | .sleepAcquire =>
    if s.ptableLock = none then some ({ s with ptableLock := some p }.goto p .sleepRelease)
    else none
  | .sleepRelease => some ({ s with lock := none }.goto p .sleepSet)
  | .sleepSet => some ({ s with ptableLock := none }.goto p .sleeping)
  | .sleeping => none
  -- the scheduler runs with ptable.lock held, and sleep() releases it before it takes lk again
  | .woken => if s.ptableLock = none then some (s.goto p .beginAcquire) else none
  | .inOp => none
  | .writeTestSize b =>
    if tooBig size s.lh then some (s.fail .tooBig)
    else some ((s.goto p (.writeTestOutstanding b)).record (.claim p b))
  | .writeTestOutstanding b =>
    if s.outstanding < 1 then some (s.fail .outsideTrans) else some (s.goto p (.writeAcquire b))
  | .writeAcquire b =>
    if s.lock = none then some ({ s with lock := some p }.goto p (.writeAppend b)) else none
  | .writeAppend b =>
    some (({ s with lh := logAppend s.lh b, lock := none }.goto p .inOp).record (.log p b))
  | .endAcquire =>
    if s.lock = none then some ({ s with lock := some p }.goto p .endLocked) else none
  | .endLocked =>
    if s.committing then some (s.fail .committing)
    else if s.outstanding - 1 = 0 then
      some (({ s with outstanding := s.outstanding - 1, committing := true }.goto p
        (.endRelease true)).record (.finish p))
    else
      some (({ s with outstanding := s.outstanding - 1 }.goto p .endWakeup).record (.finish p))
  | .endWakeup =>
    if s.ptableLock = none then some (s.wakeup.goto p (.endRelease false)) else none
  | .endRelease doCommit =>
    some ({ s with lock := none }.goto p (if doCommit then .commitTest else .idle))
  | .commitTest =>
    some ((s.goto p (if s.lh.length > 0 then .commitClear else .commitAcquire)).record
      (.commit s.lh))
  | .commitClear => some ({ s with lh := [] }.goto p .commitAcquire)
  | .commitAcquire =>
    if s.lock = none then some ({ s with lock := some p }.goto p .commitLocked) else none
  | .commitLocked => some ({ s with committing := false }.goto p .commitWakeup)
  | .commitWakeup =>
    if s.ptableLock = none then some (s.wakeup.goto p .commitRelease) else none
  | .commitRelease => some ({ s with lock := none }.goto p .idle)

/-- One step of the system; nothing happens after a panic. -/
def LogState.step (size : ℕ) (s : LogState P) (a : LogAction P) : Option (LogState P) :=
  if s.panic ≠ none then none else
  match a with
  | .beginOp p => if s.pc p = .idle then some (s.goto p .beginAcquire) else none
  | .logWrite p b => if s.pc p = .inOp then some (s.goto p (.writeTestSize b)) else none
  | .endOp p => if s.pc p = .inOp then some (s.goto p .endAcquire) else none
  | .run p => s.runStep size p
  | .kill p => if s.pc p = .sleeping ∧ s.ptableLock = none then some (s.goto p .woken) else none

/-! ### The steps, one constructor per transition

`LogStep` says once what a step can do, guards included. Every invariant is a case analysis on
it, and nothing below unfolds `LogState.step`. -/

inductive LogStep (size : ℕ) (s : LogState P) : LogAction P → LogState P → Prop
  | beginOp {p : P} (hpc : s.pc p = .idle) : LogStep size s (.beginOp p) (s.goto p .beginAcquire)
  | logWrite {p : P} {b : ℕ} (hpc : s.pc p = .inOp) :
      LogStep size s (.logWrite p b) (s.goto p (.writeTestSize b))
  | endOp {p : P} (hpc : s.pc p = .inOp) : LogStep size s (.endOp p) (s.goto p .endAcquire)
  | kill {p : P} (hpc : s.pc p = .sleeping) (hpt : s.ptableLock = none) :
      LogStep size s (.kill p) (s.goto p .woken)
  | beginAcquire {p : P} (hpc : s.pc p = .beginAcquire) (hl : s.lock = none) :
      LogStep size s (.run p) ({ s with lock := some p }.goto p .beginTest)
  | beginWait {p : P} (hpc : s.pc p = .beginTest) (hw : s.mustWait = true) :
      LogStep size s (.run p) (s.goto p .sleepAcquire)
  | beginAdmit {p : P} (hpc : s.pc p = .beginTest) (hw : s.mustWait = false) :
      LogStep size s (.run p) (({ s with outstanding := s.outstanding + 1, lock := none }.goto p
        .inOp).record (.begin p))
  | sleepAcquire {p : P} (hpc : s.pc p = .sleepAcquire) (hpt : s.ptableLock = none) :
      LogStep size s (.run p) ({ s with ptableLock := some p }.goto p .sleepRelease)
  | sleepRelease {p : P} (hpc : s.pc p = .sleepRelease) :
      LogStep size s (.run p) ({ s with lock := none }.goto p .sleepSet)
  | sleepSet {p : P} (hpc : s.pc p = .sleepSet) :
      LogStep size s (.run p) ({ s with ptableLock := none }.goto p .sleeping)
  | resume {p : P} (hpc : s.pc p = .woken) (hpt : s.ptableLock = none) :
      LogStep size s (.run p) (s.goto p .beginAcquire)
  | writeTooBig {p : P} {b : ℕ} (hpc : s.pc p = .writeTestSize b) (ht : tooBig size s.lh = true) :
      LogStep size s (.run p) (s.fail .tooBig)
  | writeClaim {p : P} {b : ℕ} (hpc : s.pc p = .writeTestSize b)
      (ht : tooBig size s.lh = false) :
      LogStep size s (.run p) ((s.goto p (.writeTestOutstanding b)).record (.claim p b))
  | writeOutside {p : P} {b : ℕ} (hpc : s.pc p = .writeTestOutstanding b)
      (ho : s.outstanding < 1) : LogStep size s (.run p) (s.fail .outsideTrans)
  | writeInside {p : P} {b : ℕ} (hpc : s.pc p = .writeTestOutstanding b)
      (ho : ¬ s.outstanding < 1) : LogStep size s (.run p) (s.goto p (.writeAcquire b))
  | writeAcquire {p : P} {b : ℕ} (hpc : s.pc p = .writeAcquire b) (hl : s.lock = none) :
      LogStep size s (.run p) ({ s with lock := some p }.goto p (.writeAppend b))
  | writeAppend {p : P} {b : ℕ} (hpc : s.pc p = .writeAppend b) :
      LogStep size s (.run p) (({ s with lh := logAppend s.lh b, lock := none }.goto p .inOp).record
        (.log p b))
  | endAcquire {p : P} (hpc : s.pc p = .endAcquire) (hl : s.lock = none) :
      LogStep size s (.run p) ({ s with lock := some p }.goto p .endLocked)
  | endCommitting {p : P} (hpc : s.pc p = .endLocked) (hc : s.committing = true) :
      LogStep size s (.run p) (s.fail .committing)
  | endLast {p : P} (hpc : s.pc p = .endLocked) (hc : s.committing = false)
      (ho : s.outstanding - 1 = 0) :
      LogStep size s (.run p)
        (({ s with outstanding := s.outstanding - 1, committing := true }.goto p
          (.endRelease true)).record (.finish p))
  | endOther {p : P} (hpc : s.pc p = .endLocked) (hc : s.committing = false)
      (ho : ¬ s.outstanding - 1 = 0) :
      LogStep size s (.run p)
        (({ s with outstanding := s.outstanding - 1 }.goto p .endWakeup).record (.finish p))
  | endWakeup {p : P} (hpc : s.pc p = .endWakeup) (hpt : s.ptableLock = none) :
      LogStep size s (.run p) (s.wakeup.goto p (.endRelease false))
  | endReleaseCommit {p : P} (hpc : s.pc p = .endRelease true) :
      LogStep size s (.run p) ({ s with lock := none }.goto p .commitTest)
  | endRelease {p : P} (hpc : s.pc p = .endRelease false) :
      LogStep size s (.run p) ({ s with lock := none }.goto p .idle)
  | commitWrite {p : P} (hpc : s.pc p = .commitTest) (hn : s.lh.length > 0) :
      LogStep size s (.run p) ((s.goto p .commitClear).record (.commit s.lh))
  | commitNothing {p : P} (hpc : s.pc p = .commitTest) (hn : ¬ s.lh.length > 0) :
      LogStep size s (.run p) ((s.goto p .commitAcquire).record (.commit s.lh))
  | commitClear {p : P} (hpc : s.pc p = .commitClear) :
      LogStep size s (.run p) ({ s with lh := [] }.goto p .commitAcquire)
  | commitAcquire {p : P} (hpc : s.pc p = .commitAcquire) (hl : s.lock = none) :
      LogStep size s (.run p) ({ s with lock := some p }.goto p .commitLocked)
  | commitLocked {p : P} (hpc : s.pc p = .commitLocked) :
      LogStep size s (.run p) ({ s with committing := false }.goto p .commitWakeup)
  | commitWakeup {p : P} (hpc : s.pc p = .commitWakeup) (hpt : s.ptableLock = none) :
      LogStep size s (.run p) (s.wakeup.goto p .commitRelease)
  | commitRelease {p : P} (hpc : s.pc p = .commitRelease) :
      LogStep size s (.run p) ({ s with lock := none }.goto p .idle)

theorem LogState.runStep_sound {size : ℕ} {s s' : LogState P} {p : P}
    (h : s.runStep size p = some s') : LogStep size s (.run p) s' := by
  unfold LogState.runStep at h
  cases hpc : s.pc p <;> simp only [hpc] at h
  case idle | sleeping | inOp => cases h
  case sleepRelease => cases h; exact .sleepRelease hpc
  case sleepSet => cases h; exact .sleepSet hpc
  case writeAppend b => cases h; exact .writeAppend hpc
  case commitClear => cases h; exact .commitClear hpc
  case commitLocked => cases h; exact .commitLocked hpc
  case commitRelease => cases h; exact .commitRelease hpc
  case endRelease c =>
    cases c <;> cases h
    · exact .endRelease hpc
    · exact .endReleaseCommit hpc
  all_goals split at h
  case beginTest.isTrue hw => cases h; exact .beginWait hpc hw
  case beginTest.isFalse hw => cases h; exact .beginAdmit hpc (Bool.eq_false_iff.mpr hw)
  case writeTestSize.isTrue b ht => cases h; exact .writeTooBig hpc ht
  case writeTestSize.isFalse b ht => cases h; exact .writeClaim hpc (Bool.eq_false_iff.mpr ht)
  case writeTestOutstanding.isTrue b ho => cases h; exact .writeOutside hpc ho
  case writeTestOutstanding.isFalse b ho => cases h; exact .writeInside hpc ho
  case endLocked.isTrue hc => cases h; exact .endCommitting hpc hc
  case endLocked.isFalse hc =>
    split at h
    · cases h; exact .endLast hpc (Bool.eq_false_iff.mpr hc) ‹_›
    · cases h; exact .endOther hpc (Bool.eq_false_iff.mpr hc) ‹_›
  case commitTest.isTrue hn => cases h; exact .commitWrite hpc hn
  case commitTest.isFalse hn => cases h; exact .commitNothing hpc hn
  -- what is left waits for a lock
  case beginAcquire.isTrue hl => cases h; exact .beginAcquire hpc hl
  case sleepAcquire.isTrue hl => cases h; exact .sleepAcquire hpc hl
  case woken.isTrue hl => cases h; exact .resume hpc hl
  case writeAcquire.isTrue b hl => cases h; exact .writeAcquire hpc hl
  case endAcquire.isTrue hl => cases h; exact .endAcquire hpc hl
  case endWakeup.isTrue hl => cases h; exact .endWakeup hpc hl
  case commitAcquire.isTrue hl => cases h; exact .commitAcquire hpc hl
  case commitWakeup.isTrue hl => cases h; exact .commitWakeup hpc hl
  all_goals cases h

theorem LogState.step_sound {size : ℕ} {s s' : LogState P} {a : LogAction P}
    (h : s.step size a = some s') : s.panic = none ∧ LogStep size s a s' := by
  unfold LogState.step at h
  split at h
  case isTrue => cases h
  case isFalse hp =>
  refine ⟨not_not.mp hp, ?_⟩
  cases a <;> simp only at h
  case run p => exact runStep_sound h
  all_goals split at h
  case beginOp.isTrue p hpc => cases h; exact .beginOp hpc
  case logWrite.isTrue p b hpc => cases h; exact .logWrite hpc
  case endOp.isTrue p hpc => cases h; exact .endOp hpc
  case kill.isTrue p hpc => cases h; exact .kill hpc.1 hpc.2
  all_goals cases h

end Xv6
