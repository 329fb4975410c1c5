import Mathlib.Logic.Relation
import Xv6.Lib.Run
import Xv6.Sched.Table

/-!
# Processes on CPUs

The functions of `proc.c` as a transition system, for any set of CPUs. A region under `ptable.lock`
is one step if no context switch happens in it. A process that gives up its CPU takes the lock and
passes it to the scheduler of that CPU, which goes on with its scan, one slot a step, and passes it
on to the process that it dispatches. So the lock is held between steps only while a scheduler
scans, or after it has dispatched a process that has not released the lock yet.

Outside the lock, `fork` works on the slot that `allocproc` gave it, and `proc_nice` writes
priorities; a process may be interrupted there.

The history of events that the results are about is part of the state. No step depends on it.
-/

namespace Xv6.Sched

open Function

inductive Thread where
  | user
  /-- In `fork`: `allocproc` has chosen slot `np`, and allocates a kernel stack. -/
  | alloced (np : Slot)
  /-- In `fork`: copies memory for `np`. -/
  | copying (np : Slot)
  /-- In `fork`: `np` is set up. -/
  | linked (np : Slot)
  /-- In `sleep`. -/
  | sleeping
  /-- In `sleep`, called by `wait`. -/
  | waiting
  deriving DecidableEq

inductive Ctl where
  | idle
  /-- Before slot `i` in a pass. -/
  | scan (i : ℕ)
  | resume
  | run
  deriving DecidableEq

structure Cpu where
  proc : Option Slot
  ctl : Ctl
  /-- The variable of `scheduler`. -/
  lowestPriority : Int32

inductive Event (C : Type) where
  /-- `scheduler` on CPU `c` has set `p` running. -/
  | dispatched (c : C) (p : Slot) (priority : Int32)
  /-- `p` has called `sleep`. -/
  | slept (p : Slot) (chan : Chan)
  /-- `p` has exited. -/
  | exited (p : Slot) (pid : Int32)
  /-- A `wait` by `caller` has freed slot `p`, whose parent was `parent`, and returned `ret`. -/
  | reaped (p caller : Slot) (ret : Int32) (parent : Option Slot)
  /-- A `wait` by `p` has returned -1; whether there were children, and `p` was killed. -/
  | waitFailed (p : Slot) (children killed : Bool)
  deriving DecidableEq

/-- The state of the system, with CPUs `C`. -/
structure State (C : Type) where
  table : Table
  nextpid : Int32
  thread : Slot → Thread
  /-- The CPU that holds `ptable.lock`. -/
  lock : Option C
  cpu : C → Cpu
  hist : List (Event C)

/-- After `userinit`, before any CPU has entered its scheduler loop. -/
def boot (C : Type) : State C where
  table := bootTable
  nextpid := 2
  thread _ := .user
  lock := none
  cpu _ := ⟨none, .idle, 0x77777777⟩
  hist := []

inductive ProcOp where
  | yield
  | sleep (chan : Chan)
  | kill (pid : Int32)
  | nice (pid priority : Int32)
  /-- `fork` up to the end of the region of `allocproc`. -/
  | fork
  /-- `kalloc` fails in `allocproc`. -/
  | noStack
  | stack
  /-- `copyuvm` fails. -/
  | noCopy
  | copied
  /-- The last region of `fork`. -/
  | forkDone
  | exit
  | wait

inductive Op where
  | startPass
  | scan
  | resume
  | proc (op : ProcOp)
  | wakeup (chan : Chan)

namespace State

variable {C : Type} [DecidableEq C]

/-- Fields of process `p`. -/
def setProc (s : State C) (p : Slot) (x : Proc) : State C :=
  { s with table := update s.table p x }

/-- Where process `p` is. -/
def setThread (s : State C) (p : Slot) (x : Thread) : State C :=
  { s with thread := update s.thread p x }

def event (s : State C) (e : Event C) : State C := { s with hist := e :: s.hist }

/-- Who holds the lock, and where CPU `c` is. -/
def setCtl (s : State C) (c : C) (lock : Option C) (ctl : Ctl) : State C :=
  { s with
    lock := lock
    cpu := update s.cpu c { s.cpu c with ctl := ctl } }

/-- `sched` by process `p`: the scheduler of CPU `c` goes on with the next slot. -/
def sched (s : State C) (c : C) (p : Slot) : State C :=
  { s with
    lock := some c
    cpu := update s.cpu c { s.cpu c with proc := none, ctl := .scan (p + 1) } }

/-- One round of the loop of `wait` by process `p` on CPU `c`. -/
def waitBody (s : State C) (c : C) (p : Slot) : State C :=
  match waitLoop p s.table (List.finRange NPROC) false with
  | (some q, _) =>
    (((s.setProc q (s.table q).reaped).setThread p .user).event
      (.reaped q p (s.table q).pid (s.table q).parent)).setCtl c none .run
  | (none, havekids) =>
    if ¬ havekids ∨ (s.table p).killed then
      ((s.setThread p .user).event (.waitFailed p (decide (∃ q, (s.table q).parent = some p))
        (s.table p).killed)).setCtl c none .run
    else
      (((s.setProc p { s.table p with chan := some (.proc p), state := .sleeping }).setThread p
        .waiting).event (.slept p (.proc p))).sched c p

/-- The scheduler of CPU `c` looks at slot `i`. -/
def scanSlot (s : State C) (c : C) (i : ℕ) : State C :=
  if h : i < NPROC then
    let p : Slot := ⟨i, h⟩
    if (s.table p).state ≠ .runnable ∨ (s.table p).priority > (s.cpu c).lowestPriority then
      s.setCtl c s.lock (.scan (i + 1))
    else
      { s.setProc p { s.table p with state := .running } with
        cpu := update s.cpu c ⟨some p, .resume, (s.table p).priority⟩
        hist := .dispatched c p (s.table p).priority :: s.hist }
  else s.setCtl c none .idle

/-- Process `p`, just dispatched on CPU `c`, returns from `sched`, or starts in `forkret`. -/
def resume (s : State C) (c : C) (p : Slot) : State C :=
  match s.thread p with
  | .sleeping =>
    ((s.setProc p { s.table p with chan := none }).setThread p .user).setCtl c none .run
  | .waiting => (s.setProc p { s.table p with chan := none }).waitBody c p
  | _ => s.setCtl c none .run

/-- The part of `fork` up to the end of the region of `allocproc`. -/
def fork (s : State C) (p : Slot) : State C :=
  match allocproc s.table s.nextpid with
  | (none, t, k) => { s with table := t, nextpid := k }
  | (some np, t, k) => { s with table := t, nextpid := k }.setThread p (.alloced np)

/-- What process `p`, running on CPU `c`, does. -/
def procStep (s : State C) (c : C) (p : Slot) (op : ProcOp) : Option (State C) :=
  match op, s.thread p with
  | .yield, _ =>
    if s.lock = none then some ((s.setProc p { s.table p with state := .runnable }).sched c p)
    else none
  | .sleep chan, .user =>
    if s.lock = none then
      some ((((s.setProc p { s.table p with chan := some chan, state := .sleeping }).setThread p
        .sleeping).event (.slept p chan)).sched c p)
    else none
  | .kill pid, .user =>
    if s.lock = none then some { s with table := (kill pid s.table).2 } else none
  | .nice pid priority, .user => some { s with table := procNice pid priority s.table }
  | .fork, .user => if s.lock = none then some (s.fork p) else none
  | .noStack, .alloced np =>
    some ((s.setProc np { s.table np with state := .unused }).setThread p .user)
  | .stack, .alloced np => some ((s.setThread np .user).setThread p (.copying np))
  | .noCopy, .copying np =>
    some ((s.setProc np { s.table np with state := .unused }).setThread p .user)
  | .copied, .copying np =>
    some ((s.setProc np { s.table np with parent := some p }).setThread p (.linked np))
  | .forkDone, .linked np =>
    if s.lock = none then
      some ((s.setProc np { s.table np with state := .runnable }).setThread p .user)
    else none
  | .exit, .user =>
    if s.lock = none ∧ p ≠ initproc then
      some (({ s with table := exitTable p s.table }.event
        (.exited p (s.table p).pid)).sched c p)
    else none
  | .wait, .user => if s.lock = none then some (s.waitBody c p) else none
  | _, _ => none

end State

variable {C : Type} [DecidableEq C]

def step (s : State C) : C × Op → Option (State C)
  | (c, .startPass) =>
    if s.lock = none ∧ (s.cpu c).ctl = .idle then some (s.setCtl c (some c) (.scan 0)) else none
  | (c, .scan) =>
    match (s.cpu c).ctl with
    | .scan i => some (s.scanSlot c i)
    | _ => none
  | (c, .resume) =>
    match (s.cpu c).ctl, (s.cpu c).proc with
    | .resume, some p => some (s.resume c p)
    | _, _ => none
  | (c, .proc op) =>
    match (s.cpu c).ctl, (s.cpu c).proc with
    | .run, some p => s.procStep c p op
    | _, _ => none
  | (_, .wakeup chan) =>
    if s.lock = none then some { s with table := wakeup1 (some chan) s.table } else none

/-! ### What a step does -/

def Ctl.busy : Ctl → Bool
  | .idle => false
  | .scan _ => false
  | .resume => true
  | .run => true

/-- The slot that a `fork` works on. -/
def Thread.forks : Thread → Option Slot
  | .alloced np => some np
  | .copying np => some np
  | .linked np => some np
  | _ => none

/-- What a process may change from sleeping on: it is in `sleep`, or it is in `wait` and has no
exited child. -/
def Sleeps (t : Table) (p : Slot) (chan : Chan) : Thread → Prop
  | .sleeping => True
  | .waiting => chan = .proc p ∧ ∀ q, (t q).parent = some p → (t q).state ≠ .zombie
  | _ => False

variable {s s' : State C} {c : C} {p : Slot}

inductive Trans (s : State C) : State C → Prop
  | ctl {c : C} {lock : Option C} {ctl : Ctl} : ctl.busy = (s.cpu c).ctl.busy →
      Trans s (s.setCtl c lock ctl)
  | dispatch {c : C} {p : Slot} : (s.cpu c).ctl.busy = false → (s.table p).state = .runnable →
      (s.table p).priority ≤ (s.cpu c).lowestPriority →
      Trans s { s.setProc p { s.table p with state := .running } with
        cpu := update s.cpu c ⟨some p, .resume, (s.table p).priority⟩
        hist := .dispatched c p (s.table p).priority :: s.hist }
  | soft {t : Table} {k : Int32} :
      (∀ p, Woken (s.table p) (t p) ∧ (t p).parent = (s.table p).parent) →
      Trans s { s with table := t, nextpid := k }
  | yield {c : C} {p : Slot} : (s.cpu c).proc = some p →
      Trans s ((s.setProc p { s.table p with state := .runnable }).sched c p)
  | sleep {c : C} {p : Slot} {chan : Chan} {th : Thread} : (s.cpu c).proc = some p →
      (s.thread p).forks = none → Sleeps s.table p chan th →
      Trans s ((((s.setProc p { s.table p with chan := some chan, state := .sleeping }).setThread p
        th).event (.slept p chan)).sched c p)
  | wake {c : C} {p : Slot} {th : Thread} : (s.cpu c).proc = some p → (s.thread p).forks = none →
      th.forks = none → Trans s ((s.setProc p { s.table p with chan := none }).setThread p th)
  | exit {c : C} {p : Slot} : (s.cpu c).proc = some p → (s.thread p).forks = none →
      p ≠ initproc → Trans s (({ s with table := exitTable p s.table }.event
        (.exited p (s.table p).pid)).sched c p)
  | reap {c : C} {p q : Slot} : (s.cpu c).proc = some p → (s.thread p).forks = none →
      (s.table q).parent = some p → (s.table q).state = .zombie →
      Trans s (((s.setProc q (s.table q).reaped).setThread p .user).event
        (.reaped q p (s.table q).pid (s.table q).parent))
  | fail {c : C} {p : Slot} {children killed : Bool} : (s.cpu c).proc = some p →
      (s.thread p).forks = none → children = false ∨ killed = true →
      Trans s ((s.setThread p .user).event (.waitFailed p children killed))
  | alloc {c : C} {p np : Slot} {t : Table} {pid a k : Int32} : (s.cpu c).proc = some p →
      (s.thread p).forks = none → (s.table np).state = .unused →
      t np = { s.table np with state := .embryo, pid := pid, priority := a } →
      (∀ q, q ≠ np → ∃ a, t q = { s.table q with priority := a }) →
      Trans s ({ s with table := t, nextpid := k }.setThread p (.alloced np))
  | stack {c : C} {p np : Slot} : (s.cpu c).proc = some p → s.thread p = .alloced np →
      Trans s ((s.setThread np .user).setThread p (.copying np))
  | link {c : C} {p np : Slot} : (s.cpu c).proc = some p → s.thread p = .copying np →
      Trans s ((s.setProc np { s.table np with parent := some p }).setThread p (.linked np))
  | done {c : C} {p np : Slot} : (s.cpu c).proc = some p → s.thread p = .linked np →
      Trans s ((s.setProc np { s.table np with state := .runnable }).setThread p .user)
  | free {c : C} {p np : Slot} : (s.cpu c).proc = some p → (s.thread p).forks = some np →
      s.thread p ≠ .linked np →
      Trans s ((s.setProc np { s.table np with state := .unused }).setThread p .user)

open Relation

abbrev Steps (s s' : State C) : Prop := ReflTransGen Trans s s'

omit [DecidableEq C] in
theorem setThread_self (s : State C) (p : Slot) : s.setThread p (s.thread p) = s := by
  unfold State.setThread
  rw [update_eq_self]

theorem steps_waitBody (hon : (s.cpu c).proc = some p) (hbusy : (s.cpu c).ctl.busy = true)
    (hf : (s.thread p).forks = none) : Steps s (s.waitBody c p) := by
  unfold State.waitBody
  split
  · next q b hloop =>
    obtain ⟨hpar, hz⟩ := waitLoop_some hloop
    exact .tail (.single (.reap hon hf hpar hz)) (.ctl hbusy.symm)
  next havekids hloop =>
  obtain ⟨hno, hkids⟩ := waitLoop_none hloop
  split
  · next hfail =>
    refine .tail (.single (.fail hon hf ?_)) (.ctl hbusy.symm)
    rcases hfail with hk | hk
    · refine .inl (decide_eq_false fun ⟨q, hq⟩ => hk ?_)
      exact hkids.mpr (.inr ⟨q, List.mem_finRange q, hq⟩)
    · exact .inr hk
  · have hs : Sleeps s.table p (.proc p) .waiting :=
      ⟨rfl, fun q hq => hno q (List.mem_finRange q) hq⟩
    exact .single (.sleep hon hf hs)

theorem steps_scanSlot {i : ℕ} (hctl : (s.cpu c).ctl = .scan i) : Steps s (s.scanSlot c i) := by
  have hbusy : (s.cpu c).ctl.busy = false := by
    rw [hctl]
    rfl
  unfold State.scanSlot
  split
  · next h =>
    dsimp only
    split
    · exact .single (.ctl hbusy.symm)
    next hel =>
    obtain ⟨hr, hlow⟩ := not_or.mp hel
    exact .single (.dispatch hbusy (not_not.mp hr) (Int32.not_lt.mp hlow))
  · exact .single (.ctl hbusy.symm)

theorem steps_resume (hon : (s.cpu c).proc = some p) (hctl : (s.cpu c).ctl = .resume) :
    Steps s (s.resume c p) := by
  have hbusy : (s.cpu c).ctl.busy = true := by
    rw [hctl]
    rfl
  unfold State.resume
  split
  · next hth =>
    refine .tail (.single (.wake hon ?_ rfl)) (.ctl hbusy.symm)
    rw [hth]
    rfl
  · next hth =>
    have hf : (s.thread p).forks = none := by
      rw [hth]
      rfl
    have hwake : Trans s ((s.setProc p { s.table p with chan := none }).setThread p
        ((s.setProc p { s.table p with chan := none }).thread p)) := .wake hon hf hf
    rw [setThread_self] at hwake
    exact .head hwake (steps_waitBody hon hbusy hf)
  · exact .single (.ctl hbusy.symm)

theorem trans_fork (hon : (s.cpu c).proc = some p) (hf : (s.thread p).forks = none) :
    Trans s (s.fork p) := by
  unfold State.fork
  split
  · next t k halloc =>
    refine .soft fun q => ?_
    obtain ⟨a, ha⟩ := allocproc_none halloc q
    rw [ha]
    exact ⟨⟨.inl rfl, rfl, rfl⟩, rfl⟩
  next np t k halloc =>
  obtain ⟨hu, ⟨a, ha⟩, hother⟩ := allocproc_some halloc
  exact .alloc hon hf hu ha hother

theorem steps_procStep {op : ProcOp} (hon : (s.cpu c).proc = some p)
    (hbusy : (s.cpu c).ctl.busy = true) (h : s.procStep c p op = some s') : Steps s s' := by
  have hforks : ∀ {th : Thread} {o : Option Slot}, s.thread p = th → th.forks = o →
      (s.thread p).forks = o := fun hth ho => hth ▸ ho
  unfold State.procStep at h
  split at h
  case h_1 =>
    split at h
    · cases h
      exact .single (.yield hon)
    · cases h
  case h_2 chan hth =>
    split at h
    · cases h
      have hs : Sleeps s.table p chan .sleeping := trivial
      exact .single (.sleep hon (hforks hth rfl) hs)
    · cases h
  case h_3 pid hth =>
    split at h
    · cases h
      exact .single (.soft fun q => killLoop_woken pid _ s.table q)
    · cases h
  case h_4 pid priority hth =>
    cases h
    refine .single (.soft fun q => ?_)
    unfold procNice
    split
    · exact ⟨⟨.inl rfl, rfl, rfl⟩, rfl⟩
    · exact ⟨.refl _, rfl⟩
  case h_5 hth =>
    split at h
    · cases h
      exact .single (trans_fork hon (hforks hth rfl))
    · cases h
  case h_6 np hth =>
    cases h
    exact .single (.free hon (hforks hth rfl) (by rw [hth]; exact nofun))
  case h_7 np hth =>
    cases h
    exact .single (.stack hon hth)
  case h_8 np hth =>
    cases h
    exact .single (.free hon (hforks hth rfl) (by rw [hth]; exact nofun))
  case h_9 np hth =>
    cases h
    exact .single (.link hon hth)
  case h_10 np hth =>
    split at h
    · cases h
      exact .single (.done hon hth)
    · cases h
  case h_11 hth =>
    split at h
    · next hg =>
      cases h
      exact .single (.exit hon (hforks hth rfl) hg.2)
    · cases h
  case h_12 hth =>
    split at h
    · cases h
      exact steps_waitBody hon hbusy (hforks hth rfl)
    · cases h
  case h_13 => cases h

theorem step_trans {a : C × Op} (h : step s a = some s') : Steps s s' := by
  unfold step at h
  split at h
  · next c =>
    split at h
    · next hg =>
      cases h
      refine .single (.ctl ?_)
      rw [hg.2]
      rfl
    · cases h
  · next c =>
    split at h
    · next i hctl =>
      cases h
      exact steps_scanSlot hctl
    · cases h
  · next c =>
    split at h
    · next p hctl hon =>
      cases h
      exact steps_resume hon hctl
    · cases h
  · next c op =>
    split at h
    · next p hctl hon => exact steps_procStep hon (by rw [hctl]; rfl) h
    · cases h
  next c chan =>
  split at h
  · cases h
    exact .single (.soft fun q => ⟨woken_wakeup1 _ s.table q, parent_wakeup1 _ s.table q⟩)
  · cases h

/-- The states reached from booting, by any interleaving of steps. -/
abbrev Reached (s : State C) : Prop := Run.Reachable step (fun _ _ => True) (· = boot C) s

theorem reachable_keeps {I : State C → Prop} (h₀ : I (boot C))
    (htrans : ∀ s s', I s → Trans s s' → I s') (h : Reached s) : I s := by
  refine h.invariant (fun s hs => hs ▸ h₀) fun s a s' hI _ hs => ?_
  have hsteps := step_trans hs
  clear hs
  induction hsteps with
  | refl => exact hI
  | tail _ ht ih => exact htrans _ _ ih ht

end Xv6.Sched
