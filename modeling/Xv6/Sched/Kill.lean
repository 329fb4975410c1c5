import Mathlib.Data.List.Sort
import Xv6.Lib.Run
import Xv6.Sched.Table

/-!
# Killing processes

`kill` marks the first slot whose `pid` field has the given value, whatever the state of the slot.
A slot that has never been used, or that `wait` has freed, has the value 0 there; one that a failed
`fork` has given back still has that of the process that was not made. `allocproc` does not clear
the mark, so that it reaches the next process in the slot.

Here `fork`, `exit`, `wait` and `kill` are single steps, one after the other.
-/

namespace Xv6.Sched.Sequential

open Function List

open Xv6.Sched Run

/-- The table and `nextpid`. -/
structure Procs where
  table : Table
  nextpid : Int32

/-- What `kalloc` and `copyuvm` do in `fork`. -/
inductive Memory where
  | noStack
  | noCopy
  | enough
  deriving DecidableEq

variable {s s' : Procs} {t : Table} {cur p q : Slot} {pid : Int32}

/-! ### The calls -/

/-- A whole call of `fork`: the new process, or none if it returns -1. -/
def fork (s : Procs) (curproc : Slot) (m : Memory) : Option Slot × Procs :=
  match allocproc s.table s.nextpid with
  | (none, t, k) => (none, ⟨t, k⟩)
  | (some np, t, k) =>
    match m with
    | .noStack => (none, ⟨update t np { t np with state := .unused }, k⟩)
    | .noCopy => (none, ⟨update t np { t np with state := .unused }, k⟩)
    | .enough =>
      (some np, ⟨update t np { t np with parent := some curproc, state := .runnable }, k⟩)

/-- A whole call of `wait`, unless it has to sleep. -/
def wait (t : Table) (curproc : Slot) : Option Table :=
  match waitLoop curproc t (finRange NPROC) false with
  | (some q, _) => some (update t q (t q).reaped)
  | (none, havekids) => if ¬ havekids ∨ (t curproc).killed then some t else none

inductive Call where
  | fork (cur : Slot) (m : Memory)
  | exit (cur : Slot)
  | wait (cur : Slot)
  | kill (pid : Int32)

def step (s : Procs) : Call → Option Procs
  | .fork cur m => if (s.table cur).state.kind = .live then some (fork s cur m).2 else none
  | .exit cur =>
    if (s.table cur).state.kind = .live ∧ cur ≠ initproc then
      some { s with table := exitTable cur s.table }
    else none
  | .wait cur =>
    if (s.table cur).state.kind = .live then
      (wait s.table cur).map fun t => { s with table := t }
    else none
  | .kill pid => some { s with table := (kill pid s.table).2 }

/-- After `userinit`. -/
def start : Procs := ⟨bootTable, 2⟩

/-- What `kill` is meant to do: it returns 0 and marks a process that exists and has this pid, and
nothing else changes; or there is none, it returns -1, and nothing changes. -/
def KillsLive (pid : Int32) (t : Table) : Prop :=
  ((kill pid t).1 = 0 ∧ ∃ p, (t p).state ≠ .unused ∧ (t p).pid = pid ∧
      ((kill pid t).2 p).killed = true ∧ ∀ q, q ≠ p → (kill pid t).2 q = t q) ∨
    kill pid t = (-1, t) ∧ ∀ p, (t p).state ≠ .unused → (t p).pid ≠ pid

def FirstLive (pid : Int32) (t : Table) : Prop :=
  ∀ p, (t p).pid = pid → (∀ q, q < p → (t q).pid ≠ pid) → (t p).state ≠ .unused

/-- A call of `kill` hits a slot in use, if any. -/
def HitsLive (s : Procs) (a : Call) : Prop := ∀ pid, a = .kill pid → FirstLive pid s.table

/-! ### `kill` -/

/-- What `kill` does to the slot that it finds. -/
def marked (x : Proc) : Proc :=
  { x with killed := true, state := if x.state = .sleeping then .runnable else x.state }

theorem killLoop_cases (pid : Int32) (t : Table) : ∀ {ps : List Slot}, ps.Pairwise (· < ·) →
    (∀ p ∈ ps, (t p).pid ≠ pid) ∧ killLoop pid ps t = (-1, t) ∨
      ∃ p ∈ ps, (t p).pid = pid ∧ (∀ q ∈ ps, q < p → (t q).pid ≠ pid) ∧
        killLoop pid ps t = (0, update t p (marked (t p))) := by
  intro ps
  induction ps with
  | nil => exact fun _ => .inl ⟨fun p hp => absurd hp not_mem_nil, rfl⟩
  | cons r ps ih =>
  intro hps
  obtain ⟨hr, hps⟩ := pairwise_cons.mp hps
  rw [killLoop]
  by_cases hpid : (t r).pid = pid
  · rw [if_pos hpid]
    refine .inr ⟨r, mem_cons_self, hpid, fun q hq hqr => ?_, rfl⟩
    rcases mem_cons.mp hq with rfl | hq
    · exact absurd hqr (lt_irrefl q)
    · exact absurd (hr q hq) (lt_asymm hqr)
  rw [if_neg hpid]
  rcases ih hps with ⟨hno, hres⟩ | ⟨p, hp, hpp, hfirst, hres⟩
  · refine .inl ⟨fun p hp => ?_, hres⟩
    rcases mem_cons.mp hp with rfl | hp
    · exact hpid
    · exact hno p hp
  refine .inr ⟨p, mem_cons_of_mem r hp, hpp, fun q hq hqp => ?_, hres⟩
  rcases mem_cons.mp hq with rfl | hq
  · exact hpid
  · exact hfirst q hq hqp

theorem kill_cases (pid : Int32) (t : Table) : (∀ p, (t p).pid ≠ pid) ∧ kill pid t = (-1, t) ∨
      ∃ p, (t p).pid = pid ∧ (∀ q, q < p → (t q).pid ≠ pid) ∧
        kill pid t = (0, update t p (marked (t p))) := by
  have hsorted : (finRange NPROC).Pairwise (· < ·) := (sortedLT_finRange NPROC).pairwise
  rcases killLoop_cases pid t hsorted with ⟨hno, hres⟩ | ⟨p, -, hp, hfirst, hres⟩
  · exact .inl ⟨fun p => hno p (mem_finRange p), hres⟩
  · exact .inr ⟨p, hp, fun q => hfirst q (mem_finRange q), hres⟩

def Unmarked (t : Table) : Prop := ∀ p, (t p).state = .unused → (t p).killed = false

theorem killsLive_iff (hu : Unmarked t) : KillsLive pid t ↔ FirstLive pid t := by
  rcases kill_cases pid t with ⟨hno, hres⟩ | ⟨p, hp, hfirst, hres⟩
  · exact iff_of_true (.inr ⟨hres, fun p _ => hno p⟩) fun p hp => absurd hp (hno p)
  constructor
  · intro hk r hr hfirst'
    have hrp : r = p := by
      rcases lt_trichotomy r p with hlt | heq | hgt
      · exact absurd hr (hfirst r hlt)
      · exact heq
      · exact absurd hp (hfirst' p hgt)
    subst hrp
    intro hunused
    rcases hk with ⟨-, r', hlive, -, -, hsame⟩ | ⟨hminus, -⟩
    · -- a slot that is not in use would be marked
      have hne : r ≠ r' := by
        rintro rfl
        exact hlive hunused
      have hmark := hsame r hne
      rw [hres] at hmark
      dsimp only at hmark
      rw [update_self] at hmark
      have hk' : true = (t r).killed := congrArg Proc.killed hmark
      rw [hu r hunused] at hk'
      cases hk'
    · rw [hres] at hminus
      cases hminus
  · intro hf
    refine .inl ⟨by rw [hres], p, hf p hp hfirst, hp, ?_, fun q hq => ?_⟩
    · rw [hres]
      dsimp only
      rw [update_self]
      rfl
    · rw [hres]
      exact update_of_ne hq ..

/-! ### The other calls -/

theorem Unmarked.update {x : Proc} (hu : Unmarked t) (hx : x.state = .unused → x.killed = false) :
    Unmarked (update t p x) := by
  intro q hq
  rcases eq_or_ne q p with rfl | hne
  · rw [update_self] at hq ⊢
    exact hx hq
  · rw [update_of_ne hne] at hq ⊢
    exact hu q hq

theorem Unmarked.of_priority {t' : Table} (hu : Unmarked t)
    (h : ∀ q, (t q).state = .unused → ∃ a, t' q = { t q with priority := a })
    (h' : ∀ q, (t' q).state = .unused → (t q).state = .unused) : Unmarked t' := by
  intro q hq
  obtain ⟨a, ha⟩ := h q (h' q hq)
  rw [ha]
  exact hu q (h' q hq)

theorem killed_wakeup1 (chan : Option Chan) (t : Table) (p : Slot) :
    (wakeup1 chan t p).killed = (t p).killed := by
  unfold wakeup1
  split <;> rfl

theorem killed_adopt (cur : Slot) (t : Table) (p q : Slot) :
    (adopt cur t p q).killed = (t q).killed := by
  have hone : (update t p { t p with parent := some initproc } q).killed = (t q).killed := by
    rcases eq_or_ne q p with rfl | hne
    · rw [update_self]
    · rw [update_of_ne hne]
  unfold adopt
  split
  · dsimp only
    split
    · exact (killed_wakeup1 ..).trans hone
    · exact hone
  · rfl

theorem killed_exitTable (cur : Slot) (t : Table) (p : Slot) :
    (exitTable cur t p).killed = (t p).killed := by
  have hfold : ∀ (ps : List Slot) (t : Table),
      (ps.foldl (adopt cur) t p).killed = (t p).killed := by
    intro ps
    induction ps with
    | nil => exact fun _ => rfl
    | cons r ps ih => exact fun t => (ih _).trans (killed_adopt cur t r p)
  unfold exitTable
  dsimp only
  rcases eq_or_ne p cur with rfl | hne
  · rw [update_self, hfold, killed_wakeup1]
  · rw [update_of_ne hne, hfold, killed_wakeup1]

theorem Unmarked.exit (hu : Unmarked t) (hcur : cur ≠ initproc) : Unmarked (exitTable cur t) := by
  intro p hp
  have he := exitTable_spec hcur t
  have hne : p ≠ cur := by
    rintro rfl
    exact nomatch he.zombie.symm.trans hp
  rw [killed_exitTable]
  refine hu p ?_
  rcases (he.woken p hne).state with hsame | ⟨-, hwoken⟩
  · exact hsame.symm.trans hp
  · exact nomatch hwoken.symm.trans hp

theorem Unmarked.wait {t' : Table} (hu : Unmarked t) (h : wait t cur = some t') : Unmarked t' := by
  unfold Sequential.wait at h
  split at h
  · cases h
    exact hu.update fun _ => rfl
  split at h
  · cases h
    exact hu
  · cases h

theorem Unmarked.allocproc {t' : Table} {k k' : Int32} {o : Option Slot} (hu : Unmarked t)
    (h : allocproc t k = (o, t', k')) :
    Unmarked t' ∧ ∀ np, o = some np → (t' np).killed = false := by
  cases o with
  | none =>
    have hsame := allocproc_none h
    refine ⟨hu.of_priority (fun q _ => hsame q) fun q hq => ?_, nofun⟩
    obtain ⟨a, ha⟩ := hsame q
    rwa [ha] at hq
  | some np =>
  obtain ⟨hun, ⟨a, ha⟩, hother⟩ := allocproc_some h
  have hne : ∀ q, (t' q).state = .unused → q ≠ np := by
    rintro q hq rfl
    rw [ha] at hq
    cases hq
  refine ⟨fun q hq => ?_, fun q hq => ?_⟩
  · obtain ⟨b, hb⟩ := hother q (hne q hq)
    rw [hb] at hq ⊢
    exact hu q hq
  · cases hq
    rw [ha]
    exact hu np hun

theorem Unmarked.fork {m : Memory} (hu : Unmarked s.table) : Unmarked (fork s cur m).2.table ∧
    ∀ np, (Sequential.fork s cur m).1 = some np →
      ((Sequential.fork s cur m).2.table np).killed = false := by
  unfold Sequential.fork
  split
  · next t k halloc => exact ⟨(hu.allocproc halloc).1, nofun⟩
  next np t k halloc =>
  obtain ⟨hu', hnp⟩ := hu.allocproc halloc
  have hk := hnp np rfl
  cases m with
  | noStack | noCopy => exact ⟨hu'.update fun _ => hk, nofun⟩
  | enough =>
  refine ⟨hu'.update nofun, fun q hq => ?_⟩
  cases hq
  dsimp only
  rw [update_self]
  exact hk

theorem Unmarked.kill (hu : Unmarked t) (hf : FirstLive pid t) : Unmarked (kill pid t).2 := by
  rcases kill_cases pid t with ⟨-, hres⟩ | ⟨p, hp, hfirst, hres⟩
  · rw [hres]
    exact hu
  rw [hres]
  refine hu.update fun hunused => absurd ?_ (hf p hp hfirst)
  unfold marked at hunused
  dsimp only at hunused
  split at hunused
  · cases hunused
  · exact hunused

theorem Unmarked.step {a : Call} (hu : Unmarked s.table) (hok : HitsLive s a)
    (h : step s a = some s') : Unmarked s'.table := by
  unfold Sequential.step at h
  split at h
  · split at h
    · cases h
      exact hu.fork.1
    · cases h
  · split at h
    · next hg =>
      cases h
      exact hu.exit hg.2
    · cases h
  · split at h
    · obtain ⟨t, ht, rfl⟩ := Option.map_eq_some_iff.mp h
      exact hu.wait ht
    · cases h
  · cases h
    exact hu.kill (hok _ rfl)

/-! ### Every run -/

theorem unmarked_start : Unmarked start.table := by
  intro p _
  unfold start bootTable
  dsimp only
  split <;> rfl

/-- **When `kill` touches processes that exist, and no others.** In every state reached by calls of
`fork`, `exit`, `wait` and `kill`, if no `kill` so far has hit a free slot, a further one does what
it is meant to do if and only if the first slot with the given pid is in use; and every process that
`fork` makes is not marked. -/
theorem kill_live (h : Reachable step HitsLive (· = start) s) :
    (∀ pid, KillsLive pid s.table ↔ FirstLive pid s.table) ∧
      ∀ cur m np, (fork s cur m).1 = some np → ((fork s cur m).2.table np).killed = false := by
  have hu : Unmarked s.table :=
    h.invariant (fun s hs => hs ▸ unmarked_start) fun s a s' hI hok hs => hI.step hok hs
  exact ⟨fun pid => killsLive_iff hu, fun cur m => hu.fork.2⟩

/-- After init has forked: its child can be killed, and another one is not marked. -/
theorem kill_live_fork : ∃ s, KillsLive 2 s.table ∧
    ((fork s initproc .enough).2.table 2).killed = false := by
  have hreach : Reachable step HitsLive (· = start) (fork start initproc .enough).2 :=
    .step (a := .fork initproc .enough) (.start rfl) nofun rfl
  refine ⟨(fork start initproc .enough).2, ?_, (kill_live hreach).2 initproc .enough 2 ?_⟩
  · refine ((kill_live hreach).1 2).mpr ?_
    unfold FirstLive
    decide +kernel
  · decide +kernel

/-- `kill(0)` returns 0 though no process has pid 0, and marks the second slot, which is free; a
process that init then makes there is marked. -/
theorem free_slot_killed : (kill 0 start.table).1 = 0 ∧
    (∀ p, (start.table p).state ≠ .unused → (start.table p).pid ≠ 0) ∧
    ∃ s, Reachable step (fun _ _ => True) (· = start) s ∧ (fork s initproc .enough).1 = some 1 ∧
      ((fork s initproc .enough).2.table 1).killed = true := by
  refine ⟨by decide +kernel, by decide +kernel, ⟨(kill 0 bootTable).2, 2⟩, ?_, ?_, ?_⟩
  · exact .step (a := .kill 0) (.start rfl) trivial rfl
  · decide +kernel
  · decide +kernel

end Xv6.Sched.Sequential
