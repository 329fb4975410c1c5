import Xv6.Sched.Table

/-!
# Slots of the process table

`fork` and `proc_nice` of `proc.c` on the whole `struct proc`. Both look for a slot, and both do
more on the way than they should: `allocproc` sets the priority of every slot that it passes, before
it has found one that is free, and `proc_nice` goes on behind the slot that it looks for, to the end
of the table, where it reads the priority that it returns.

Pointers are addresses, with 0 for the null pointer. What is behind the table is unknown.
-/

namespace Xv6.Ptable

open Function List

open Xv6.Sched (NPROC Slot ProcState)

def KSTACKSIZE : ℕ := 4096

def NOFILE : ℕ := 16

/-- `struct proc`. -/
structure Proc where
  sz : UInt32
  pgdir : ℕ
  kstack : ℕ
  state : ProcState
  pid : Int32
  parent : Option Slot
  tf : ℕ
  /-- `swtch()` here to run process. -/
  context : ℕ
  chan : ℕ
  killed : Int32
  ofile : Fin NOFILE → ℕ
  cwd : ℕ
  name : List UInt8
  ticksAtStart : Int32
  ticksScheduled : Int32
  priority : Int32

/-- `ptable.proc`. -/
abbrev Table := Slot → Proc

/-! ### The functions -/

/-- What `safestrcpy` stores: like `strncpy` but guaranteed to end with a zero. -/
def strBytes (t : List UInt8) : ℕ → List UInt8
  | 0 => []
  | 1 => [0]
  | n + 2 => if t.headD 0 = 0 then [0, 0] else t.headD 0 :: strBytes t.tail (n + 1)

/-- The buffer `s` after `safestrcpy(s, t, n)`. -/
def safestrcpy (s t : List UInt8) (n : ℕ) : List UInt8 :=
  strBytes t n ++ s.drop (strBytes t n).length

/-- The loop of `allocproc`: look for an unused slot. -/
def allocLoop : List Slot → Table → Option Slot × Table
  | [], t => (none, t)
  | p :: ps, t =>
    let t := update t p { t p with priority := 0 }
    if (t p).state = .unused then (some p, t) else allocLoop ps t

def freeSlot (t : Table) : Option Slot := (allocLoop (finRange NPROC) t).1

/-- `allocproc`, where `kstack` is what `kalloc` returns, 0 if there is no memory: the slot, the
table and `nextpid`. -/
def allocproc (t : Table) (nextpid : Int32) (kstack : ℕ) : Option Slot × Table × Int32 :=
  match allocLoop (finRange NPROC) t with
  | (none, t) => (none, t, nextpid)
  | (some p, t) =>
    let t := update t p { t p with state := .embryo, pid := nextpid, kstack := kstack }
    if kstack = 0 then
      (none, update t p { t p with state := .unused }, nextpid + 1)
    else
      -- Leave room for trap frame, the return address and the context.
      let sp := kstack + KSTACKSIZE - 76
      (some p, update t p { t p with tf := sp, context := sp - 4 - 20 }, nextpid + 1)

/-- What the rest of the kernel gives to `fork`: the results of `kalloc` and `copyuvm`, 0 if there
is no memory, and `ticks`. -/
structure Env where
  kstack : ℕ
  pgdir : ℕ
  ticks : UInt32

/-- `fork`: the return value, the table and `nextpid`. `filedup` and `idup` return their
arguments. -/
def fork (t : Table) (nextpid : Int32) (curproc : Slot) (env : Env) : Int32 × Table × Int32 :=
  match allocproc t nextpid env.kstack with
  | (none, t, nextpid) => (-1, t, nextpid)
  | (some np, t, nextpid) =>
    -- Copy process state from proc.
    if env.pgdir = 0 then
      (-1, update t np { t np with pgdir := 0, kstack := 0, state := .unused }, nextpid)
    else
      ((t np).pid, update t np
        { t np with
          pgdir := env.pgdir
          sz := (t curproc).sz
          parent := some curproc
          ofile := fun i => if (t curproc).ofile i ≠ 0 then (t curproc).ofile i else (t np).ofile i
          cwd := (t curproc).cwd
          name := safestrcpy (t np).name (t curproc).name 16
          state := .runnable
          ticksAtStart := env.ticks.toInt32
          ticksScheduled := 0 }, nextpid)

/-- The loop of `proc_nice`: the slots that it looks at, and the table. -/
def niceLoop (pid priority : Int32) : List Slot → Table → List ℕ × Table
  | [], t => ([], t)
  | p :: ps, t =>
    let t := if (t p).pid = pid then update t p { t p with priority := priority } else t
    ((p : ℕ) :: (niceLoop pid priority ps t).1, (niceLoop pid priority ps t).2)

/-- The return value of `proc_nice`, the table, and the indexes of `ptable.proc` that it used. -/
structure Nice where
  ret : Int32
  table : Table
  used : List ℕ

/-- `proc_nice`. After the loop `p` is `&ptable.proc[NPROC]`; `behind` is what is there. -/
def procNice (pid priority : Int32) (behind : Proc) (t : Table) : Nice :=
  let r := niceLoop pid priority (finRange NPROC) t
  ⟨behind.priority, r.2, r.1 ++ [NPROC]⟩

def emptyProc : Proc where
  sz := 0
  pgdir := 0
  kstack := 0
  state := .unused
  pid := 0
  parent := none
  tf := 0
  context := 0
  chan := 0
  killed := 0
  ofile := fun _ => 0
  cwd := 0
  name := replicate 16 0
  ticksAtStart := 0
  ticksScheduled := 0
  priority := 0

def initTable : Table := fun p =>
  if p = 0 then { emptyProc with state := .runnable, pid := 1, priority := 3 } else emptyProc

/-! ### The slots that `allocproc` passes -/

variable {t : Table} {p q : Slot} {l : List Slot}

def Passed (t : Table) (q : Slot) : Prop := ∀ p ≤ q, (t p).state ≠ .unused

theorem allocLoop_apply (hl : l.Pairwise (· < ·)) (hfound : (allocLoop l t).1 ≠ some q) :
    (allocLoop l t).2 q = if q ∈ l ∧ ∀ p ∈ l, p ≤ q → (t p).state ≠ .unused
      then { t q with priority := 0 } else t q := by
  induction l generalizing t with
  | nil => simp [allocLoop]
  | cons p ps ih =>
  obtain ⟨hlt, hps⟩ := pairwise_cons.mp hl
  have hself : (update t p { t p with priority := 0 } p).state = (t p).state := by
    rw [update_self]
  rw [allocLoop] at hfound ⊢
  dsimp only at hfound ⊢
  rw [hself] at hfound ⊢
  by_cases hp : (t p).state = .unused
  · rw [if_pos hp] at hfound ⊢
    have hqp : q ≠ p := fun h => hfound (congrArg some h.symm)
    dsimp only
    rw [update_of_ne hqp, if_neg]
    rintro ⟨hmem, hall⟩
    rcases mem_cons.mp hmem with rfl | hmem
    · exact hqp rfl
    · exact hall p mem_cons_self (hlt q hmem).le hp
  rw [if_neg hp] at hfound ⊢
  rw [ih hps hfound]
  rcases eq_or_ne q p with rfl | hqp
  · have hnot : q ∉ ps := fun hq => lt_irrefl q (hlt q hq)
    rw [if_neg fun h => hnot h.1, update_self, if_pos]
    refine ⟨mem_cons_self, fun p' hmem hle => ?_⟩
    rcases mem_cons.mp hmem with rfl | hmem
    · exact hp
    · exact absurd (hlt p' hmem) (not_lt.mpr hle)
  rw [update_of_ne hqp]
  refine if_congr ?_ rfl rfl
  constructor
  · rintro ⟨hmem, hall⟩
    refine ⟨mem_cons_of_mem _ hmem, fun p' hmem' hle => ?_⟩
    rcases mem_cons.mp hmem' with rfl | hmem'
    · exact hp
    · have hne : p' ≠ p := (hlt p' hmem').ne'
      have := hall p' hmem' hle
      rwa [update_of_ne hne] at this
  · rintro ⟨hmem, hall⟩
    refine ⟨(mem_cons.mp hmem).resolve_left hqp, fun p' hmem' hle => ?_⟩
    rw [update_of_ne (hlt p' hmem').ne']
    exact hall p' (mem_cons_of_mem _ hmem') hle

theorem allocLoop_finRange (h : freeSlot t ≠ some q) [Decidable (Passed t q)] :
    (allocLoop (finRange NPROC) t).2 q =
      if Passed t q then { t q with priority := 0 } else t q := by
  rw [allocLoop_apply (pairwise_lt_finRange NPROC) h]
  refine if_congr ?_ rfl rfl
  constructor
  · exact fun h p => h.2 p (mem_finRange p)
  · exact fun h => ⟨mem_finRange q, fun p _ => h p⟩

/-! ### `fork` and the other slots -/

theorem fork_apply (nextpid : Int32) (curproc : Slot) (env : Env) (h : freeSlot t ≠ some q) :
    (fork t nextpid curproc env).2.1 q = (allocLoop (finRange NPROC) t).2 q := by
  unfold fork allocproc
  unfold freeSlot at h
  rcases hloop : allocLoop (finRange NPROC) t with ⟨_ | p, u⟩
  · rfl
  rw [hloop] at h
  have hqp : q ≠ p := fun hq => h (congrArg some hq.symm)
  dsimp only
  by_cases hk : env.kstack = 0
  · simp [hk, update_of_ne hqp]
  · by_cases hd : env.pgdir = 0
    · simp [hk, hd, update_of_ne hqp]
    · simp [hk, hd, update_of_ne hqp]

theorem allocLoop_unused (hl : l.Pairwise (· < ·)) (h : (allocLoop l t).1 = some q) :
    (t q).state = .unused := by
  induction l generalizing t with
  | nil => cases h
  | cons p ps ih =>
  obtain ⟨hlt, hps⟩ := pairwise_cons.mp hl
  rw [allocLoop] at h
  dsimp only at h
  split at h
  · next hp =>
    cases h
    rwa [update_self] at hp
  have hq := ih hps h
  rcases eq_or_ne q p with rfl | hne
  · rwa [update_self] at hq
  · rwa [update_of_ne hne] at hq

theorem Passed.ne_freeSlot (h : Passed t q) : freeSlot t ≠ some q := fun hfree =>
  h q le_rfl (allocLoop_unused (pairwise_lt_finRange NPROC) hfree)

/-- **`fork` and the other slots.** However it ends, it leaves all slots but the one that it
allocates as they are, if and only if the slots before the first free one have priority 0. -/
theorem fork_frame_iff (t : Table) (nextpid : Int32) (curproc : Slot) (env : Env) :
    (∀ q, freeSlot t ≠ some q → (fork t nextpid curproc env).2.1 q = t q) ↔
      ∀ q, Passed t q → (t q).priority = 0 := by
  classical
  constructor
  · intro h q hq
    have hsame := h q hq.ne_freeSlot
    rw [fork_apply _ _ _ hq.ne_freeSlot, allocLoop_finRange hq.ne_freeSlot, if_pos hq] at hsame
    rw [← hsame]
  intro h q hq
  rw [fork_apply _ _ _ hq, allocLoop_finRange hq]
  split
  · next hpassed => rw [← h q hpassed]
  · rfl

/-- The first process has got priority 5, and makes a child: its priority is 0 then. -/
theorem fork_resets_priority :
    let t := (procNice 1 5 emptyProc initTable).table
    freeSlot t ≠ some 0 ∧ (t 0).priority = 5 ∧
      ((fork t 2 0 ⟨4096, 8192, 0⟩).2.1 0).priority = 0 ∧ (fork t 2 0 ⟨4096, 8192, 0⟩).1 = 2 := by
  refine ⟨?_, ?_, ?_, ?_⟩ <;> decide +kernel

/-! ### `proc_nice` -/

theorem niceLoop_apply (pid priority : Int32) (hl : l.Nodup) (q : Slot) :
    (niceLoop pid priority l t).2 q =
      if q ∈ l ∧ (t q).pid = pid then { t q with priority := priority } else t q := by
  induction l generalizing t with
  | nil => simp [niceLoop]
  | cons p ps ih =>
  obtain ⟨hp, hps⟩ := nodup_cons.mp hl
  rw [niceLoop]
  dsimp only
  rw [ih hps]
  rcases eq_or_ne q p with rfl | hne
  · rw [if_neg fun h => hp h.1]
    by_cases hpid : (t q).pid = pid
    · simp [hpid]
    · simp [hpid]
  have hsame : (if (t p).pid = pid then update t p { t p with priority := priority }
      else t) q = t q := by
    split
    · exact update_of_ne hne ..
    · rfl
  rw [hsame]
  refine if_congr ?_ rfl rfl
  simp [hne]

theorem procNice_table (pid priority : Int32) (behind : Proc) (t : Table) (q : Slot) :
    (procNice pid priority behind t).table q =
      if (t q).pid = pid then { t q with priority := priority } else t q := by
  rw [procNice]
  dsimp only
  rw [niceLoop_apply pid priority (nodup_finRange NPROC) q]
  exact if_congr (and_iff_right (mem_finRange q)) rfl rfl

def Live (t : Table) (p : Slot) : Prop := (t p).state ≠ .unused

instance (t : Table) (p : Slot) : Decidable (Live t p) := inferInstanceAs (Decidable (_ ≠ _))

structure PidsOk (t : Table) : Prop where
  ne_zero : ∀ p, Live t p → (t p).pid ≠ 0
  distinct : ∀ p q, Live t p → Live t q → (t p).pid = (t q).pid → p = q

theorem pidsOk_initTable : PidsOk initTable := by
  have hlive : ∀ p, Live initTable p → p = 0 := by
    intro p hp
    by_contra hne
    exact hp (by rw [initTable, if_neg hne]; rfl)
  refine ⟨fun p hp => ?_, fun p q hp hq _ => ?_⟩
  · rw [hlive p hp]
    decide
  · rw [hlive p hp, hlive q hq]

/-- Nothing but the priority of the live process with the pid is changed. -/
def ChangesOne (pid priority : Int32) (t t' : Table) : Prop :=
  ∀ q, t' q = if Live t q ∧ (t q).pid = pid then { t q with priority := priority } else t q

/-- **What `proc_nice` does.** It always uses the element behind the table, whose priority it
returns. It changes the one process and no other slot if and only if the free slots whose pid field
is the pid, if there are any, have the priority already; and it returns the old priority of the
process if and only if the element behind the table happens to have that priority. -/
theorem procNice_exact (pid priority : Int32) (behind : Proc) (t : Table) :
    NPROC ∈ (procNice pid priority behind t).used ∧
      (ChangesOne pid priority t (procNice pid priority behind t).table ↔
        ∀ q, ¬ Live t q → (t q).pid = pid → (t q).priority = priority) ∧
      ∀ p, Live t p → (t p).pid = pid → ((procNice pid priority behind t).ret = (t p).priority ↔
          behind.priority = (t p).priority) := by
  refine ⟨mem_append_right _ (mem_singleton.mpr rfl), ?_, fun p _ _ => Iff.rfl⟩
  constructor
  · intro h q hlive hpid
    have hq := h q
    rw [procNice_table, if_pos hpid, if_neg fun h => hlive h.1] at hq
    exact (congrArg Proc.priority hq).symm
  intro h q
  rw [procNice_table]
  by_cases hpid : (t q).pid = pid
  · rw [if_pos hpid]
    by_cases hlive : Live t q
    · rw [if_pos ⟨hlive, hpid⟩]
    · rw [if_neg fun h => hlive h.1, ← h q hlive hpid]
  · rw [if_neg hpid, if_neg fun h => hpid h.2]

/-- `nice 1 5` reads behind the table, and returns 0 where the old priority was 3; and `nice 0 5`
changes every free slot. -/
theorem procNice_reads_behind : PidsOk initTable ∧
    (¬ ∀ i ∈ (procNice 1 5 emptyProc initTable).used, i < NPROC) ∧
    (procNice 1 5 emptyProc initTable).ret ≠ (initTable 0).priority ∧
    ¬ ChangesOne 0 5 initTable (procNice 0 5 emptyProc initTable).table := by
  refine ⟨pidsOk_initTable, fun h => ?_, by decide, fun h => ?_⟩
  · have hmem : NPROC ∈ (procNice 1 5 emptyProc initTable).used :=
      mem_append_right _ (mem_singleton.mpr rfl)
    exact lt_irrefl _ (h NPROC hmem)
  · have hone := h 1
    rw [procNice_table, if_pos (by decide), if_neg (by decide)] at hone
    exact absurd (congrArg Proc.priority hone) (by decide)

end Xv6.Ptable
