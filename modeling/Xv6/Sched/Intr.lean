import Mathlib.Tactic.Common
import Xv6.Lib.Run

/-!
# Interrupts

The nesting of `pushcli` and `popcli`, for any sets of CPUs, processes and locks. `ncli` and
`intena` belong to a CPU but describe the thread that runs on it. A process that calls `sched` keeps
`intena` on its stack and leaves `ncli` at 1, which is what the scheduler's `acquire` has made of it
on every CPU where the process can resume.

A thread does what it likes, as long as it leaves no more sections than it entered. An interrupt can
come whenever the flag is set, also in `pushcli` between `readeflags` and `cli`; the handler is code
of the same thread, and may call `sched`. Which process a scheduler chooses is left open: any that
no CPU runs. So every interleaving of the source is one here.

The scheduler itself does not keep `intena`: its own `release` takes what the last process left.
-/

namespace Xv6.Intr

open Function Run

/-! ### Per-CPU state -/

/-- The fields of `struct cpu` that `spinlock.c` uses, and the CPU's interrupt flag. -/
structure Cpu where
  ncli : ℤ
  intena : Bool
  /-- `readeflags() & FL_IF`. -/
  ifl : Bool

inductive Panic where
  | popcliInterruptible
  | popcli
  | acquire
  | release
  | schedLock
  | mycpu
  | schedLocks
  | schedInterruptible

/-- `pushcli` from `cli()` on. -/
def Cpu.pushcli (k : Cpu) (eflags : Bool) : Cpu where
  ncli := k.ncli + 1
  intena := if k.ncli = 0 then eflags else k.intena
  ifl := false

def Cpu.popcli (k : Cpu) : Except Panic Cpu :=
  if k.ifl then throw .popcliInterruptible
  else if k.ncli - 1 < 0 then throw .popcli
  else return { k with ncli := k.ncli - 1, ifl := k.ncli - 1 = 0 && k.intena }

section Locks

variable {C : Type} [DecidableEq C] (k : Cpu) (c : C) (cpu : Option C)

/-- Check whether CPU `c` is holding a lock; `cpu` is the CPU that does, if any. -/
def Cpu.holding : Except Panic (Bool × Cpu) := do
  let k ← (k.pushcli k.ifl).popcli
  return (cpu = some c, k)

/-- `acquire` from `cli()` to its loop. -/
def Cpu.acquire (eflags : Bool) : Except Panic Cpu := do
  let (r, k) ← (k.pushcli eflags).holding c cpu
  if r then throw .acquire else return k

def Cpu.release : Except Panic Cpu := do
  let (r, k) ← k.holding c cpu
  if r then k.popcli else throw .release

/-- `sched` before it switches. The first call of `mycpu` fails if interrupts are enabled. -/
def Cpu.sched : Except Panic Cpu := do
  let (r, k) ← k.holding c cpu
  if r = false then throw .schedLock
  else if k.ifl then throw .mycpu
  else if k.ncli ≠ 1 then throw .schedLocks
  else if k.ifl then throw .schedInterruptible
  else return k

end Locks

/-! ### Threads -/

inductive Pc (L : Type) where
  | run
  /-- In `pushcli`, called by `acquire(lk)` or by itself; `eflags` has been read. -/
  | pushcli (eflags : Bool) (lk : Option L)
  /-- In the loop of `acquire`. -/
  | spin (lk : L)

structure Kstack (L : Type) where
  /-- Calls of `pushcli` without their `popcli`. -/
  depth : ℕ
  pc : Pc L
  /-- Where the thread was when it was interrupted, the last time first. -/
  traps : List (Pc L)

inductive Op (L : Type) where
  /-- Call `acquire` or `pushcli`, which reads `eflags`. -/
  | call (lk : Option L)
  | cli
  | xchg
  | popcli
  | release (lk : L)
  | trap
  | iret
  /-- `sti` or `cli` outside all sections, as in `scheduler`. -/
  | flag (b : Bool)

variable {C P L : Type} [DecidableEq C]

/-- One step of a thread on CPU `c`. -/
def exec [DecidableEq L] (c : C) (lock : L → Option C) (k : Cpu) (t : Kstack L) (o : Op L) :
    Option (Cpu × Kstack L × (L → Option C)) :=
  match o, t.pc with
  | .call lk, .run => some (k, { t with pc := .pushcli k.ifl lk }, lock)
  | .cli, .pushcli e none =>
    some (k.pushcli e, { t with depth := t.depth + 1, pc := .run }, lock)
  | .cli, .pushcli e (some lk) =>
    (k.acquire c (lock lk) e).toOption.map fun k' =>
      (k', { t with depth := t.depth + 1, pc := .spin lk }, lock)
  | .xchg, .spin lk =>
    if lock lk = none then some (k, { t with pc := .run }, update lock lk (some c)) else none
  | .popcli, .run =>
    if t.depth = 0 then none
    else k.popcli.toOption.map fun k' => (k', { t with depth := t.depth - 1 }, lock)
  | .release lk, .run =>
    if t.depth = 0 then none
    else (k.release c (lock lk)).toOption.map fun k' =>
      (k', { t with depth := t.depth - 1 }, update lock lk none)
  | .trap, pc =>
    if k.ifl then
      some ({ k with ifl := false }, { t with pc := .run, traps := pc :: t.traps }, lock)
    else none
  | .iret, .run =>
    if t.depth = 0 then
      t.traps.head?.map fun pc =>
        ({ k with ifl := true }, { t with pc := pc, traps := t.traps.tail }, lock)
    else none
  | .flag b, .run => if t.depth = 0 then some ({ k with ifl := b }, t, lock) else none
  | _, _ => none

/-! ### The system -/

inductive Thread (C P : Type) where
  | scheduler (c : C)
  | proc (p : P)
  deriving DecidableEq

inductive Context where
  | forkret
  /-- It returns from `swtch` in `sched`, where `intena` is a local variable. -/
  | sched (intena : Bool)

structure Sys (C P L : Type) where
  cpu : C → Cpu
  runs : C → Thread C P
  stack : Thread C P → Kstack L
  context : P → Context
  lock : L → Option C

/-- The end of `sched`. -/
def Cpu.resume (k : Cpu) : Context → Cpu
  | .forkret => k
  | .sched e => { k with intena := e }

inductive Act (P L : Type) where
  | op (o : Op L)
  /-- The process calls `sched`, which switches to the scheduler. -/
  | sched
  /-- The scheduler, holding only `ptable.lock`, switches to a process. -/
  | swtch (p : P)

variable {s s' s₁ s₂ : Sys C P L} {p : P} {c c' : C}

section System

variable [Fintype C] [DecidableEq P] [DecidableEq L] (ptable : L)

def step (s : Sys C P L) : C × Act P L → Option (Sys C P L)
  | (c, .op o) =>
    (exec c s.lock (s.cpu c) (s.stack (s.runs c)) o).map fun (k, t, lock) =>
      { s with cpu := update s.cpu c k, stack := update s.stack (s.runs c) t, lock := lock }
  | (c, .sched) =>
    match s.runs c, (s.stack (s.runs c)).pc with
    | .proc p, .run =>
      ((s.cpu c).sched c (s.lock ptable)).toOption.map fun k =>
        { s with cpu := update s.cpu c k, runs := update s.runs c (.scheduler c),
                 context := update s.context p (.sched k.intena) }
    | _, _ => none
  | (c, .swtch p) =>
    match s.runs c, (s.stack (s.runs c)).pc with
    | .scheduler _, .run =>
      if (s.stack (s.runs c)).depth = 1 ∧ s.lock ptable = some c ∧ ∀ c', s.runs c' ≠ .proc p then
        some { s with cpu := update s.cpu c ((s.cpu c).resume (s.context p)),
                      runs := update s.runs c (.proc p) }
      else none
    | _, _ => none

/-- Every CPU is about to enter its scheduler, with interrupts off. A process that has not run yet
has `ptable.lock` from the scheduler that will start it, and a trap frame to return with. -/
def boot : Sys C P L where
  cpu _ := ⟨0, false, false⟩
  runs := .scheduler
  stack
    | .scheduler _ => ⟨0, .run, []⟩
    | .proc _ => ⟨1, .run, [.run]⟩
  context _ := .forkret
  lock _ := none

abbrev Reached : Sys C P L → Prop :=
  Reachable (step ptable) (fun _ _ => True) (· = boot)

/-- From the outermost `acquire` of a process, by the step from `s` to `s₁`, to the matching
`release`, by the step from `s₂` to `s'`. -/
structure Section (p : P) (s s₁ s₂ s' : Sys C P L) : Prop where
  outside : (s.stack (.proc p)).depth = 0
  acquire : ∃ a, step ptable s a = some s₁
  entered : (s₁.stack (.proc p)).depth ≠ 0
  inside : Reachable (step ptable) (fun u _ => (u.stack (.proc p)).depth ≠ 0) (· = s₁) s₂
  last : (s₂.stack (.proc p)).depth ≠ 0
  release : ∃ a, step ptable s₂ a = some s'
  left : (s'.stack (.proc p)).depth = 0

end System

/-! ### One thread -/

variable {k k' : Cpu} {t t' : Kstack L} {cpu : Option C} {e : Bool}
  {lock lock' : L → Option C} {o : Op L}

theorem of_toOption {x : Except Panic Cpu} (h : x.toOption = some k) : x = .ok k := by
  cases x with
  | error => cases h
  | ok =>
    cases h
    rfl

theorem popcli_eq (hoff : k.ifl = false) (hn : 0 < k.ncli) :
    k.popcli = .ok { k with ncli := k.ncli - 1, ifl := k.ncli - 1 = 0 && k.intena } := by
  rw [Cpu.popcli, if_neg (by simp [hoff]), if_neg (by omega)]
  rfl

theorem holding_eq (hoff : k.ifl = false) (hn : 0 < k.ncli) :
    k.holding c cpu = .ok (decide (cpu = some c), k) := by
  have hpush : (k.pushcli k.ifl).popcli = .ok k := by
    rw [popcli_eq rfl (by simp only [Cpu.pushcli]; omega)]
    simp only [Cpu.pushcli, Int.add_sub_cancel, hn.ne', if_false, decide_false, Bool.false_and]
    rw [← hoff]
  rw [Cpu.holding, hpush]
  rfl

theorem acquire_eq (hn : 0 ≤ k.ncli) (h : k.acquire c cpu e = .ok k') : k' = k.pushcli e := by
  rw [Cpu.acquire, holding_eq rfl (by simp only [Cpu.pushcli]; omega)] at h
  change (if decide (cpu = some c) = true then _ else _) = _ at h
  split at h
  · cases h
  · cases h
    rfl

theorem release_eq (hoff : k.ifl = false) (hn : 0 < k.ncli) (h : k.release c cpu = .ok k') :
    k' = { k with ncli := k.ncli - 1, ifl := k.ncli - 1 = 0 && k.intena } := by
  rw [Cpu.release, holding_eq hoff hn] at h
  change (if decide (cpu = some c) = true then _ else _) = _ at h
  split at h
  · rw [popcli_eq hoff hn] at h
    cases h
    rfl
  · cases h

/-- `eflags`, where it has been read, is the flag `b`. -/
def Pc.Read (b : Bool) (pc : Pc L) : Prop := ∀ e lk, pc = .pushcli e lk → e = b

/-- What holds between a CPU and the thread that runs on it. -/
structure Sound (k : Cpu) (t : Kstack L) : Prop where
  ncli : k.ncli = t.depth
  off : t.depth ≠ 0 → k.ifl = false
  read : t.pc.Read k.ifl
  traps : ∀ pc ∈ t.traps, Pc.Read true pc

theorem Sound.ncli_pos (h : Sound k t) (ht : t.depth ≠ 0) : 0 < k.ncli := by
  rw [h.ncli]
  omega

theorem Sound.off_of_pos (h : Sound k t) (hn : 0 < k.ncli) : k.ifl = false := by
  refine h.off fun h0 => ?_
  rw [h.ncli, h0] at hn
  exact absurd hn (by decide)

theorem sched_eq (hs : Sound k t) (h : k.sched c cpu = .ok k') : k' = k ∧ t.depth = 1 := by
  rcases Nat.eq_zero_or_pos t.depth with hz | hpos
  · -- outside all sections `holding` leaves `ncli` at 0
    have hpop : (k.pushcli k.ifl).popcli = .ok ⟨0, k.ifl, k.ifl⟩ := by
      rw [popcli_eq rfl (by simp [Cpu.pushcli, hs.ncli, hz])]
      simp [Cpu.pushcli, hs.ncli, hz]
    rw [Cpu.sched, Cpu.holding, hpop] at h
    change (if decide (cpu = some c) = false then _ else if k.ifl = true then _ else _) = _ at h
    split at h
    · cases h
    · split at h
      · cases h
      · cases h
  have hn := hs.ncli_pos hpos.ne'
  rw [Cpu.sched, holding_eq (hs.off_of_pos hn) hn] at h
  change (if decide (cpu = some c) = false then _ else if k.ifl = true then _ else
    if k.ncli ≠ 1 then _ else if k.ifl = true then _ else _) = _ at h
  rw [hs.off_of_pos hn] at h
  split at h
  · cases h
  rw [if_neg (by decide)] at h
  split at h
  · cases h
  next hone =>
  cases h
  rw [not_not, hs.ncli] at hone
  exact ⟨rfl, by omega⟩

/-- What a step of a thread does to `intena` and to the flag. -/
structure Executed (k : Cpu) (t : Kstack L) (k' : Cpu) (t' : Kstack L) : Prop where
  sound : Sound k' t'
  inside : t.depth ≠ 0 → k'.intena = k.intena
  enter : t.depth = 0 → t'.depth ≠ 0 → k'.intena = k.ifl
  leave : t.depth ≠ 0 → t'.depth = 0 → k'.ifl = k.intena

theorem Executed.same (hs : Sound k' t') (hd : t'.depth = t.depth) (hi : k'.intena = k.intena) :
    Executed k t k' t' :=
  ⟨hs, fun _ => hi, fun h0 h1 => absurd (hd.trans h0) h1, fun h1 h0 => absurd (hd.symm.trans h0) h1⟩

theorem read_run (b : Bool) : (Pc.run : Pc L).Read b := nofun

theorem Sound.pushcli (h : Sound k t) {lk : Option L} (hpc : t.pc = .pushcli e lk) {pc : Pc L}
    (hnext : pc.Read false) :
    Executed k t (k.pushcli e) { t with depth := t.depth + 1, pc := pc } := by
  have he : e = k.ifl := h.read e lk hpc
  refine ⟨⟨?_, fun _ => rfl, hnext, h.traps⟩, fun ht => ?_, fun ht _ => ?_, fun _ h0 => nomatch h0⟩
  · change k.ncli + 1 = ((t.depth + 1 : ℕ) : ℤ)
    rw [h.ncli]
    rfl
  · exact if_neg (h.ncli_pos ht).ne'
  · refine (if_pos ?_).trans he
    rw [h.ncli, ht]
    rfl

theorem Sound.popcli (h : Sound k t) (ht : t.depth ≠ 0) (hpc : t.pc = .run) :
    Executed k t { k with ncli := k.ncli - 1, ifl := k.ncli - 1 = 0 && k.intena }
      { t with depth := t.depth - 1 } := by
  have hn : k.ncli - 1 = ((t.depth - 1 : ℕ) : ℤ) := by
    rw [h.ncli]
    omega
  refine ⟨⟨hn, fun hd => ?_, ?_, h.traps⟩, fun _ => rfl, fun h0 => absurd h0 ht, fun _ h0 => ?_⟩
  · have hne : k.ncli - 1 ≠ 0 := by
      rw [hn]
      exact Int.natCast_ne_zero.mpr hd
    simp only [hne, decide_false, Bool.false_and]
  · change t.pc.Read _
    rw [hpc]
    exact read_run _
  · change t.depth - 1 = 0 at h0
    simp only [hn, h0]
    rfl

theorem exec_spec [DecidableEq L] (h : Sound k t) (he : exec c lock k t o = some (k', t', lock')) :
    Executed k t k' t' := by
  have hn : 0 ≤ k.ncli := by
    rw [h.ncli]
    exact Int.natCast_nonneg _
  unfold exec at he
  split at he
  · cases he
    refine .same ⟨h.ncli, h.off, ?_, h.traps⟩ rfl rfl
    rintro _ _ heq
    cases heq
    rfl
  · next hpc =>
    cases he
    exact h.pushcli hpc (read_run _)
  · next hpc =>
    obtain ⟨k₁, hk, he⟩ := Option.map_eq_some_iff.mp he
    cases he
    rw [acquire_eq hn (of_toOption hk)]
    exact h.pushcli hpc nofun
  · split at he
    · cases he
      exact .same ⟨h.ncli, h.off, read_run _, h.traps⟩ rfl rfl
    · cases he
  · next hpc =>
    split at he
    · cases he
    next hd =>
    obtain ⟨k₁, hk, he⟩ := Option.map_eq_some_iff.mp he
    cases he
    rw [popcli_eq (h.off hd) (h.ncli_pos hd)] at hk
    cases hk
    exact h.popcli hd hpc
  · next hpc =>
    split at he
    · cases he
    next hd =>
    obtain ⟨k₁, hk, he⟩ := Option.map_eq_some_iff.mp he
    cases he
    rw [release_eq (h.off hd) (h.ncli_pos hd) (of_toOption hk)]
    exact h.popcli hd hpc
  · -- an interrupt: `eflags` was read with the flag set
    split at he
    · next hon =>
      cases he
      refine .same ⟨h.ncli, fun _ => rfl, read_run _, fun pc hpc => ?_⟩ rfl rfl
      rcases List.mem_cons.mp hpc with rfl | hpc
      · exact hon ▸ h.read
      · exact h.traps pc hpc
    · cases he
  · -- back from it: the flag is set again
    split at he
    · next hd =>
      obtain ⟨pc, hpc, he⟩ := Option.map_eq_some_iff.mp he
      cases he
      refine .same ⟨h.ncli, fun h0 => absurd hd h0, ?_, fun pc' hpc' => ?_⟩ rfl rfl
      · exact h.traps pc (List.mem_of_mem_head? hpc)
      · exact h.traps pc' (List.mem_of_mem_tail hpc')
    · cases he
  · next hpc =>
    split at he
    · next hd =>
      cases he
      refine .same ⟨h.ncli, fun h0 => absurd hd h0, ?_, h.traps⟩ rfl rfl
      rw [hpc]
      exact read_run _
    · cases he
  · cases he

/-! ### All threads -/

/-- A thread that does not run is in one section, that of `ptable.lock`. -/
structure Waits (t : Kstack L) : Prop where
  depth : t.depth = 1
  pc : t.pc = .run
  traps : ∀ pc ∈ t.traps, Pc.Read true pc

theorem Waits.sound (h : Waits t) (hn : k.ncli = 1) (hoff : k.ifl = false) : Sound k t := by
  refine ⟨?_, fun _ => hoff, ?_, h.traps⟩
  · rw [hn, h.depth]
    rfl
  · rw [h.pc]
    exact read_run _

structure Inv (s : Sys C P L) : Prop where
  sound : ∀ c, Sound (s.cpu c) (s.stack (s.runs c))
  waits : ∀ x, (∀ c, s.runs c ≠ x) → Waits (s.stack x)
  inj : Injective s.runs
  own : ∀ c c', s.runs c = .scheduler c' → c = c'

/-- What a step on CPU `c` can do. -/
inductive Stepped [DecidableEq P] (s : Sys C P L) (c : C) : Sys C P L → Prop
  | op {k : Cpu} {t : Kstack L} (lock : L → Option C) :
    Executed (s.cpu c) (s.stack (s.runs c)) k t → Stepped s c { s with
      cpu := update s.cpu c k, stack := update s.stack (s.runs c) t, lock := lock }
  /-- `sched`. -/
  | save {p : P} : s.runs c = .proc p → Waits (s.stack (s.runs c)) → Stepped s c { s with
      runs := update s.runs c (.scheduler c)
      context := update s.context p (.sched (s.cpu c).intena) }
  | resume {p : P} : s.runs c = .scheduler c → Waits (s.stack (s.runs c)) →
    (∀ c', s.runs c' ≠ .proc p) → Stepped s c { s with
      cpu := update s.cpu c ((s.cpu c).resume (s.context p)), runs := update s.runs c (.proc p) }

section Steps

variable [DecidableEq P]

theorem resume_ncli (x : Context) : (k.resume x).ncli = k.ncli ∧ (k.resume x).ifl = k.ifl := by
  cases x <;> exact ⟨rfl, rfl⟩

omit [DecidableEq P] in
theorem Inv.switch (h : Inv s) (hw : Waits (s.stack (s.runs c))) {x : Thread C P}
    (hx : ∀ c', s.runs c' ≠ x) (hown : ∀ c', x = .scheduler c' → c = c')
    (hn : k.ncli = (s.cpu c).ncli) (hf : k.ifl = (s.cpu c).ifl) (context : P → Context) :
    Inv { s with cpu := update s.cpu c k, runs := update s.runs c x, context := context } := by
  have hc := h.sound c
  refine ⟨fun c' => ?_, fun y hy => ?_, fun c₁ c₂ heq => ?_, fun c₁ c₂ heq => ?_⟩
  · change Sound (update s.cpu c k c') (s.stack (update s.runs c x c'))
    rcases eq_or_ne c' c with rfl | hne
    · rw [update_self, update_self]
      refine (h.waits x hx).sound ?_ (hf.trans (hc.off ?_))
      · rw [hn, hc.ncli, hw.depth]
        rfl
      · rw [hw.depth]
        exact Nat.one_ne_zero
    · rw [update_of_ne hne, update_of_ne hne]
      exact h.sound c'
  · by_cases hyc : y = s.runs c
    · rw [hyc]
      exact hw
    · refine h.waits y fun c' heq => hy c' ((update_of_ne ?_ ..).trans heq)
      rintro rfl
      exact hyc heq.symm
  · change update s.runs c x c₁ = update s.runs c x c₂ at heq
    rcases eq_or_ne c₁ c with rfl | h₁
    · rcases eq_or_ne c₂ c₁ with rfl | h₂
      · rfl
      · rw [update_self, update_of_ne h₂] at heq
        exact absurd heq.symm (hx c₂)
    rcases eq_or_ne c₂ c with rfl | h₂
    · rw [update_self, update_of_ne h₁] at heq
      exact absurd heq (hx c₁)
    · rw [update_of_ne h₁, update_of_ne h₂] at heq
      exact h.inj heq
  · change update s.runs c x c₁ = _ at heq
    rcases eq_or_ne c₁ c with rfl | h₁
    · rw [update_self] at heq
      exact hown c₂ heq
    · rw [update_of_ne h₁] at heq
      exact h.own c₁ c₂ heq

theorem Stepped.inv (hs : Stepped s c s') (h : Inv s) : Inv s' := by
  cases hs with
  | op lock hex =>
    refine ⟨fun c' => ?_, fun x hx => ?_, h.inj, h.own⟩
    · change Sound (update s.cpu c _ c') (update s.stack (s.runs c) _ (s.runs c'))
      rcases eq_or_ne c' c with rfl | hne
      · rw [update_self, update_self]
        exact hex.sound
      · rw [update_of_ne hne, update_of_ne (h.inj.ne hne)]
        exact h.sound c'
    · change Waits (update s.stack (s.runs c) _ x)
      rw [update_of_ne (hx c).symm]
      exact h.waits x hx
  | save hp hw =>
    rw [← update_eq_self c s.cpu]
    refine h.switch hw (fun c' heq => ?_) (fun c' heq => by cases heq; rfl) rfl rfl _
    obtain rfl := h.own _ _ heq
    rw [hp] at heq
    cases heq
  | @resume p hc hw hp =>
    obtain ⟨hn, hf⟩ := resume_ncli (k := s.cpu c) (s.context p)
    exact h.switch hw hp nofun hn hf _

/-- Process `p` goes on with `intena = e`: it is on the CPU that runs it, or on its stack. -/
structure Carries (e : Bool) (p : P) (s : Sys C P L) : Prop where
  live : ∀ c, s.runs c = .proc p → (s.cpu c).intena = e
  saved : (∀ c, s.runs c ≠ .proc p) → s.context p = .sched e

theorem Stepped.carries (hs : Stepped s c s') (hd : (s.stack (.proc p)).depth ≠ 0)
    (hc : Carries e p s) : Carries e p s' := by
  cases hs with
  | op lock hex =>
    refine ⟨fun c' hp => ?_, hc.saved⟩
    change s.runs c' = _ at hp
    change (update s.cpu c _ c').intena = e
    rcases eq_or_ne c' c with rfl | hne
    · rw [hp] at hex
      rw [update_self, hex.inside hd]
      exact hc.live c' hp
    · rw [update_of_ne hne]
      exact hc.live c' hp
  | @save q hq hw =>
    refine ⟨fun c' hp => ?_, fun hr => ?_⟩
    · change update s.runs c _ c' = _ at hp
      rcases eq_or_ne c' c with rfl | hne
      · rw [update_self] at hp
        cases hp
      · rw [update_of_ne hne] at hp
        exact hc.live c' hp
    change update s.context q _ p = _
    rcases eq_or_ne p q with rfl | hne
    · rw [update_self, hc.live c hq]
    rw [update_of_ne hne]
    refine hc.saved fun c' hp => hr c' ((update_of_ne ?_ ..).trans hp)
    rintro rfl
    rw [hq] at hp
    cases hp
    exact hne rfl
  | @resume q hq hw hrest =>
    refine ⟨fun c' hp => ?_, fun hr => ?_⟩
    · change update s.runs c _ c' = _ at hp
      change (update s.cpu c _ c').intena = e
      rcases eq_or_ne c' c with rfl | hne
      · rw [update_self] at hp ⊢
        cases hp
        rw [hc.saved hrest]
        rfl
      · rw [update_of_ne hne] at hp ⊢
        exact hc.live c' hp
    · refine hc.saved fun c' hp => hr c' ((update_of_ne ?_ ..).trans hp)
      rintro rfl
      rw [hq] at hp
      cases hp

theorem Stepped.executed (hs : Stepped s c s')
    (hne : (s'.stack (.proc p)).depth ≠ (s.stack (.proc p)).depth) :
    s.runs c = .proc p ∧ s'.runs = s.runs ∧
      Executed (s.cpu c) (s.stack (.proc p)) (s'.cpu c) (s'.stack (.proc p)) := by
  cases hs with
  | op lock hex =>
    by_cases hp : s.runs c = .proc p
    · rw [hp] at hex ⊢
      refine ⟨rfl, rfl, ?_⟩
      change Executed _ _ (update s.cpu c _ c) (update s.stack _ _ _)
      rw [update_self, update_self]
      exact hex
    · refine absurd (congrArg Kstack.depth ?_) hne
      exact update_of_ne (Ne.symm hp) ..
  | save => exact absurd rfl hne
  | resume => exact absurd rfl hne

theorem Stepped.ncli_eq_zero_iff (hs : Stepped s c s') (h : Inv s) (hc : 0 < (s.cpu c').ncli) :
    (s'.cpu c').ncli = 0 ↔ (s'.stack (s.runs c')).depth = 0 := by
  have hd := (h.sound c').ncli
  have hd' := ((hs.inv h).sound c').ncli
  cases hs with
  | op =>
    change _ = ((update s.stack _ _ (s.runs c')).depth : ℤ) at hd'
    change _ ↔ (update s.stack _ _ (s.runs c')).depth = 0
    omega
  | save =>
    change (s.cpu c').ncli = 0 ↔ (s.stack (s.runs c')).depth = 0
    omega
  | @resume p =>
    have hn : (update s.cpu c ((s.cpu c).resume (s.context p)) c').ncli = (s.cpu c').ncli := by
      rcases eq_or_ne c' c with rfl | hne
      · rw [update_self, (resume_ncli _).1]
      · rw [update_of_ne hne]
    change (update s.cpu c _ c').ncli = 0 ↔ (s.stack (s.runs c')).depth = 0
    omega

/-! ### Runs -/

variable [Fintype C] [DecidableEq L] {ptable : L}

theorem Inv.stepped (h : Inv s) {a : Act P L} (hs : step ptable s (c, a) = some s') :
    Stepped s c s' := by
  have hc := h.sound c
  cases a with
  | op o =>
    obtain ⟨⟨k, t, lock⟩, he, rfl⟩ := Option.map_eq_some_iff.mp hs
    exact .op lock (exec_spec hc he)
  | sched =>
    rw [step] at hs
    split at hs
    · next p hp hpc =>
      obtain ⟨k, hk, rfl⟩ := Option.map_eq_some_iff.mp hs
      obtain ⟨rfl, hone⟩ := sched_eq hc (of_toOption hk)
      rw [update_eq_self]
      exact .save hp ⟨hone, hpc, hc.traps⟩
    · cases hs
  | swtch p =>
    rw [step] at hs
    split at hs
    · next c' hp hpc =>
      split at hs
      · next hcond =>
        cases hs
        obtain rfl := h.own _ _ hp
        exact .resume hp ⟨hcond.1, hpc, hc.traps⟩ hcond.2.2
      · cases hs
    · cases hs

theorem reached_inv (hs : Reached ptable s) : Inv s := by
  refine hs.invariant (fun s hb => ?_) fun s a s' h _ hstep => (h.stepped hstep).inv h
  rw [hb]
  refine ⟨fun c => ⟨rfl, fun _ => rfl, read_run _, nofun⟩, fun x hx => ?_,
    fun _ _ heq => by cases heq; rfl, fun _ _ heq => by cases heq; rfl⟩
  cases x with
  | scheduler c => exact absurd rfl (hx c)
  | proc p =>
    refine ⟨rfl, rfl, fun pc hpc => ?_⟩
    rw [List.mem_singleton.mp hpc]
    exact read_run _

theorem Section.ifl_eq (h : Section ptable p s s₁ s₂ s') (hs : Inv s) (hc : s.runs c = .proc p)
    (hc' : s₂.runs c' = .proc p) : (s'.cpu c').ifl = (s.cpu c).ifl := by
  obtain ⟨⟨c₁, a₁⟩, hacq⟩ := h.acquire
  obtain ⟨⟨c₂, a₂⟩, hrel⟩ := h.release
  have hst := hs.stepped hacq
  obtain ⟨hp, hon, hex⟩ := hst.executed (p := p) fun heq => h.entered (heq.trans h.outside)
  obtain rfl := hs.inj (hc.trans hp.symm)
  have hcarries : Carries (s.cpu c).ifl p s₁ := by
    rw [← hon] at hc
    refine ⟨fun d hd => ?_, fun hr => absurd hc (hr c)⟩
    rw [(hst.inv hs).inj (hd.trans hc.symm)]
    exact hex.enter h.outside h.entered
  obtain ⟨hinv, hcarries⟩ : Inv s₂ ∧ Carries (s.cpu c).ifl p s₂ := by
    refine h.inside.invariant (I := fun u => Inv u ∧ Carries (s.cpu c).ifl p u) ?_ ?_
    · rintro _ rfl
      exact ⟨hst.inv hs, hcarries⟩
    · intro u a u' hu hd hstep
      have hstepped := hu.1.stepped hstep
      exact ⟨hstepped.inv hu.1, hstepped.carries hd hu.2⟩
  obtain ⟨hp₂, -, hex₂⟩ := (hinv.stepped hrel).executed (p := p) fun heq =>
    h.last (heq.symm.trans h.left)
  rw [hinv.inj (hc'.trans hp₂.symm), hex₂.leave h.last h.left]
  exact hcarries.live c₂ hp₂

/-- **Interrupts follow the thread.** In every state that an interleaving reaches, interrupts are
off on a CPU with `ncli > 0`; `ncli` goes back to 0 exactly when the thread that runs there leaves
its outermost section; and a process that leaves its outermost section, on whatever CPU, has
interrupts enabled afterwards iff it had when it entered. -/
theorem interrupts_follow_thread (hs : Reached ptable s) :
    (∀ c, 0 < (s.cpu c).ncli → (s.cpu c).ifl = false) ∧
    (∀ c a s', step ptable s a = some s' → 0 < (s.cpu c).ncli →
      ((s'.cpu c).ncli = 0 ↔ (s'.stack (s.runs c)).depth = 0)) ∧
    ∀ p c c' s₁ s₂ s', Section ptable p s s₁ s₂ s' → s.runs c = .proc p → s₂.runs c' = .proc p →
      ((s'.cpu c').ifl = true ↔ (s.cpu c).ifl = true) := by
  have h := reached_inv hs
  refine ⟨fun c hc => (h.sound c).off_of_pos hc, fun c a s' hstep hc => ?_,
    fun p c c' s₁ s₂ s' hsec hp hp' => ?_⟩
  · exact (h.stepped hstep).ncli_eq_zero_iff h hc
  · rw [hsec.ifl_eq h hp hp']

/-- A process that has interrupts enabled calls `acquire` and `sched`. A CPU whose interrupts are
off resumes it, and enables them when it calls `release`. -/
theorem interrupts_follow_thread_migrated :
    ∃ s s₁ s₂ s' : Sys Bool Unit Unit, Section () () s s₁ s₂ s' ∧
      s.runs false = .proc () ∧ s₂.runs true = .proc () ∧ (s'.cpu true).ifl = true := by
  have hstart : Reached () (boot : Sys Bool Unit Unit) := .start rfl
  obtain ⟨s, hs, hq⟩ := hstart.exists_of_exec
    [(false, .op (.flag true)), (false, .op (.call (some ()))), (false, .op .cli),
      (false, .op .xchg), (false, .swtch ()), (false, .op (.release ())),
      (false, .op (.call (some ())))]
    (fun s => (s.cpu false).ifl ∧ s.runs false = .proc () ∧ (s.stack (.proc ())).depth = 0 ∧
      (step () s (false, .op .cli)).any fun s₁ => (s₁.stack (.proc ())).depth ≠ 0 ∧
      (Run.exec (step ()) (fun u _ => (u.stack (.proc ())).depth ≠ 0) s₁
        [(false, .op .xchg), (false, .sched), (false, .op (.release ())),
          (true, .op (.call (some ()))), (true, .op .cli), (true, .op .xchg),
          (true, .swtch ())]).any fun s₂ =>
        (s₂.stack (.proc ())).depth ≠ 0 ∧ s₂.runs true = .proc () ∧
        (step () s₂ (true, .op (.release ()))).any fun s' => (s'.stack (.proc ())).depth = 0)
    (by decide +kernel)
  simp only [decide_eq_true_eq, Option.any_eq_true] at hq
  obtain ⟨hf, hon, hout, s₁, hacq, hent, s₂, hrun, hlast, hon₂, s', hrel, hleft⟩ := hq
  have hsec : Section () () s s₁ s₂ s' :=
    ⟨hout, ⟨_, hacq⟩, hent, .of_exec (.start rfl) hrun, hlast, ⟨_, hrel⟩, hleft⟩
  exact ⟨s, s₁, s₂, s', hsec, hon, hon₂,
    ((interrupts_follow_thread hs).2.2 () false true s₁ s₂ s' hsec hon hon₂).mpr hf⟩

end Steps

end Xv6.Intr
