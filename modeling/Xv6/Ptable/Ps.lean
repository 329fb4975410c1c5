import Xv6.Lib.Run
import Xv6.Ptable.Fork

/-!
# `ps`

`sys_ps` of `sysproc.c` and `proc_ps` of `proc.c`. The array of the caller is checked by `argptr`
for the size of a pointer, not for that of the elements, and `proc_ps` does not look at the number
of elements at all: it stores one for each slot in use.

The share of the CPU that `proc_ps` reports is computed from the number of calls of `sched`, which
grows with every switch, in 32 bits.
-/

namespace Xv6.Ptable

open Function List

open Xv6.Sched (NPROC Slot ProcState)

/-! ### `proc_ps` -/

/-- `struct procInfo`; of `name`, the bytes that are stored. -/
structure ProcInfo where
  state : ProcState
  pid : Int32
  cpuPercent : Int32
  name : List UInt8

/-- `sizeof(struct procInfo)`. -/
def INFOSIZE : ℕ := 28

def MAX_PROC_NAME_LENGTH : ℕ := 16

/-- `cpuPercent`, computed with `int`s. -/
def cpuPercent (currentTicks ticksAtStart ticksScheduled : Int32) : Int32 :=
  let elapsedTicks := currentTicks - ticksAtStart
  if 0 < elapsedTicks ∧ 1 < ticksScheduled then
    let cpuPercent := ticksScheduled * 100 / elapsedTicks
    if 100 < cpuPercent then 100 else cpuPercent
  else 0

def Proc.info (p : Proc) (currentTicks : Int32) : ProcInfo where
  state := p.state
  pid := p.pid
  cpuPercent := cpuPercent currentTicks p.ticksAtStart p.ticksScheduled
  name := strBytes p.name MAX_PROC_NAME_LENGTH

/-- The loop of `proc_ps`: what it stores at `arrayOfProcInfo`, one element behind the other. -/
def psLoop (t : Table) (currentTicks : Int32) : List Slot → List ProcInfo
  | [] => []
  | p :: ps =>
    if (t p).state ≠ .unused then (t p).info currentTicks :: psLoop t currentTicks ps
    else psLoop t currentTicks ps

/-- `proc_ps`: the return value, and the elements stored. -/
def procPs (_numberOfProcs : Int32) (t : Table) (ticks : UInt32) : Int32 × List ProcInfo :=
  let stored := psLoop t ticks.toInt32 (finRange NPROC)
  (Int32.ofNat stored.length, stored)

/-! ### Arguments -/

/-- The memory of the calling process and its stack pointer. -/
structure User where
  sz : UInt32
  esp : UInt32
  /-- The `int` at an address. -/
  word : UInt32 → Int32

/-- Fetch the `int` at `addr` from the current process. -/
def fetchint (u : User) (addr : UInt32) : Option Int32 :=
  if addr ≥ u.sz ∨ addr + 4 > u.sz then none else some (u.word addr)

/-- Fetch the `n`th 32-bit system call argument. -/
def argint (u : User) (n : UInt32) : Option Int32 := fetchint u (u.esp + 4 + 4 * n)

/-- Fetch the `n`th word-sized system call argument as a pointer to a block of memory of `size`
bytes. Check that the pointer lies within the process address space. -/
def argptr (u : User) (n : UInt32) (size : Int32) : Option UInt32 :=
  match argint u n with
  | none => none
  | some i =>
    if size < 0 ∨ i.toUInt32 ≥ u.sz ∨ i.toUInt32 + size.toUInt32 > u.sz then none
    else some i.toUInt32

/-- What `ps` does: the return value, the address of the array, and the elements stored there. -/
structure PsResult where
  ret : Int32
  array : UInt32
  stored : List ProcInfo

/-- `sys_ps`; the size that it checks is `sizeof(struct procInfo *)`. -/
def sysPs (u : User) (t : Table) (ticks : UInt32) : PsResult :=
  match argint u 0 with
  | none => ⟨-1, 0, []⟩
  | some numberOfProcs =>
    match argptr u 1 4 with
    | none => ⟨-1, 0, []⟩
    | some procInfoArray =>
      let r := procPs numberOfProcs t ticks
      ⟨r.1, procInfoArray, r.2⟩

/-! ### The buffer of the caller -/

variable {t : Table} {ticks : UInt32} {l : List Slot}

def used (t : Table) : List Slot := (finRange NPROC).filter fun p => (t p).state ≠ .unused

theorem psLoop_eq (t : Table) (now : Int32) (l : List Slot) :
    psLoop t now l = (l.filter fun p => (t p).state ≠ .unused).map fun p => (t p).info now := by
  induction l with
  | nil => rfl
  | cons p ps ih =>
  rw [psLoop]
  by_cases hp : (t p).state ≠ .unused
  · rw [if_pos hp, filter_cons_of_pos (by simpa using hp), map_cons, ih]
  · rw [if_neg hp, filter_cons_of_neg (by simpa using hp), ih]

/-- The elements that `ps` should store, for `count` elements. -/
def firstInfos (t : Table) (ticks : UInt32) (count : ℤ) : List ProcInfo :=
  ((used t).take (min count (used t).length).toNat).map fun p => (t p).info ticks.toInt32

/-- The buffer of the caller is respected: `ps` returns -1 and stores nothing, or it stores elements
with indexes below `count`, all of them in the memory of the process, and returns their number; they
are those of the first slots in use, as many as there is room for. -/
def PsOk (u : User) (t : Table) (ticks : UInt32) (count : ℤ) (r : PsResult) : Prop :=
  (r.ret = -1 ∧ r.stored = []) ∨
    ((∀ k < r.stored.length, (k : ℤ) < count ∧
        r.array.toNat + INFOSIZE * (k + 1) ≤ u.sz.toNat) ∧
      r.ret.toInt = r.stored.length ∧ r.ret.toInt = min count (used t).length ∧
      r.stored = firstInfos t ticks count)

theorem length_used_le (t : Table) : (used t).length ≤ NPROC := by
  have h := length_filter_le (fun p => (t p).state ≠ .unused) (finRange NPROC)
  rwa [length_finRange] at h

theorem toInt_ofNat_length (t : Table) : (Int32.ofNat (used t).length).toInt = (used t).length := by
  have h := length_used_le t
  have hN : NPROC = 64 := rfl
  exact Int32.toInt_ofNat_of_lt (by omega)

theorem argptr_lt {u : User} {n : UInt32} {size : Int32} {array : UInt32}
    (h : argptr u n size = some array) : array.toNat < u.sz.toNat := by
  unfold argptr at h
  split at h
  · cases h
  split at h
  · cases h
  next hok =>
  cases h
  exact UInt32.lt_iff_toNat_lt.mp (UInt32.not_le.mp fun hle => hok (.inr (.inl hle)))

/-- **`ps` and the buffer of the caller.** It is respected if and only if an argument is refused, or
there is room for as many elements as there are slots in use, both in the array and in the memory of
the process. -/
theorem sysPs_ok_iff (u : User) (t : Table) (ticks : UInt32) :
    PsOk u t ticks ((argint u 0).getD 0).toInt (sysPs u t ticks) ↔
      ∀ count array, argint u 0 = some count → argptr u 1 4 = some array →
        (used t).length ≤ count.toInt ∧ array.toNat + INFOSIZE * (used t).length ≤ u.sz.toNat := by
  unfold sysPs
  cases hcount : argint u 0 with
  | none => exact iff_of_true (.inl ⟨rfl, rfl⟩) nofun
  | some count =>
  cases harray : argptr u 1 4 with
  | none => exact iff_of_true (.inl ⟨rfl, rfl⟩) nofun
  | some array =>
  have hstored : psLoop t ticks.toInt32 (finRange NPROC) =
      (used t).map fun p => (t p).info ticks.toInt32 := psLoop_eq ..
  have hret := toInt_ofNat_length t
  have hlt := argptr_lt harray
  have hpos : Int32.ofNat (used t).length ≠ -1 := by
    intro h
    have hneg : (-1 : Int32).toInt = -1 := by decide
    rw [h, hneg] at hret
    omega
  dsimp only [procPs, Option.getD_some]
  rw [hstored, length_map]
  constructor
  · rintro h _ _ ⟨⟩ ⟨⟩
    rcases h with ⟨hbad, -⟩ | ⟨hin, -, hmin, -⟩
    · exact absurd hbad hpos
    rw [length_map] at hin
    dsimp only at hin hmin
    rw [hret] at hmin
    refine ⟨by omega, ?_⟩
    by_cases hnone : (used t).length = 0
    · rw [hnone]
      omega
    · have hlast := (hin ((used t).length - 1) (by omega)).2
      rwa [Nat.sub_add_cancel (by omega)] at hlast
  intro h
  obtain ⟨hle, hroom⟩ := h count array rfl rfl
  have hmin : min count.toInt (used t).length = (used t).length := min_eq_right hle
  refine .inr ⟨fun k hk => ?_, ?_, ?_, ?_⟩
  · rw [length_map] at hk
    refine ⟨by omega, ?_⟩
    have hmul : INFOSIZE * (k + 1) ≤ INFOSIZE * (used t).length :=
      Nat.mul_le_mul_left _ hk
    dsimp only
    omega
  · rw [length_map]
    exact hret
  · rw [hmin]
    exact hret
  · rw [firstInfos, hmin, Int.toNat_natCast, take_length]

/-- A process of one page, with `count` and `array` on its stack. -/
def caller (count array : Int32) : User := ⟨4096, 0, fun addr => if addr = 4 then count else array⟩

/-- With room for one element, but an array that starts four bytes before the end of the memory,
bytes are stored behind it; and with no room at all, an element is stored. -/
theorem ps_overruns : ¬ PsOk (caller 1 4092) initTable 0 1 (sysPs (caller 1 4092) initTable 0) ∧
      ¬ PsOk (caller 0 1024) initTable 0 0 (sysPs (caller 0 1024) initTable 0) := by
  constructor
  · rintro (⟨hret, -⟩ | ⟨hin, -⟩)
    · exact absurd hret (by decide +kernel)
    · have hmem := (hin 0 (by decide +kernel)).2
      exact absurd hmem (by decide +kernel)
  rintro (⟨hret, -⟩ | ⟨hin, -⟩)
  · exact absurd hret (by decide +kernel)
  · have hcount := (hin 0 (by decide +kernel)).1
    exact absurd hcount (lt_irrefl _)

/-! ### Shares of the CPU -/

/-- `ticks`, the counters in the table, and the number of calls of `sched` since the last `fork`
into a slot, which the code does not keep. -/
structure Clock where
  ticks : UInt32
  ticksAtStart : Slot → Int32
  ticksScheduled : Slot → Int32
  calls : Slot → ℕ

inductive ClockAction where
  /-- A timer interrupt: `ticks++`. -/
  | timer
  /-- `fork` makes a process in the slot. -/
  | fork (p : Slot)
  /-- The process in the slot calls `sched`. -/
  | sched (p : Slot)

def tick (s : Clock) : ClockAction → Option Clock
  | .timer => some { s with ticks := s.ticks + 1 }
  | .fork p => some
    { s with
      ticksAtStart := update s.ticksAtStart p s.ticks.toInt32
      ticksScheduled := update s.ticksScheduled p 0
      calls := update s.calls p 0 }
  | .sched p => some
    { s with
      ticksScheduled := update s.ticksScheduled p (s.ticksScheduled p + 1)
      calls := update s.calls p (s.calls p + 1) }

def clockStart : Clock := ⟨0, fun _ => 0, fun _ => 0, fun _ => 0⟩

/-- What `proc_ps` stores as `cpuPercent` for slot `p`. -/
def Clock.percent (s : Clock) (p : Slot) : Int32 :=
  cpuPercent s.ticks.toInt32 (s.ticksAtStart p) (s.ticksScheduled p)

/-- `elapsedTicks`. -/
def Clock.elapsed (s : Clock) (p : Slot) : ℤ := (s.ticks.toInt32 - s.ticksAtStart p).toInt

def Clock.Reached (s : Clock) : Prop := Run.Reachable tick (fun _ _ => True) (· = clockStart) s

theorem Clock.Reached.scheduled {s : Clock} (h : s.Reached) (p : Slot) :
    s.ticksScheduled p = Int32.ofNat (s.calls p) := by
  refine Run.Reachable.invariant (I := fun s => ∀ p, s.ticksScheduled p = Int32.ofNat (s.calls p))
    h ?_ ?_ p
  · rintro _ rfl p
    rfl
  rintro s a s' hI - hstep p
  cases a with
  | timer =>
    cases hstep
    exact hI p
  | fork q =>
    cases hstep
    dsimp only
    rcases eq_or_ne p q with rfl | hne
    · rw [update_self, update_self]
      rfl
    · rw [update_of_ne hne, update_of_ne hne]
      exact hI p
  | sched q =>
    cases hstep
    dsimp only
    rcases eq_or_ne p q with rfl | hne
    · rw [update_self, update_self, hI p, Int32.ofNat_add]
      rfl
    · rw [update_of_ne hne, update_of_ne hne]
      exact hI p

theorem tdiv_nonneg_iff {m e : ℤ} (he : 0 < e) : 0 ≤ m.tdiv e ↔ -e < m := by
  rcases le_or_gt 0 m with hm | hm
  · exact iff_of_true (Int.tdiv_nonneg hm he.le) (by omega)
  have hneg : m.tdiv e = -((-m) / e) := by
    rw [← Int.tdiv_eq_ediv_of_nonneg (by omega), Int.neg_tdiv, Int.neg_neg]
  rw [hneg]
  constructor
  · intro h
    by_contra hle
    have hone : 1 ≤ -m / e := (Int.le_ediv_iff_mul_le he).mpr (by omega)
    omega
  · intro h
    rw [Int.ediv_eq_zero_of_lt (by omega) (by omega)]
    omega

theorem cpuPercent_range_iff (now start scheduled : Int32) :
    (0 ≤ (cpuPercent now start scheduled).toInt ∧ (cpuPercent now start scheduled).toInt ≤ 100) ↔
      (now - start).toInt ≤ 0 ∨ scheduled.toInt ≤ 1 ∨
        -(now - start).toInt < (scheduled * 100).toInt := by
  have h₀ : (0 : Int32).toInt = 0 := by decide
  have h₁ : (1 : Int32).toInt = 1 := by decide
  have h₁₀₀ : (100 : Int32).toInt = 100 := by decide
  unfold cpuPercent
  dsimp only
  by_cases hc : 0 < now - start ∧ 1 < scheduled
  · rw [if_pos hc]
    obtain ⟨he, hs⟩ := hc
    rw [Int32.lt_iff_toInt_lt] at he hs
    rw [h₀] at he
    rw [h₁] at hs
    have hdiv : (scheduled * 100 / (now - start)).toInt =
        (scheduled * 100).toInt.tdiv (now - start).toInt := by
      refine Int32.toInt_div_of_ne_right _ _ ?_
      intro h
      have hneg : (-1 : Int32).toInt = -1 := by decide
      rw [h, hneg] at he
      omega
    have hnn := tdiv_nonneg_iff (m := (scheduled * 100).toInt) he
    by_cases hbig : 100 < scheduled * 100 / (now - start)
    · rw [if_pos hbig, h₁₀₀]
      rw [Int32.lt_iff_toInt_lt, hdiv, h₁₀₀] at hbig
      exact iff_of_true (by omega) (.inr (.inr (hnn.mp (by omega))))
    rw [if_neg hbig, hdiv]
    rw [Int32.lt_iff_toInt_lt, hdiv, h₁₀₀] at hbig
    rw [hnn]
    omega
  · rw [if_neg hc, h₀]
    rw [Int32.lt_iff_toInt_lt, Int32.lt_iff_toInt_lt, h₀, h₁] at hc
    refine iff_of_true (by omega) ?_
    omega

/-- **Shares of the CPU.** In every run, what `ps` reports for a process that has called `sched` `n`
times is between 0 and 100 if and only if no tick has gone by, or `n` is at most 1 in 32 bits, or
`100 * n` in 32 bits is not below zero by as much as the ticks that have gone by. -/
theorem percent_in_range_iff {s : Clock} (h : s.Reached) (p : Slot) :
    (0 ≤ (s.percent p).toInt ∧ (s.percent p).toInt ≤ 100) ↔
      s.elapsed p ≤ 0 ∨ (s.calls p : ℤ).bmod (2 ^ 32) ≤ 1 ∨
        -s.elapsed p < (100 * s.calls p : ℤ).bmod (2 ^ 32) := by
  rw [Clock.percent, cpuPercent_range_iff, h.scheduled p]
  have hcalls : (Int32.ofNat (s.calls p)).toInt = (s.calls p : ℤ).bmod (2 ^ 32) :=
    Int32.toInt_ofNat' ..
  have hmul : (Int32.ofNat (s.calls p) * 100).toInt = (100 * s.calls p : ℤ).bmod (2 ^ 32) := by
    have h₁₀₀ : (100 : Int32).toInt = 100 := by decide
    rw [Int32.toInt_mul, hcalls, h₁₀₀, Int.bmod_mul_bmod, Int.mul_comm]
  rw [hcalls, hmul]
  rfl

theorem percent_in_range_twice : ∃ s : Clock, s.Reached ∧ s.elapsed 1 = 2 ∧ s.calls 1 = 2 ∧
    0 ≤ (s.percent 1).toInt ∧ (s.percent 1).toInt ≤ 100 := by
  obtain ⟨s, h, hq⟩ := Run.Reachable.exists_of_exec
    [.fork 1, .timer, .sched 1, .sched 1, .timer] (fun s => s.elapsed 1 = 2 ∧ s.calls 1 = 2)
    (.start rfl : Clock.Reached clockStart) (by decide +kernel)
  obtain ⟨helapsed, hcalls⟩ := of_decide_eq_true hq
  refine ⟨s, h, helapsed, hcalls, (percent_in_range_iff h 1).mpr (.inr (.inr ?_))⟩
  rw [helapsed, hcalls]
  decide

theorem Clock.Reached.sched_times {s : Clock} (h : s.Reached) (p : Slot) (n : ℕ) :
    ∃ s' : Clock, s'.Reached ∧ s'.ticks = s.ticks ∧ s'.ticksAtStart = s.ticksAtStart ∧
      s'.calls p = s.calls p + n := by
  induction n with
  | zero => exact ⟨s, h, rfl, rfl, rfl⟩
  | succ n ih =>
  obtain ⟨s', h', hticks, hstart, hcalls⟩ := ih
  refine ⟨_, .step h' trivial (a := .sched p) rfl, hticks, hstart, ?_⟩
  dsimp only
  rw [update_self, hcalls, Nat.add_assoc]

/-- After 21474837 calls of `sched`, and one tick, the share is below zero. -/
theorem percent_negative : ∃ s : Clock, s.Reached ∧ s.calls 0 = 21474837 ∧
    (s.percent 0).toInt = -2147483596 := by
  obtain ⟨s, h, hticks, hstart, hcalls⟩ :=
    Clock.Reached.sched_times (.start rfl : Clock.Reached clockStart) 0 21474837
  have hcalls' : s.calls 0 = 21474837 := hcalls.trans (Nat.zero_add _)
  refine ⟨_, .step h trivial (a := .timer) rfl, hcalls', ?_⟩
  have hsched := h.scheduled 0
  rw [hcalls'] at hsched
  change (cpuPercent (s.ticks + 1).toInt32 (s.ticksAtStart 0) (s.ticksScheduled 0)).toInt = _
  rw [hticks, hstart, hsched]
  decide +kernel

end Xv6.Ptable
