import Mathlib.Algebra.GroupWithZero.Nat
import Mathlib.Logic.Function.Iterate
import Mathlib.Tactic.Common

/-!
# The multiprocessor tables

`mp.c`. At boot the kernel searches memory for the floating pointer structure, checks the
configuration table it points to, and goes through the entries of the table to count processors.

The loop over the entries is a `for` without a step: every case of the switch moves `p` behind the
entry and continues. The default case clears `ismp` and breaks, which leaves the switch and not the
loop, so the same entry is looked at again, for ever. The panic behind the loop is never reached.

Addresses are physical, and natural numbers: a table does not run over the end of the address space.
`P2V` panics where a search or a table starts above `KERNBASE`; what is below is taken to be mapped.
-/

namespace Xv6.Mp

/-- Memory by physical address: `*P2V(a)`. -/
abbrev Memory := ℕ → UInt8

def NCPU : ℕ := 8

def KERNBASE : ℕ := 2 ^ 31

/-- The panics of `mpinit`. -/
inductive Panic where
  /-- `panic("P2V on address > KERNBASE")` -/
  | p2v
  /-- `panic("Expect to run on an SMP")` -/
  | expectSmp
  /-- `panic("Didn't find a suitable machine")` -/
  | notSuitable
  deriving DecidableEq

/-- `P2V`, which checks the address; the result stands for the place in the kernel's half. -/
def P2V (a : ℕ) : Except Panic ℕ := if KERNBASE < a then .error .p2v else .ok a

/-! ### Finding the table -/

section Search

variable (mem : Memory)

/-- The loop of `sum`. -/
def sumLoop (addr : ℕ) : ℕ → ℕ
  | 0 => 0
  | len + 1 => sumLoop addr len + (mem (addr + len)).toNat

/-- The sum of `len` bytes, as a `uchar`. -/
def sum (addr len : ℕ) : UInt8 := UInt8.ofNat (sumLoop mem addr len)

/-- `len` bytes from `a` on. -/
def bytesAt (a len : ℕ) : List UInt8 := (List.range len).map fun k => mem (a + k)

/-- A `ushort` in memory. -/
def ushortAt (a : ℕ) : ℕ := (mem a).toNat + 256 * (mem (a + 1)).toNat

/-- A `uint` or a pointer in memory. -/
def uintAt (a : ℕ) : ℕ := ushortAt mem a + 65536 * ushortAt mem (a + 2)

/-- `sizeof(struct mp)` -/
def mpSize : ℕ := 16

/-- `"_MP_"` -/
def mpSignature : List UInt8 := [95, 77, 80, 95]

def mpsearch1 (a len : ℕ) : Except Panic (Option ℕ) := do
  let addr ← P2V a
  return ((List.range ((len + mpSize - 1) / mpSize)).map fun k => addr + mpSize * k).find? fun p =>
    bytesAt mem p 4 = mpSignature ∧ sum mem p mpSize = 0

def mpsearch : Except Panic (Option ℕ) := do
  let bda ← P2V 0x400
  let p := ushortAt mem (bda + 0x0E) * 16
  let first ←
    if p ≠ 0 then mpsearch1 mem p 1024
    else
      let p := ushortAt mem (bda + 0x13) * 1024
      mpsearch1 mem ((p + 2 ^ 32 - 1024) % 2 ^ 32) 1024
  match first with
  | some mp => return some mp
  | none => mpsearch1 mem 0xF0000 0x10000

/-- `mp->physaddr` -/
def physaddr (mp : ℕ) : ℕ := uintAt mem (mp + 4)

/-- `mp->imcrp` -/
def imcrp (mp : ℕ) : UInt8 := mem (mp + 12)

/-- `conf->length` -/
def confLength (conf : ℕ) : ℕ := ushortAt mem (conf + 4)

/-- `conf->version` -/
def confVersion (conf : ℕ) : UInt8 := mem (conf + 6)

/-- `conf->lapicaddr` -/
def lapicaddr (conf : ℕ) : ℕ := uintAt mem (conf + 36)

/-- `sizeof(struct mpconf)` -/
def confSize : ℕ := 44

/-- `"PCMP"` -/
def confSignature : List UInt8 := [80, 67, 77, 80]

/-- Search for an MP configuration table: the floating pointer structure and the table. -/
def mpconfig : Except Panic (Option (ℕ × ℕ)) := do
  match ← mpsearch mem with
  | none => return none
  | some mp =>
    if physaddr mem mp = 0 then return none
    else
      let conf ← P2V (physaddr mem mp)
      if bytesAt mem conf 4 ≠ confSignature then return none
      else if confVersion mem conf ≠ 1 ∧ confVersion mem conf ≠ 4 then return none
      else if sum mem conf (confLength mem conf) ≠ 0 then return none
      else return some (mp, conf)

end Search

/-! ### The entries -/

def MPPROC : UInt8 := 0

def MPBUS : UInt8 := 1

def MPIOAPIC : UInt8 := 2

def MPIOINTR : UInt8 := 3

def MPLINTR : UInt8 := 4

/-- `sizeof(struct mpproc)` -/
def procSize : ℕ := 20

/-- `sizeof(struct mpioapic)` -/
def ioapicSize : ℕ := 8

structure Scan where
  p : ℕ
  ncpu : ℕ
  /-- `cpus[i].apicid` -/
  apicid : ℕ → UInt8
  ioapicid : UInt8
  ismp : Bool

def Scan.start (conf : ℕ) : Scan := ⟨conf + confSize, 0, fun _ => 0, 0, true⟩

def Scan.round (mem : Memory) (s : Scan) : Scan :=
  if mem s.p = MPPROC then
    let s := if s.ncpu < NCPU then
        { s with apicid := Function.update s.apicid s.ncpu (mem (s.p + 1)), ncpu := s.ncpu + 1 }
      else s
    { s with p := s.p + procSize }
  else if mem s.p = MPIOAPIC then { s with ioapicid := mem (s.p + 1), p := s.p + ioapicSize }
  else if mem s.p = MPBUS ∨ mem s.p = MPIOINTR ∨ mem s.p = MPLINTR then { s with p := s.p + 8 }
  else
    -- break leaves the switch
    { s with ismp := false }

def scanLoop (mem : Memory) (e : ℕ) : ℕ → Scan → Option Scan
  | 0, _ => none
  | fuel + 1, s => if s.p < e then scanLoop mem e fuel (s.round mem) else some s

/-- What `mpinit` leaves: the processors, the two addresses, and whether it masked interrupts at the
IMCR. -/
structure Machine where
  ncpu : ℕ
  apicid : ℕ → UInt8
  ioapicid : UInt8
  lapic : ℕ
  imcr : Bool

/-- `mpinit`; no result where the loop does not end within the bound. -/
def mpinit (mem : Memory) (fuel : ℕ) : Option (Except Panic Machine) :=
  match mpconfig mem with
  | .error e => some (.error e)
  | .ok none => some (.error .expectSmp)
  | .ok (some (mp, conf)) =>
    (scanLoop mem (conf + confLength mem conf) fuel (.start conf)).map fun s =>
      if s.ismp = false then .error .notSuitable
      else .ok ⟨s.ncpu, s.apicid, s.ioapicid, lapicaddr mem conf, imcrp mem mp ≠ 0⟩

def Known (t : UInt8) : Prop :=
  t = MPPROC ∨ t = MPIOAPIC ∨ t = MPBUS ∨ t = MPIOINTR ∨ t = MPLINTR

instance (t : UInt8) : Decidable (Known t) := inferInstanceAs (Decidable (_ ∨ _))

def entrySize (t : UInt8) : ℕ := if t = MPPROC then procSize else 8

/-- Going through the entries from `p` to the end `e`, the loop comes to the entry at `q`. -/
inductive Met (mem : Memory) (e : ℕ) : ℕ → ℕ → Prop
  | here {p : ℕ} (hlt : p < e) : Met mem e p p
  | behind {p q : ℕ} (hlt : p < e) (hknown : Known (mem p))
      (hmet : Met mem e (p + entrySize (mem p)) q) : Met mem e p q

variable {mem : Memory} {e : ℕ} {s s' : Scan} {fuel : ℕ}

/-! ### One round -/

theorem round_known (h : Known (mem s.p)) :
    (s.round mem).p = s.p + entrySize (mem s.p) ∧ (s.round mem).ismp = s.ismp := by
  unfold Scan.round entrySize
  by_cases hproc : mem s.p = MPPROC
  · rw [if_pos hproc, if_pos hproc]
    split
    · exact ⟨rfl, rfl⟩
    · exact ⟨rfl, rfl⟩
  rw [if_neg hproc, if_neg hproc]
  by_cases hio : mem s.p = MPIOAPIC
  · rw [if_pos hio]
    exact ⟨rfl, rfl⟩
  · rw [if_neg hio, if_pos ((h.resolve_left hproc).resolve_left hio)]
    exact ⟨rfl, rfl⟩

theorem round_unknown (h : ¬ Known (mem s.p)) : s.round mem = { s with ismp := false } := by
  unfold Known at h
  simp only [not_or] at h
  unfold Scan.round
  rw [if_neg h.1, if_neg h.2.1, if_neg]
  rintro (hb | hb | hb)
  · exact h.2.2.1 hb
  · exact h.2.2.2.1 hb
  · exact h.2.2.2.2 hb

theorem ncpu_round (h : s.ncpu ≤ NCPU) : (s.round mem).ncpu ≤ NCPU := by
  unfold Scan.round
  split
  · dsimp only
    split
    · next hlt => exact hlt
    · exact h
  split
  · exact h
  · split
    · exact h
    · exact h

theorem entrySize_pos (t : UInt8) : 0 < entrySize t := by
  unfold entrySize procSize
  split
  · decide
  · decide

/-! ### The loop -/

theorem ncpu_scanLoop (h : s.ncpu ≤ NCPU) (hrun : scanLoop mem e fuel s = some s') :
    s'.ncpu ≤ NCPU := by
  induction fuel generalizing s with
  | zero => cases hrun
  | succ fuel ih =>
  rw [scanLoop] at hrun
  split at hrun
  · exact ih (ncpu_round h) hrun
  · cases hrun
    exact h

theorem scanLoop_ends (h : ∀ q, Met mem e s.p q → Known (mem q)) (hfuel : e - s.p < fuel) :
    ∃ s', scanLoop mem e fuel s = some s' := by
  induction fuel generalizing s with
  | zero => exact absurd hfuel (Nat.not_lt_zero _)
  | succ fuel ih =>
  rw [scanLoop]
  split
  · next hlt =>
    have hknown := h s.p (.here hlt)
    have hp := (round_known hknown).1
    have hpos := entrySize_pos (mem s.p)
    refine ih (fun q hq => h q (.behind hlt hknown (hp ▸ hq))) ?_
    omega
  · exact ⟨s, rfl⟩

theorem scanLoop_stuck {q : ℕ} (hmet : Met mem e s.p q) (hq : ¬ Known (mem q)) :
    scanLoop mem e fuel s = none := by
  induction fuel generalizing s with
  | zero => rfl
  | succ fuel ih =>
  rw [scanLoop]
  by_cases hknown : Known (mem s.p)
  · cases hmet with
    | here hlt => exact absurd hknown hq
    | behind hlt _ hrest =>
      rw [if_pos hlt]
      exact ih ((round_known hknown).1 ▸ hrest)
  have hlt : s.p < e := by
    cases hmet with
    | here hlt => exact hlt
    | behind hlt _ _ => exact hlt
  rw [if_pos hlt, round_unknown hknown]
  exact ih hmet

theorem ismp_scanLoop (hrun : scanLoop mem e fuel s = some s') : s'.ismp = s.ismp := by
  induction fuel generalizing s with
  | zero => cases hrun
  | succ fuel ih =>
  by_cases hlt : s.p < e
  · by_cases hknown : Known (mem s.p)
    · rw [scanLoop, if_pos hlt] at hrun
      exact (ih hrun).trans (round_known hknown).2
    · rw [scanLoop_stuck (.here hlt) hknown] at hrun
      cases hrun
  · rw [scanLoop, if_neg hlt] at hrun
    cases hrun
    rfl

/-! ### Scanning the table -/

variable {mp conf : ℕ}

/-- The entry at `q` is one that the scan of the table at `conf` comes to. -/
def Scanned (mem : Memory) (conf q : ℕ) : Prop :=
  Met mem (conf + confLength mem conf) (conf + confSize) q

theorem mpinit_eq (h : mpconfig mem = .ok (some (mp, conf))) (fuel : ℕ) :
    mpinit mem fuel = (scanLoop mem (conf + confLength mem conf) fuel (.start conf)).map fun s =>
      .ok ⟨s.ncpu, s.apicid, s.ioapicid, lapicaddr mem conf, imcrp mem mp ≠ 0⟩ := by
  rw [mpinit, h]
  refine Option.map_congr fun s' hrun => if_neg ?_
  rw [ismp_scanLoop (Option.mem_def.mp hrun)]
  exact Bool.false_ne_true.symm

theorem mpinit_returns (h : mpconfig mem = .ok (some (mp, conf)))
    (hknown : ∀ q, Scanned mem conf q → Known (mem q)) :
    ∃ fuel m, mpinit mem fuel = some (.ok m) ∧ m.ncpu ≤ NCPU := by
  obtain ⟨s', hrun⟩ := scanLoop_ends (s := .start conf) hknown (Nat.lt_succ_self _)
  refine ⟨conf + confLength mem conf - (Scan.start conf).p + 1,
    ⟨s'.ncpu, s'.apicid, s'.ioapicid, lapicaddr mem conf, imcrp mem mp ≠ 0⟩, ?_,
    ncpu_scanLoop (Nat.zero_le _) hrun⟩
  rw [mpinit_eq h, hrun]
  rfl

theorem mpinit_stuck (h : mpconfig mem = .ok (some (mp, conf))) {q : ℕ} (hq : Scanned mem conf q)
    (hunknown : ¬ Known (mem q)) (fuel : ℕ) : mpinit mem fuel = none := by
  rw [mpinit_eq h, scanLoop_stuck (s := .start conf) hq hunknown]
  rfl

/-- **The scan of the table.** It ends as it should, with a panic at an unknown type, exactly if
there is no unknown type: at such an entry it does not end. There is room for all processors that
are counted, and the panic is never reached. -/
theorem mpinit_ends_iff (h : mpconfig mem = .ok (some (mp, conf))) :
    ((∃ fuel r, mpinit mem fuel = some r ∧ (∀ m, r = .ok m → m.ncpu ≤ NCPU) ∧
      ((∃ q, Scanned mem conf q ∧ ¬ Known (mem q)) → r = .error .notSuitable)) ↔
        ∀ q, Scanned mem conf q → Known (mem q)) ∧
    (∀ k, ((Scan.round mem)^[k] (.start conf)).ncpu ≤ NCPU) ∧
    ∀ fuel, mpinit mem fuel ≠ some (.error .notSuitable) := by
  refine ⟨⟨?_, fun hknown => ?_⟩, fun k => ?_, fun fuel hrun => ?_⟩
  · rintro ⟨fuel, r, hrun, -, -⟩ q hq
    by_contra hunknown
    rw [mpinit_stuck h hq hunknown] at hrun
    cases hrun
  · obtain ⟨fuel, m, hrun, hncpu⟩ := mpinit_returns h hknown
    refine ⟨fuel, _, hrun, fun m' hm => ?_, ?_⟩
    · cases hm
      exact hncpu
    · rintro ⟨q, hq, hunknown⟩
      exact absurd (hknown q hq) hunknown
  · induction k with
    | zero => exact Nat.zero_le _
    | succ k ih =>
      rw [Function.iterate_succ_apply']
      exact ncpu_round ih
  · rw [mpinit_eq h, Option.map_eq_some_iff] at hrun
    obtain ⟨s', -, heq⟩ := hrun
    cases heq

/-- Memory with the EBDA at `0xF0000`, where the floating pointer structure and a table with the
given entries are. -/
def tableOf (length checksum : UInt8) (entries : List UInt8) : Memory := fun a =>
  if a = 0x40F then 0xF0
  else if a < 0xF0000 then 0
  else (mpSignature ++ [16, 0, 15, 0, 1, 4, 129, 0, 0, 0, 0, 0] ++
    (confSignature ++ [length, 0, 4, checksum] ++ List.replicate 36 0) ++ entries).getD
      (a - 0xF0000) 0

/-- With no EBDA and no base memory the search starts at `-1024`. -/
example : mpinit (fun _ => 0) 0 = some (.error .p2v) := rfl

def plainTable : Memory := tableOf 64 140 (List.replicate 20 0)

def oddTable : Memory := tableOf 45 154 [5]

theorem mpinit_ends_iff_plainTable : mpconfig plainTable = .ok (some (0xF0000, 0xF0010)) ∧
    (mpinit plainTable 2).isSome ∧ ∀ fuel, mpinit plainTable fuel ≠ some (.error .notSuitable) := by
  have hconf : mpconfig plainTable = .ok (some (0xF0000, 0xF0010)) := by decide +kernel
  exact ⟨hconf, by decide +kernel, (mpinit_ends_iff hconf).2.2⟩

/-- The table passes all checks, and the scan does not end. -/
theorem oddTable_stuck : mpconfig oddTable = .ok (some (0xF0000, 0xF0010)) ∧
    Scanned oddTable 0xF0010 0xF003C ∧ ¬ Known (oddTable 0xF003C) ∧
    ∀ fuel, mpinit oddTable fuel = none := by
  have hconf : mpconfig oddTable = .ok (some (0xF0000, 0xF0010)) := by decide +kernel
  have hmet : Scanned oddTable 0xF0010 0xF003C := .here (by decide)
  have hunknown : ¬ Known (oddTable 0xF003C) := by decide
  exact ⟨hconf, hmet, hunknown, mpinit_stuck hconf hmet hunknown⟩

end Xv6.Mp
