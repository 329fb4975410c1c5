import Mathlib.Algebra.GroupWithZero.Nat
import Mathlib.Data.Fintype.Basic
import Mathlib.Logic.Function.Basic
import Mathlib.Tactic.Common

/-!
# The process table

The functions of `proc.c` on `ptable`, each with `ptable.lock` held from beginning to end, apart
from `proc_nice`, which does not take the lock. Loops over the table are recursions over the list of
its slots.

What else a `struct proc` holds — memory, kernel stack, trap frame, files, statistics — is left out.
-/

namespace Xv6.Sched

open Function List

def NPROC : ℕ := 64

instance : NeZero NPROC := ⟨by decide⟩

/-- A `struct proc *` into the table. -/
abbrev Slot := Fin NPROC

/-- `enum procstate`. -/
inductive ProcState where
  | unused
  | embryo
  | sleeping
  | runnable
  | running
  | zombie
  deriving DecidableEq, Repr

/-- The address of a `struct proc`, on which `wait` sleeps, or any other address. -/
inductive Chan where
  | proc (p : Slot)
  | other (addr : ℕ)
  deriving DecidableEq

/-- Per-process state. A null pointer is `none`. -/
structure Proc where
  state : ProcState
  pid : Int32
  parent : Option Slot
  chan : Option Chan
  killed : Bool
  priority : Int32
  deriving DecidableEq

/-- `ptable.proc`. -/
abbrev Table := Slot → Proc

/-- The first process, which `userinit` puts into the first slot. -/
def initproc : Slot := 0

/-- After `userinit`. -/
def bootTable : Table := fun p =>
  if p = initproc then ⟨.runnable, 1, none, none, false, 0⟩
  else ⟨.unused, 0, none, none, false, 0⟩

variable {t t' : Table} {p q cur : Slot} {ps : List Slot}

/-! ### The functions -/

/-- The loop of `allocproc`: look for an unused slot. -/
def allocLoop : List Slot → Table → Option Slot × Table
  | [], t => (none, t)
  | p :: ps, t =>
    let t := update t p { t p with priority := 0 }
    if (t p).state = .unused then (some p, t) else allocLoop ps t

/-- The part of `allocproc` under the lock: the slot, the table and `nextpid`. -/
def allocproc (t : Table) (nextpid : Int32) : Option Slot × Table × Int32 :=
  match allocLoop (finRange NPROC) t with
  | (none, t) => (none, t, nextpid)
  | (some p, t) =>
    (some p, update t p { t p with state := .embryo, pid := nextpid }, nextpid + 1)

/-- Wake up all processes sleeping on `chan`. -/
def wakeup1 (chan : Option Chan) (t : Table) : Table := fun p =>
  if (t p).state = .sleeping ∧ (t p).chan = chan then { t p with state := .runnable } else t p

/-- One round of the loop of `exit`: pass abandoned children to init. -/
def adopt (curproc : Slot) (t : Table) (p : Slot) : Table :=
  if (t p).parent = some curproc then
    let t := update t p { t p with parent := some initproc }
    if (t p).state = .zombie then wakeup1 (some (.proc initproc)) t else t
  else t

/-- What `exit` does to the table. -/
def exitTable (curproc : Slot) (t : Table) : Table :=
  -- Parent might be sleeping in wait().
  let t := wakeup1 ((t curproc).parent.map .proc) t
  let t := (finRange NPROC).foldl (adopt curproc) t
  update t curproc { t curproc with state := .zombie }

/-- The loop of `wait`: the first exited child, and whether there are children. -/
def waitLoop (curproc : Slot) (t : Table) : List Slot → Bool → Option Slot × Bool
  | [], havekids => (none, havekids)
  | p :: ps, havekids =>
    if (t p).parent ≠ some curproc then waitLoop curproc t ps havekids
    else if (t p).state = .zombie then (some p, true)
    else waitLoop curproc t ps true

/-- What `wait` does to an exited child. -/
def Proc.reaped (x : Proc) : Proc :=
  { x with pid := 0, parent := none, killed := false, state := .unused }

/-- The loop of `kill`. -/
def killLoop (pid : Int32) : List Slot → Table → ℤ × Table
  | [], t => (-1, t)
  | p :: ps, t =>
    if (t p).pid = pid then
      (0, update t p { t p with
        killed := true
        -- Wake process from sleep if necessary.
        state := if (t p).state = .sleeping then .runnable else (t p).state })
    else killLoop pid ps t

def kill (pid : Int32) (t : Table) : ℤ × Table := killLoop pid (finRange NPROC) t

/-- `proc_nice`, which does not stop at the first match. -/
def procNice (pid priority : Int32) (t : Table) : Table := fun p =>
  if (t p).pid = pid then { t p with priority := priority } else t p

/-! ### What they change

Most changes leave a process what it is: unused, half made, existing or exited. -/

inductive Kind where
  | unused
  | embryo
  | live
  | zombie
  deriving DecidableEq

def ProcState.kind : ProcState → Kind
  | .unused => .unused
  | .embryo => .embryo
  | .sleeping => .live
  | .runnable => .live
  | .running => .live
  | .zombie => .zombie

structure Woken (x y : Proc) : Prop where
  state : y.state = x.state ∨ x.state = .sleeping ∧ y.state = .runnable
  pid : y.pid = x.pid
  chan : y.chan = x.chan

namespace Woken

variable {x y z : Proc}

theorem refl (x : Proc) : Woken x x := ⟨.inl rfl, rfl, rfl⟩

theorem trans (h : Woken x y) (h' : Woken y z) : Woken x z := by
  refine ⟨?_, h'.pid.trans h.pid, h'.chan.trans h.chan⟩
  rcases h'.state with hz | ⟨hy, hz⟩
  · rw [hz]
    exact h.state
  rcases h.state with hxy | ⟨-, hxy⟩
  · exact .inr ⟨hxy.symm.trans hy, hz⟩
  · rw [hxy] at hy
    cases hy

theorem kind (h : Woken x y) : y.state.kind = x.state.kind := by
  rcases h.state with hy | ⟨hx, hy⟩
  · rw [hy]
  · rw [hx, hy]
    rfl

theorem eq_of_ne (h : Woken x y) (hx : x.state ≠ .sleeping) : y.state = x.state :=
  h.state.resolve_right fun hh => hx hh.1

theorem sleeping (h : Woken x y) (hy : y.state = .sleeping) : x.state = .sleeping := by
  rcases h.state with hxy | ⟨-, hxy⟩
  · exact hxy.symm.trans hy
  · rw [hxy] at hy
    cases hy

theorem running_iff (h : Woken x y) : y.state = .running ↔ x.state = .running := by
  rcases h.state with hy | ⟨hx, hy⟩
  · rw [hy]
  · rw [hx, hy]
    exact ⟨nofun, nofun⟩

end Woken

theorem woken_wakeup1 (chan : Option Chan) (t : Table) (p : Slot) :
    Woken (t p) (wakeup1 chan t p) := by
  unfold wakeup1
  split
  · next h => exact ⟨.inr ⟨h.1, rfl⟩, rfl, rfl⟩
  · exact .refl _

theorem parent_wakeup1 (chan : Option Chan) (t : Table) (p : Slot) :
    (wakeup1 chan t p).parent = (t p).parent := by
  unfold wakeup1
  split <;> rfl

theorem chan_ne_of_wakeup1 {chan : Option Chan} (h : (wakeup1 chan t p).state = .sleeping) :
    (t p).chan ≠ chan := by
  intro hc
  unfold wakeup1 at h
  split at h
  · cases h
  · next hn => exact hn ⟨h, hc⟩

/-! ### `allocproc` -/

theorem allocLoop_eq : ∀ (ps : List Slot) (t : Table) (p : Slot),
    ∃ k, (allocLoop ps t).2 p = { t p with priority := k } := by
  intro ps
  induction ps with
  | nil => exact fun t p => ⟨(t p).priority, rfl⟩
  | cons q ps ih =>
  intro t p
  have hone : ∃ k, update t q { t q with priority := 0 } p = { t p with priority := k } := by
    rcases eq_or_ne p q with rfl | hne
    · exact ⟨0, update_self ..⟩
    · exact ⟨(t p).priority, update_of_ne hne ..⟩
  rw [allocLoop]
  split
  · exact hone
  · obtain ⟨k, hk⟩ := ih (update t q { t q with priority := 0 }) p
    obtain ⟨k', hk'⟩ := hone
    exact ⟨k, by rw [hk, hk']⟩

theorem allocLoop_some : ∀ {ps : List Slot} {t : Table}, (allocLoop ps t).1 = some p →
    (t p).state = .unused := by
  intro ps
  induction ps with
  | nil => intro t h; cases h
  | cons q ps ih =>
  intro t h
  rw [allocLoop] at h
  split at h
  · next hq =>
    cases h
    rwa [update_self] at hq
  have hu := ih h
  rcases eq_or_ne p q with rfl | hne
  · rwa [update_self] at hu
  · rwa [update_of_ne hne] at hu

theorem allocproc_some {k k' : Int32} (h : allocproc t k = (some p, t', k')) :
    (t p).state = .unused ∧ (∃ a, t' p = { t p with state := .embryo, pid := k, priority := a }) ∧
      ∀ q, q ≠ p → ∃ a, t' q = { t q with priority := a } := by
  unfold allocproc at h
  split at h
  · cases h
  next p' t'' hloop =>
  cases h
  have hsame : ∀ q, ∃ a, t'' q = { t q with priority := a } := by
    intro q
    have hq := allocLoop_eq (finRange NPROC) t q
    rwa [hloop] at hq
  refine ⟨allocLoop_some (by rw [hloop]), ?_, fun q hq => ?_⟩
  · obtain ⟨a, ha⟩ := hsame p
    exact ⟨a, by rw [update_self, ha]⟩
  · rw [update_of_ne hq]
    exact hsame q

theorem allocproc_none {k k' : Int32} (h : allocproc t k = (none, t', k')) (q : Slot) :
    ∃ a, t' q = { t q with priority := a } := by
  unfold allocproc at h
  split at h
  · next t'' hloop =>
    cases h
    have hsame := allocLoop_eq (finRange NPROC) t q
    rwa [hloop] at hsame
  · cases h

/-! ### `exit` -/

theorem woken_adopt (cur : Slot) (t : Table) (p q : Slot) : Woken (t q) (adopt cur t p q) := by
  have hone : Woken (t q) (update t p { t p with parent := some initproc } q) := by
    rcases eq_or_ne q p with rfl | hne
    · rw [update_self]
      exact ⟨.inl rfl, rfl, rfl⟩
    · rw [update_of_ne hne]
      exact .refl _
  unfold adopt
  split
  · dsimp only
    split
    · exact hone.trans (woken_wakeup1 ..)
    · exact hone
  · exact .refl _

theorem parent_adopt (t : Table) (p q : Slot) : (adopt cur t p q).parent =
    if q = p ∧ (t q).parent = some cur then some initproc else (t q).parent := by
  have hone : (update t p { t p with parent := some initproc } q).parent =
      if q = p then some initproc else (t q).parent := by
    rw [update_apply]
    split <;> rfl
  unfold adopt
  split
  · next hp =>
    have hiff : (q = p ∧ (t q).parent = some cur) ↔ q = p :=
      ⟨And.left, fun hq => ⟨hq, hq ▸ hp⟩⟩
    rw [if_congr hiff rfl rfl, ← hone]
    dsimp only
    split
    · exact parent_wakeup1 ..
    · rfl
  next hp =>
  rw [if_neg]
  rintro ⟨rfl, hq⟩
  exact hp hq

theorem adopt_wakes (hpar : (t p).parent = some cur) (hz : (t p).state = .zombie)
    (hs : (adopt cur t p q).state = .sleeping) : (t q).chan ≠ some (.proc initproc) := by
  have hsame : (update t p { t p with parent := some initproc } p).state = .zombie := by
    rw [update_self]
    exact hz
  rw [adopt, if_pos hpar] at hs
  dsimp only at hs
  rw [if_pos hsame] at hs
  have hne := chan_ne_of_wakeup1 hs
  rw [update_apply] at hne
  split at hne
  · next hq => exact hq ▸ hne
  · exact hne

theorem woken_foldl_adopt (ps : List Slot) : ∀ (t : Table) (p : Slot),
    Woken (t p) (ps.foldl (adopt cur) t p) := by
  induction ps with
  | nil => exact fun t p => .refl _
  | cons q ps ih => exact fun t p => (woken_adopt cur t q p).trans (ih _ p)

theorem parent_foldl_adopt (hcur : cur ≠ initproc) (ps : List Slot) : ∀ (t : Table) (p : Slot),
    (ps.foldl (adopt cur) t p).parent =
      if p ∈ ps ∧ (t p).parent = some cur then some initproc else (t p).parent := by
  have hinit : some initproc ≠ some cur := fun h => hcur (Option.some.inj h).symm
  induction ps with
  | nil =>
    intro t p
    rw [if_neg fun h => absurd h.1 not_mem_nil]
    rfl
  | cons q ps ih =>
  intro t p
  rw [foldl_cons, ih, parent_adopt]
  by_cases hq : p = q ∧ (t p).parent = some cur
  · rw [if_pos hq, if_neg fun h => hinit h.2, if_pos ⟨hq.1 ▸ mem_cons_self, hq.2⟩]
  · rw [if_neg hq]
    refine if_congr ⟨fun h => ⟨mem_cons_of_mem q h.1, h.2⟩, fun h => ⟨?_, h.2⟩⟩ rfl rfl
    exact (mem_cons.mp h.1).resolve_left fun hpq => hq ⟨hpq, h.2⟩

theorem foldl_adopt_wakes (ps : List Slot) : ∀ t : Table, p ∈ ps → (t p).parent = some cur →
    (t p).state = .zombie → (ps.foldl (adopt cur) t q).state = .sleeping →
    (t q).chan ≠ some (.proc initproc) := by
  induction ps with
  | nil => exact fun t h => absurd h not_mem_nil
  | cons r ps ih =>
  intro t hp hpar hz hs
  have hs' := (woken_foldl_adopt ps _ q).sleeping hs
  rcases eq_or_ne p r with rfl | hne
  · exact adopt_wakes hpar hz hs'
  have hw := woken_adopt cur t r
  have hpar' : (adopt cur t r p).parent = some cur := by
    rw [parent_adopt, if_neg fun h => hne h.1, hpar]
  have hz' : (adopt cur t r p).state = .zombie := by
    rw [(hw p).eq_of_ne (by rw [hz]; decide), hz]
  rw [← (hw q).chan]
  exact ih _ ((mem_cons.mp hp).resolve_left hne) hpar' hz' hs

/-- What `exit` does to the table. -/
structure Exits (cur : Slot) (t t' : Table) : Prop where
  woken : ∀ p, p ≠ cur → Woken (t p) (t' p)
  zombie : (t' cur).state = .zombie
  pid : (t' cur).pid = (t cur).pid
  chan : (t' cur).chan = (t cur).chan
  parent : ∀ p, (t' p).parent = if (t p).parent = some cur then some initproc else (t p).parent
  /-- The parent does not sleep in `wait`. -/
  wakes : ∀ p, (t cur).parent = some p → (t' p).state = .sleeping → (t p).chan ≠ some (.proc p)
  wakesInit : ∀ p, (t p).parent = some cur → (t p).state = .zombie →
    (t' initproc).state = .sleeping → (t initproc).chan ≠ some (.proc initproc)

theorem exitTable_spec (hcur : cur ≠ initproc) (t : Table) : Exits cur t (exitTable cur t) := by
  obtain ⟨t₁, ht₁⟩ : ∃ t₁, t₁ = wakeup1 ((t cur).parent.map .proc) t := ⟨_, rfl⟩
  obtain ⟨t₂, ht₂⟩ : ∃ t₂, t₂ = (finRange NPROC).foldl (adopt cur) t₁ := ⟨_, rfl⟩
  have hexit : exitTable cur t = update t₂ cur { t₂ cur with state := .zombie } := by
    rw [exitTable, ← ht₁, ← ht₂]
  have hw₁ : ∀ p, Woken (t p) (t₁ p) := fun p => ht₁ ▸ woken_wakeup1 _ t p
  have hw₂ : ∀ p, Woken (t₁ p) (t₂ p) := fun p => ht₂ ▸ woken_foldl_adopt _ t₁ p
  have hpar₁ : ∀ p, (t₁ p).parent = (t p).parent := fun p => ht₁ ▸ parent_wakeup1 _ t p
  have hother : ∀ p, p ≠ cur → exitTable cur t p = t₂ p := by
    intro p hp
    rw [hexit, update_of_ne hp]
  have hself : exitTable cur t cur = { t₂ cur with state := .zombie } := by
    rw [hexit, update_self]
  have hsleep : ∀ p, (exitTable cur t p).state = .sleeping → (t₂ p).state = .sleeping := by
    intro p hp
    rcases eq_or_ne p cur with rfl | hne
    · rw [hself] at hp
      cases hp
    · rwa [← hother p hne]
  refine ⟨fun p hp => ?_, ?_, ?_, ?_, fun p => ?_, fun p hp hs => ?_, fun p hp hz hs => ?_⟩
  · rw [hother p hp]
    exact (hw₁ p).trans (hw₂ p)
  · rw [hself]
  · rw [hself]
    exact ((hw₁ cur).trans (hw₂ cur)).pid
  · rw [hself]
    exact ((hw₁ cur).trans (hw₂ cur)).chan
  · have hpar : (exitTable cur t p).parent = (t₂ p).parent := by
      rcases eq_or_ne p cur with rfl | hne
      · rw [hself]
      · rw [hother p hne]
    rw [hpar, ht₂, parent_foldl_adopt hcur, hpar₁]
    exact if_congr ⟨And.right, fun h => ⟨mem_finRange p, h⟩⟩ rfl rfl
  · have hs₁ := (hw₂ p).sleeping (hsleep p hs)
    rw [ht₁, hp] at hs₁
    exact chan_ne_of_wakeup1 hs₁
  have hz₁ : (t₁ p).state = .zombie := by
    rw [(hw₁ p).eq_of_ne (by rw [hz]; decide), hz]
  have hs₂ := hsleep _ hs
  rw [ht₂] at hs₂
  rw [← (hw₁ initproc).chan]
  exact foldl_adopt_wakes _ t₁ (mem_finRange p) (hpar₁ p ▸ hp) hz₁ hs₂

/-! ### `wait` -/

theorem waitLoop_some {b : Bool} : ∀ {ps : List Slot} {havekids : Bool},
    waitLoop cur t ps havekids = (some p, b) → (t p).parent = some cur ∧ (t p).state = .zombie := by
  intro ps
  induction ps with
  | nil => intro _ h; cases h
  | cons q ps ih =>
  intro havekids h
  rw [waitLoop] at h
  split at h
  · exact ih h
  next hq =>
  split at h
  · next hz =>
    cases h
    exact ⟨not_not.mp hq, hz⟩
  · exact ih h

theorem waitLoop_none {b : Bool} : ∀ {ps : List Slot} {havekids : Bool},
    waitLoop cur t ps havekids = (none, b) →
      (∀ p ∈ ps, (t p).parent = some cur → (t p).state ≠ .zombie) ∧
      (b = true ↔ havekids = true ∨ ∃ p ∈ ps, (t p).parent = some cur) := by
  intro ps
  induction ps with
  | nil =>
    intro havekids h
    cases h
    exact ⟨fun p h => absurd h not_mem_nil,
      ⟨.inl, fun h => h.resolve_right fun ⟨p, hp, _⟩ => absurd hp not_mem_nil⟩⟩
  | cons q ps ih =>
  intro havekids h
  rw [waitLoop] at h
  split at h
  · next hq =>
    obtain ⟨hno, hb⟩ := ih h
    refine ⟨fun p hp hpar => ?_, hb.trans (or_congr_right ⟨?_, ?_⟩)⟩
    · rcases mem_cons.mp hp with rfl | hp
      · exact absurd hpar hq
      · exact hno p hp hpar
    · exact fun ⟨p, hp, hpar⟩ => ⟨p, mem_cons_of_mem q hp, hpar⟩
    rintro ⟨p, hp, hpar⟩
    rcases mem_cons.mp hp with rfl | hp
    · exact absurd hpar hq
    · exact ⟨p, hp, hpar⟩
  next hq =>
  split at h
  · cases h
  next hz =>
  obtain ⟨hno, hb⟩ := ih h
  refine ⟨fun p hp hpar => ?_, iff_of_true (hb.mpr (.inl rfl)) (.inr ⟨q, ?_, ?_⟩)⟩
  · rcases mem_cons.mp hp with rfl | hp
    · exact hz
    · exact hno p hp hpar
  · exact mem_cons_self
  · exact not_not.mp hq

/-! ### `kill` -/

theorem killLoop_woken (pid : Int32) : ∀ (ps : List Slot) (t : Table) (p : Slot),
    Woken (t p) ((killLoop pid ps t).2 p) ∧ ((killLoop pid ps t).2 p).parent = (t p).parent := by
  intro ps
  induction ps with
  | nil => exact fun t p => ⟨.refl _, rfl⟩
  | cons q ps ih =>
  intro t p
  rw [killLoop]
  split
  · rcases eq_or_ne p q with rfl | hne
    · dsimp only
      rw [update_self]
      refine ⟨⟨?_, rfl, rfl⟩, rfl⟩
      by_cases hs : (t p).state = .sleeping
      · exact .inr ⟨hs, if_pos hs⟩
      · exact .inl (if_neg hs)
    · dsimp only
      rw [update_of_ne hne]
      exact ⟨.refl _, rfl⟩
  · exact ih t p

end Xv6.Sched
