import Xv6.Disk
import Xv6.Lib.Run

/-!
# Dropping references to a cached inode

One entry of the inode cache, and any number of processes that get, duplicate, lock and put
references to it. The steps are the regions that `ip->lock` and `icache.lock` protect.

`iput` tests whether it holds the last reference in one region and decrements `ref` in another.
Two processes can both find `ref` at two, and then both decrement: nobody frees the inode
(`unlinked_inode_lost`). `AloneOrShared` is what rules it out. When `iput` tests an unlinked
inode, no other `iput` is past its test and not yet done, unless somebody else still holds a
reference and will test later.

The entry keeps what the argument is about: `ref`, `valid`, `type`, `nlink`, and the on-disk
`type` and `nlink` that `ilock` reads and `iupdate` writes. `itrunc` changes neither.
-/

namespace Xv6

open Function

structure LinkInfo where
  type : ℕ
  nlink : ℤ
  deriving DecidableEq, Repr

inductive IputPc where
  | idle
  /-- Between `ilock` and `iunlock`. -/
  | locked
  /-- `iput`: holding `ip->lock`, about to test. -/
  | iputTest
  /-- `r == 1`: about to truncate and free. -/
  | iputFree
  /-- About to release `ip->lock`. -/
  | iputRelease
  /-- About to decrement `ref`. -/
  | iputDrop
  deriving DecidableEq, Repr

/-- A cache entry, the on-disk inodes, and the processes. -/
structure IcacheState (P : Type) where
  inum : ℕ
  ref : ℤ
  /-- The process holding `ip->lock`. -/
  lock : Option P
  valid : Bool
  copy : LinkInfo
  disk : ℕ → LinkInfo
  /-- References in the hands of callers: open files, current directories, local variables. -/
  held : ℕ
  pc : P → IputPc
  /-- `ilock: no type` was reached. -/
  panic : Bool

inductive IcacheAction (P : Type) where
  | iget (inum : ℕ)
  | idup
  | ilock (p : P)
  /-- The lock holder changes `ip->nlink` and calls `iupdate`. -/
  | setNlink (p : P) (n : ℤ)
  | iunlock (p : P)
  | iput (p : P)
  /-- Process `p` goes on with its `iput`. -/
  | run (p : P)
  /-- Another inode, or this one while it is free, changes on disk. -/
  | other (inum : ℕ) (d : LinkInfo)
  deriving DecidableEq, Repr

namespace IcacheState

variable {P : Type} [DecidableEq P]

/-- As `iinit` leaves the entry. -/
def IsInit (s : IcacheState P) : Prop :=
  s.ref = 0 ∧ s.lock = none ∧ s.valid = false ∧ s.held = 0 ∧ (∀ p, s.pc p = .idle) ∧
    s.panic = false

/-- Move process `p` to `c`. -/
def goto (s : IcacheState P) (p : P) (c : IputPc) : IcacheState P :=
  { s with pc := fun q => if q = p then c else s.pc q }

/-- `iget`, as far as it concerns this entry: found, or recycled for a new inode. -/
def iget (s : IcacheState P) (inum : ℕ) : Option (IcacheState P) :=
  if s.ref > 0 then
    if s.inum = inum then some { s with ref := s.ref + 1, held := s.held + 1 } else none
  else if s.ref = 0 then
    some { s with inum := inum, ref := 1, valid := false, held := s.held + 1 }
  else none

/-- The body of `ilock` once `ip->lock` is held. -/
def load (s : IcacheState P) : IcacheState P :=
  if s.valid then s
  else { s with valid := true, copy := s.disk s.inum, panic := (s.disk s.inum).type = 0 }

def iupdate (s : IcacheState P) : IcacheState P :=
  { s with disk := update s.disk s.inum s.copy }

/-- `iput` after `acquiresleep`, one region at a time. -/
def runIput (s : IcacheState P) (p : P) : Option (IcacheState P) :=
  match s.pc p with
  | .idle | .locked => none
  | .iputTest =>
    if s.valid = true ∧ s.copy.nlink = 0 ∧ s.ref = 1 then some (s.goto p .iputFree)
    else some (s.goto p .iputRelease)
  | .iputFree =>
    some ({ iupdate { s with copy := { s.copy with type := 0 } } with valid := false }.goto p
      .iputRelease)
  | .iputRelease => some ({ s with lock := none }.goto p .iputDrop)
  | .iputDrop => some ({ s with ref := s.ref - 1 }.goto p .idle)

/-- One step. A process calls `idup`, `ilock` or `iput` only with a reference in hand. -/
def step (s : IcacheState P) (a : IcacheAction P) : Option (IcacheState P) :=
  if s.panic then none else
  match a with
  | .iget inum => s.iget inum
  | .idup => if 0 < s.held then some { s with ref := s.ref + 1, held := s.held + 1 } else none
  | .ilock p =>
    if s.pc p = .idle ∧ 0 < s.held ∧ s.lock = none then
      some (({ s with lock := some p }.goto p .locked).load)
    else none
  | .setNlink p n =>
    if s.pc p = .locked then some { s with copy := { s.copy with nlink := n } }.iupdate else none
  | .iunlock p =>
    if s.pc p = .locked then some ({ s with lock := none }.goto p .idle) else none
  | .iput p =>
    if s.pc p = .idle ∧ 0 < s.held ∧ s.lock = none then
      some ({ s with lock := some p, held := s.held - 1 }.goto p .iputTest)
    else none
  | .run p => s.runIput p
  | .other inum d =>
    if inum ≠ s.inum ∨ s.ref = 0 ∨ (s.disk inum).type = 0 then
      some { s with disk := update s.disk inum d }
    else none

end IcacheState

/-! ### The steps, one constructor per transition -/

section Steps

variable {P : Type} [DecidableEq P]

inductive IcacheStep (s : IcacheState P) : IcacheAction P → IcacheState P → Prop
  | igetFound (h : 0 < s.ref) :
      IcacheStep s (.iget s.inum) { s with ref := s.ref + 1, held := s.held + 1 }
  | igetRecycle {inum : ℕ} (h : s.ref = 0) :
      IcacheStep s (.iget inum)
        { s with inum := inum, ref := 1, valid := false, held := s.held + 1 }
  | idup (h : 0 < s.held) : IcacheStep s .idup { s with ref := s.ref + 1, held := s.held + 1 }
  | ilock {p : P} (hpc : s.pc p = .idle) (h : 0 < s.held) (hl : s.lock = none) :
      IcacheStep s (.ilock p) ({ s with lock := some p }.goto p .locked).load
  | setNlink {p : P} {n : ℤ} (hpc : s.pc p = .locked) :
      IcacheStep s (.setNlink p n) { s with copy := { s.copy with nlink := n } }.iupdate
  | iunlock {p : P} (hpc : s.pc p = .locked) :
      IcacheStep s (.iunlock p) ({ s with lock := none }.goto p .idle)
  | iput {p : P} (hpc : s.pc p = .idle) (h : 0 < s.held) (hl : s.lock = none) :
      IcacheStep s (.iput p) ({ s with lock := some p, held := s.held - 1 }.goto p .iputTest)
  | iputLast {p : P} (hpc : s.pc p = .iputTest)
      (h : s.valid = true ∧ s.copy.nlink = 0 ∧ s.ref = 1) :
      IcacheStep s (.run p) (s.goto p .iputFree)
  | iputKeep {p : P} (hpc : s.pc p = .iputTest)
      (h : ¬ (s.valid = true ∧ s.copy.nlink = 0 ∧ s.ref = 1)) :
      IcacheStep s (.run p) (s.goto p .iputRelease)
  | iputFree {p : P} (hpc : s.pc p = .iputFree) :
      IcacheStep s (.run p) ({ IcacheState.iupdate { s with copy := { s.copy with type := 0 } } with
        valid := false }.goto p .iputRelease)
  | iputRelease {p : P} (hpc : s.pc p = .iputRelease) :
      IcacheStep s (.run p) ({ s with lock := none }.goto p .iputDrop)
  | iputDrop {p : P} (hpc : s.pc p = .iputDrop) :
      IcacheStep s (.run p) ({ s with ref := s.ref - 1 }.goto p .idle)
  | other {inum : ℕ} {d : LinkInfo} :
      IcacheStep s (.other inum d) { s with disk := update s.disk inum d }

variable {s s' : IcacheState P}

theorem IcacheState.runIput_sound {p : P} (h : s.runIput p = some s') :
    IcacheStep s (.run p) s' := by
  unfold IcacheState.runIput at h
  cases hpc : s.pc p <;> simp only [hpc] at h
  case idle | locked => cases h
  case iputTest =>
    split at h
    case isTrue hlast => cases h; exact .iputLast hpc hlast
    case isFalse hkeep => cases h; exact .iputKeep hpc hkeep
  case iputFree => cases h; exact .iputFree hpc
  case iputRelease => cases h; exact .iputRelease hpc
  case iputDrop => cases h; exact .iputDrop hpc

theorem IcacheState.iget_sound {inum : ℕ} (h : s.iget inum = some s') :
    IcacheStep s (.iget inum) s' := by
  unfold IcacheState.iget at h
  split at h
  case isTrue hpos =>
    split at h
    case isTrue heq => cases h; subst heq; exact .igetFound hpos
    case isFalse => cases h
  case isFalse =>
  split at h
  case isTrue hzero => cases h; exact .igetRecycle hzero
  case isFalse => cases h

theorem IcacheState.step_sound {a : IcacheAction P} (h : s.step a = some s') :
    IcacheStep s a s' := by
  unfold IcacheState.step at h
  split at h
  case isTrue => cases h
  case isFalse =>
  cases a <;> simp only at h
  case iget inum => exact IcacheState.iget_sound h
  case run p => exact IcacheState.runIput_sound h
  all_goals split at h
  case idup.isTrue hh => cases h; exact .idup hh
  case ilock.isTrue p hh => cases h; exact .ilock hh.1 hh.2.1 hh.2.2
  case setNlink.isTrue p n hh => cases h; exact .setNlink hh
  case iunlock.isTrue p hh => cases h; exact .iunlock hh
  case iput.isTrue p hh => cases h; exact .iput hh.1 hh.2.1 hh.2.2
  case other.isTrue => cases h; exact .other
  all_goals cases h

end Steps

/-! ### The invariant -/

/-- The process holds `ip->lock`. -/
def IputPc.holdsLock : IputPc → Bool
  | .locked | .iputTest | .iputFree | .iputRelease => true
  | .idle | .iputDrop => false

/-- The process is in `iput`: its reference is still counted in `ref`. -/
def IputPc.inIput : IputPc → Bool
  | .iputTest | .iputFree | .iputRelease | .iputDrop => true
  | .idle | .locked => false

/-- The process is in `iput` and past the test. -/
def IputPc.tested : IputPc → Bool
  | .iputFree | .iputRelease | .iputDrop => true
  | .idle | .locked | .iputTest => false

/-- The entry is a valid copy of an allocated inode with no links. -/
def IcacheState.Unlinked {P : Type} (s : IcacheState P) : Prop :=
  s.valid = true ∧ s.copy.nlink = 0 ∧ s.copy.type ≠ 0

section Invariant

variable {P : Type} [Fintype P] [DecidableEq P] {s s' : IcacheState P} {a : IcacheAction P}

/-! The fields that each building block leaves alone. -/

namespace IcacheState

omit [Fintype P]

variable (s) (p : P) (c : IputPc)

@[simp] theorem pc_goto (q : P) : (s.goto p c).pc q = if q = p then c else s.pc q := rfl
@[simp] theorem lock_goto : (s.goto p c).lock = s.lock := rfl
@[simp] theorem ref_goto : (s.goto p c).ref = s.ref := rfl
@[simp] theorem held_goto : (s.goto p c).held = s.held := rfl

omit [DecidableEq P]

@[simp] theorem lock_iupdate : s.iupdate.lock = s.lock := rfl

@[simp] theorem pc_load : s.load.pc = s.pc := by unfold load; split <;> rfl
@[simp] theorem lock_load : s.load.lock = s.lock := by unfold load; split <;> rfl
@[simp] theorem ref_load : s.load.ref = s.ref := by unfold load; split <;> rfl
@[simp] theorem held_load : s.load.held = s.held := by unfold load; split <;> rfl

end IcacheState

omit [DecidableEq P] in
/-- The `iput`s in progress. -/
def IcacheState.puts (s : IcacheState P) : ℕ := (Run.parties fun p => (s.pc p).inIput).card

/-- `ref` counts the references in hand and the `iput`s in progress, and an unlinked inode is held
by somebody who will still test. -/
structure IcacheInv (s : IcacheState P) : Prop where
  lock : ∀ p, (s.pc p).holdsLock = true ↔ s.lock = some p
  count : s.ref = s.held + s.puts
  locked : ∀ p, s.pc p = .locked → 0 < s.held
  kept : s.Unlinked → 0 < s.held ∨ ∃ p, s.pc p = .iputTest ∨ s.pc p = .iputFree

/-- When `iput` tests an unlinked inode, either somebody else still holds a reference, or no other
`iput` is between its test and its decrement. -/
def AloneOrShared (s : IcacheState P) : IcacheAction P → Prop
  | .run p => s.pc p = .iputTest → s.valid = true → s.copy.nlink = 0 →
      0 < s.held ∨ ∀ q, (s.pc q).tested = false
  | _ => True

variable {t : IcacheState P}

omit [Fintype P] in
theorem holdsLock_goto {p : P} {c : IputPc}
    (hi : ∀ q, (s.pc q).holdsLock = true ↔ s.lock = some q) (hpc : t.pc = s.pc)
    (hother : ∀ q, q ≠ p → (t.lock = some q ↔ s.lock = some q))
    (hself : c.holdsLock = true ↔ t.lock = some p) (q : P) :
    ((t.goto p c).pc q).holdsLock = true ↔ (t.goto p c).lock = some q := by
  rcases eq_or_ne q p with rfl | hq
  · simpa using hself
  · rw [IcacheState.pc_goto, if_neg hq, hpc]
    exact (hi q).trans (hother q hq).symm

omit [Fintype P] in
theorem lock_step (hi : ∀ p, (s.pc p).holdsLock = true ↔ s.lock = some p)
    (h : IcacheStep s a s') : ∀ p, (s'.pc p).holdsLock = true ↔ s'.lock = some p := by
  have hown : ∀ {p}, (s.pc p).holdsLock = true → s.lock = some p := fun hp => (hi _).mp hp
  cases h
  case ilock p hpc _ hl =>
    intro q
    rw [IcacheState.pc_load, IcacheState.lock_load]
    refine holdsLock_goto (t := { s with lock := some p }) hi rfl (fun q hq => ?_) ?_ q
    · simp [hl, Ne.symm hq]
    · simp [IputPc.holdsLock]
  case iput p hpc _ hl =>
    refine holdsLock_goto hi rfl (fun q hq => ?_) (by simp [IputPc.holdsLock])
    simp [hl, Ne.symm hq]
  case iunlock p hpc | iputRelease p hpc =>
    refine holdsLock_goto hi rfl (fun q hq => ?_) (by simp [IputPc.holdsLock])
    simp [hown (p := p) (by rw [hpc]; rfl), Ne.symm hq]
  case iputLast p hpc _ | iputKeep p hpc _ | iputFree p hpc =>
    exact holdsLock_goto hi rfl (fun q hq => Iff.rfl)
      (by simpa [IputPc.holdsLock] using hown (p := p) (by rw [hpc]; rfl))
  case iputDrop p hpc =>
    refine holdsLock_goto hi rfl (fun q hq => Iff.rfl) ?_
    rw [← hi p, hpc]
    simp [IputPc.holdsLock]
  all_goals exact hi

theorem puts_enter {p : P} {c : IputPc} (hpc : t.pc = s.pc)
    (hp : (s.pc p).inIput = false) (hc : c.inIput = true) : (t.goto p c).puts = s.puts + 1 :=
  Run.card_parties_enter (p := p) hp (by simpa using hc) fun q hq => by simp [hq, hpc]

theorem puts_leave {p : P} {c : IputPc} (hpc : t.pc = s.pc)
    (hp : (s.pc p).inIput = true) (hc : c.inIput = false) : ((t.goto p c).puts : ℤ) = s.puts - 1 :=
  Run.card_parties_leave (p := p) hp (by simpa using hc) fun q hq => by simp [hq, hpc]

theorem puts_stay {p : P} {c : IputPc} (hpc : t.pc = s.pc)
    (hc : c.inIput = (s.pc p).inIput) : (t.goto p c).puts = s.puts := by
  refine congrArg Finset.card (Run.parties_congr fun q => ?_)
  rcases eq_or_ne q p with rfl | hq
  · simpa using hc
  · simp [hq, hpc]

theorem count_step (hi : s.ref = s.held + s.puts) (h : IcacheStep s a s') :
    s'.ref = s'.held + s'.puts := by
  cases h
  case igetFound | idup =>
    change s.ref + 1 = ((s.held + 1 : ℕ) : ℤ) + s.puts
    omega
  case igetRecycle inum hzero =>
    change 1 = ((s.held + 1 : ℕ) : ℤ) + s.puts
    omega
  case ilock p hpc _ _ =>
    have hputs : ({ s with lock := some p }.goto p .locked).load.puts = s.puts := by
      unfold IcacheState.puts
      rw [IcacheState.pc_load]
      exact puts_stay rfl (by rw [hpc]; rfl)
    rw [hputs]
    simpa using hi
  case iput p hpc hheld _ =>
    have hputs : ({ s with lock := some p, held := s.held - 1 }.goto p .iputTest).puts =
        s.puts + 1 := puts_enter rfl (by rw [hpc]; rfl) rfl
    rw [hputs]
    simp only [IcacheState.ref_goto, IcacheState.held_goto]
    omega
  case iputDrop p hpc =>
    have hputs : (({ s with ref := s.ref - 1 }.goto p .idle).puts : ℤ) = s.puts - 1 :=
      puts_leave rfl (by rw [hpc]; rfl) rfl
    rw [hputs]
    simp only [IcacheState.ref_goto, IcacheState.held_goto]
    omega
  case iunlock p hpc | iputLast p hpc _ | iputKeep p hpc _ | iputFree p hpc | iputRelease p hpc =>
    exact hi.trans (congrArg (fun n : ℕ => (s.held : ℤ) + n)
      (puts_stay (s := s) rfl (by rw [hpc]; rfl)).symm)
  case setNlink | other => exact hi

theorem locked_step (hi : IcacheInv s) (h : IcacheStep s a s') :
    ∀ p, s'.pc p = .locked → 0 < s'.held := by
  have hlocked := hi.locked
  cases h
  case igetFound | igetRecycle | idup => exact fun _ _ => Nat.succ_pos _
  case ilock p _ hheld _ => exact fun _ _ => by simpa using hheld
  case setNlink | other => exact hlocked
  case iput p hpc hheld hl =>
    -- nobody else is inside the lock
    intro q hq
    have hne : q ≠ p := by
      rintro rfl
      simp at hq
    rw [IcacheState.pc_goto, if_neg hne] at hq
    have hown := (hi.lock q).mp (by rw [hq]; rfl)
    rw [hl] at hown
    cases hown
  all_goals
    intro q hq
    rw [IcacheState.pc_goto] at hq
    split at hq
    · cases hq
    · exact hlocked q hq

omit [DecidableEq P] in
theorem held_of_iputKeep (hi : IcacheInv s) {p : P} (hpc : s.pc p = .iputTest)
    (hu : s.Unlinked) (hkeep : ¬ (s.valid = true ∧ s.copy.nlink = 0 ∧ s.ref = 1))
    (ha : AloneOrShared s (.run p)) : 0 < s.held := by
  obtain ⟨hvalid, hnlink, -⟩ := hu
  rcases ha hpc hvalid hnlink with hheld | halone
  · exact hheld
  -- `p` is the only process in `iput`, so `ref` is `held + 1`
  have honly : (Run.parties fun q => (s.pc q).inIput) = {p} := by
    ext q
    rw [Run.mem_parties, Finset.mem_singleton]
    refine ⟨fun hq => ?_, fun hq => by rw [hq, hpc]; rfl⟩
    have htested := halone q
    have hq' : s.pc q = .iputTest := by
      revert hq htested
      cases s.pc q <;> simp [IputPc.inIput, IputPc.tested]
    have hp := (hi.lock p).mp (by rw [hpc]; rfl)
    rw [(hi.lock q).mp (by rw [hq']; rfl)] at hp
    exact Option.some.inj hp
  have hcount := hi.count
  rw [IcacheState.puts, honly, Finset.card_singleton] at hcount
  have hne : s.ref ≠ 1 := fun h => hkeep ⟨hvalid, hnlink, h⟩
  omega

theorem kept_step (hi : IcacheInv s) (ha : AloneOrShared s a) (h : IcacheStep s a s') :
    s'.Unlinked → 0 < s'.held ∨ ∃ p, s'.pc p = .iputTest ∨ s'.pc p = .iputFree := by
  intro hu
  -- a process other than the one that moves keeps its program counter
  have hframe : ∀ {t : IcacheState P} {p : P} {c : IputPc}, t.pc = s.pc → t.held = s.held →
      s.Unlinked → s.pc p ≠ .iputTest → s.pc p ≠ .iputFree →
      0 < (t.goto p c).held ∨
        ∃ q, (t.goto p c).pc q = .iputTest ∨ (t.goto p c).pc q = .iputFree := by
    intro t p c hpc hheld hs ht hf
    rcases hi.kept hs with hh | ⟨q, hq⟩
    · exact .inl (by simpa [hheld] using hh)
    have hne : q ≠ p := by
      rintro rfl
      exact hq.elim ht hf
    exact .inr ⟨q, by simpa [hne, hpc] using hq⟩
  cases h
  case igetFound | igetRecycle | idup => exact .inl (Nat.succ_pos _)
  case ilock p _ hheld _ => exact .inl (by simpa using hheld)
  case setNlink p n hpc => exact .inl (hi.locked p hpc)
  case other => exact hi.kept hu
  case iput p _ _ _ => exact .inr ⟨p, .inl (by simp)⟩
  case iputLast p _ _ => exact .inr ⟨p, .inr (by simp)⟩
  case iputKeep p hpc hkeep => exact .inl (held_of_iputKeep (s := s) hi hpc hu hkeep ha)
  case iputFree p hpc => exact absurd hu.1 Bool.false_ne_true
  case iunlock p hpc | iputRelease p hpc | iputDrop p hpc =>
    exact hframe rfl rfl hu (by rw [hpc]; nofun) (by rw [hpc]; nofun)

theorem IcacheInv.step (hi : IcacheInv s) (ha : AloneOrShared s a) (h : IcacheStep s a s') :
    IcacheInv s' where
  lock := lock_step hi.lock h
  count := count_step hi.count h
  locked := locked_step hi h
  kept := kept_step hi ha h

omit [DecidableEq P] in
theorem IcacheInv.init (h : s.IsInit) : IcacheInv s := by
  obtain ⟨href, hlock, hvalid, hheld, hpc, -⟩ := h
  refine ⟨fun p => ?_, ?_, fun p hp => ?_, fun hu => ?_⟩
  · simp [hpc, hlock, IputPc.holdsLock]
  · simp [href, hheld, IcacheState.puts, hpc, IputPc.inIput, Run.parties]
  · simp [hpc] at hp
  · have hv := hu.1
    rw [hvalid] at hv
    cases hv

/-- **No inode is lost.** In every run of any number of processes whose tests meet the condition,
an entry without references is never a valid copy of an allocated inode with no links: whoever
drops the last reference to an unlinked inode has freed it. -/
theorem no_inode_lost (h : Run.Reachable IcacheState.step AloneOrShared IcacheState.IsInit s) :
    ¬ (s.ref = 0 ∧ s.valid = true ∧ s.copy.nlink = 0 ∧ s.copy.type ≠ 0) := by
  have hi : IcacheInv s := h.invariant (fun _ h₀ => IcacheInv.init h₀) fun _ _ _ hi ha hs =>
    hi.step ha (IcacheState.step_sound hs)
  rintro ⟨href, hu⟩
  have hcount := hi.count
  rcases hi.kept hu with hheld | ⟨p, hp⟩
  · omega
  have hmem : p ∈ Run.parties fun q => (s.pc q).inIput := by
    rcases hp with hp | hp <;> simp [hp, IputPc.inIput]
  have hpos : 0 < s.puts := Finset.card_pos.mpr ⟨p, hmem⟩
  omega

end Invariant

/-! ### Two closes of an unlinked file -/

instance {P : Type} [Fintype P] (s : IcacheState P) (a : IcacheAction P) :
    Decidable (AloneOrShared s a) := by
  unfold AloneOrShared
  split <;> infer_instance

/-- A fresh cache over a disk on which inode `5` is a file with one link. -/
def freshEntry : IcacheState (Fin 2) where
  inum := 0
  ref := 0
  lock := none
  valid := false
  copy := ⟨0, 0⟩
  disk := fun i => if i = 5 then ⟨2, 1⟩ else ⟨0, 0⟩
  held := 0
  pc := fun _ => .idle
  panic := false

/-- Each of the two processes opens inode `5`; process `0` unlinks it. -/
def openAndUnlink : List (IcacheAction (Fin 2)) :=
  [.iget 5, .ilock 0, .iunlock 0, .iget 5, .ilock 1, .iunlock 1,
    .iget 5, .ilock 0, .setNlink 0 0, .iunlock 0, .iput 0, .run 0, .run 0, .run 0]

def closeInTurn : List (IcacheAction (Fin 2)) :=
  openAndUnlink ++ [.iput 0, .run 0, .run 0, .run 0, .iput 1, .run 1, .run 1, .run 1, .run 1]

def closeTogether : List (IcacheAction (Fin 2)) :=
  openAndUnlink ++ [.iput 0, .run 0, .run 0, .iput 1, .run 1, .run 1, .run 0, .run 1]

theorem freshEntry_isInit : freshEntry.IsInit := ⟨rfl, rfl, rfl, rfl, fun _ => rfl, rfl⟩

theorem no_inode_lost_closeInTurn : ∃ s : IcacheState (Fin 2),
    Run.Reachable IcacheState.step AloneOrShared IcacheState.IsInit s ∧
      s.ref = 0 ∧ (s.disk 5).type = 0 ∧
      ¬ (s.ref = 0 ∧ s.valid = true ∧ s.copy.nlink = 0 ∧ s.copy.type ≠ 0) := by
  have h₀ : Run.Reachable IcacheState.step AloneOrShared IcacheState.IsInit freshEntry :=
    .start freshEntry_isInit
  obtain ⟨s, hr, hs⟩ := h₀.exists_of_exec closeInTurn
    (fun s => s.ref = 0 ∧ (s.disk 5).type = 0) (by decide)
  obtain ⟨href, hdisk⟩ : s.ref = 0 ∧ (s.disk 5).type = 0 := by simpa using hs
  exact ⟨s, hr, href, hdisk, no_inode_lost hr⟩

/-- **Two closes can lose an inode.** Both find `ref` at two and leave the freeing to the other. -/
theorem unlinked_inode_lost : ∃ s : IcacheState (Fin 2),
    Run.Reachable IcacheState.step (fun _ _ => True) IcacheState.IsInit s ∧
      s.ref = 0 ∧ s.valid = true ∧ s.copy.nlink = 0 ∧ s.copy.type ≠ 0 := by
  have h₀ : Run.Reachable IcacheState.step (fun _ _ => True) IcacheState.IsInit freshEntry :=
    .start freshEntry_isInit
  obtain ⟨s, hr, hs⟩ := h₀.exists_of_exec closeTogether
    (fun s => s.ref = 0 ∧ s.valid = true ∧ s.copy.nlink = 0 ∧ s.copy.type ≠ 0) (by decide)
  exact ⟨s, hr, by simpa using hs⟩

end Xv6
