import Xv6.Files.Frame

/-!
# `flock`

`flock` and `funlock` of `sysfile.c`: a second sleep lock in each entry of the inode cache, taken
and released by pid. `filelock` tests only that the file has an inode and that the inode is in use,
so that a descriptor of a pipe may be used as well, if its entry of the file table was that of an
inode before. A process may sleep in `flock` while others go on; which of the sleepers goes first
is open.

The state records two things that the code does not: who took the lock of each entry last and has
neither released it nor exited, and for which inodes a process has the right to believe that it
holds the lock. It has that right from a `flock` through a descriptor of an inode that returned 0
until a `funlock` that returned 0, or until it has no descriptor of that inode left.
-/

namespace Xv6.Files

open Function Option

open Xv6.Names (NFILE NOFILE NPROC NINODE FdType)

/-! ### The functions -/

/-- `holdingsleep`, for the process with this pid. -/
def Sleeplock.holding (lk : Sleeplock) (pid : ℕ) : Bool := lk.locked && lk.pid == pid

section Functions

variable (s : State)

/-- `filelock`: the entry whose lock is taken, or -1. -/
def filelock (f : Fin NFILE) : Option (Fin NINODE) :=
  match (s.file f).ip with
  | none => none
  | some e => if (s.entry e).ref < 1 then none else some e

/-- `acquiresleep`, once the lock is free. -/
def acquiresleep (e : Fin NINODE) (pid : ℕ) : State :=
  s.setEntry e { s.entry e with flock := ⟨true, pid⟩ }

def releasesleep (e : Fin NINODE) : State :=
  s.setEntry e { s.entry e with flock := ⟨false, 0⟩ }

/-- `fileunlock`: the entry whose lock is released, or -1. -/
def fileunlock (p : Fin NPROC) (f : Fin NFILE) : Option (Fin NINODE) :=
  match (s.file f).ip with
  | none => none
  | some e =>
    if (s.entry e).flock.holding (s.proc p).pid ∧ ¬(s.entry e).ref < 1 then some e else none

/-- `sys_flock` up to where it may sleep, and `sys_funlock`. -/
def sysFlock (p : Fin NPROC) (fd : Fin NOFILE) : Option (Fin NINODE) :=
  ((s.proc p).ofile fd).bind (filelock s)

def sysFunlock (p : Fin NPROC) (fd : Fin NOFILE) : Option (Fin NINODE) :=
  ((s.proc p).ofile fd).bind (fileunlock s p)

def IsInode (p : Fin NPROC) (fd : Fin NOFILE) (e : Fin NINODE) : Prop :=
  ∃ f ∈ (s.proc p).ofile fd, (s.file f).type = .inode ∧ (s.file f).ip = some e

instance (p : Fin NPROC) (fd : Fin NOFILE) (e : Fin NINODE) : Decidable (IsInode s p fd e) :=
  inferInstanceAs (Decidable (∃ f ∈ (s.proc p).ofile fd, _))

/-- The process has a descriptor of the inode in entry `e`. -/
def Opens (p : Fin NPROC) (e : Fin NINODE) : Prop := ∃ fd, IsInode s p fd e

instance (p : Fin NPROC) (e : Fin NINODE) : Decidable (Opens s p e) :=
  inferInstanceAs (Decidable (∃ fd, IsInode s p fd e))

/-- The process has a descriptor of inode `inum`. -/
def OpensInode (p : Fin NPROC) (inum : ℕ) : Prop := ∃ e, Opens s p e ∧ (s.entry e).inum = inum

instance (p : Fin NPROC) (inum : ℕ) : Decidable (OpensInode s p inum) :=
  inferInstanceAs (Decidable (∃ e, Opens s p e ∧ (s.entry e).inum = inum))

end Functions

namespace Flock

/-- The tables, where processes sleep in `flock` (and whether through a descriptor of an inode),
who holds the lock of each entry, and who may believe to hold the lock of which inode. -/
structure State where
  tables : Files.State
  waiting : Fin NPROC → Option (Fin NINODE × Bool)
  holder : Fin NINODE → Option (Fin NPROC)
  claims : Fin NPROC → ℕ → Bool

inductive Action where
  | call (c : Call)
  | flock (p : Fin NPROC) (fd : Fin NOFILE)
  | acquire (p : Fin NPROC)
  | funlock (p : Fin NPROC) (fd : Fin NOFILE)

section Step

variable (s : State)

def Runs (p : Fin NPROC) : Prop := (s.tables.proc p).status = .live ∧ s.waiting p = none

instance (p : Fin NPROC) : Decidable (Runs s p) := inferInstanceAs (Decidable (_ ∧ _))

/-- After another call: who has exited holds nothing, and who has closed its last descriptor of an
inode has no claim to it. -/
def afterCall (t : Files.State) : State where
  tables := t
  waiting := s.waiting
  holder e := (s.holder e).filter fun p => (t.proc p).status = .live
  claims p inum := s.claims p inum && decide (OpensInode t p inum)

/-- `flock` goes to sleep, or on to take the lock at once. -/
def startFlock (p : Fin NPROC) (fd : Fin NOFILE) : State :=
  match sysFlock s.tables p fd with
  | none => s
  | some e =>
    { s with waiting := update s.waiting p (some (e, decide (IsInode s.tables p fd e))) }

/-- `flock` has the lock and returns 0. -/
def finishFlock (p : Fin NPROC) (e : Fin NINODE) (viaInode : Bool) : State where
  tables := acquiresleep s.tables e (s.tables.proc p).pid
  waiting := update s.waiting p none
  holder := update s.holder e (some p)
  claims q inum := s.claims q inum ||
    (viaInode && decide (q = p ∧ inum = (s.tables.entry e).inum))

/-- `funlock` releases the lock and returns 0. -/
def release (p : Fin NPROC) (e : Fin NINODE) : State where
  tables := releasesleep s.tables e
  waiting := s.waiting
  holder := update s.holder e none
  claims q inum := s.claims q inum && !decide (q = p ∧ inum = (s.tables.entry e).inum)

def step : Action → Option State
  | .call c => if Runs s c.caller then (Files.step s.tables c).map (afterCall s) else none
  | .flock p fd => if Runs s p then some (startFlock s p fd) else none
  | .acquire p =>
    match s.waiting p with
    | none => none
    | some (e, viaInode) =>
      if (s.tables.entry e).flock.locked then none else some (finishFlock s p e viaInode)
  | .funlock p fd =>
    if Runs s p then
      match sysFunlock s.tables p fd with
      | none => some s
      | some e => some (release s p e)
    else none

end Step

def boot : State := ⟨Files.boot, fun _ => none, fun _ => none, fun _ _ => false⟩

/-! ### The invariant -/

structure Inv (s : State) : Prop where
  tables : Files.Inv s.tables 0 0
  pids : PidsOk s.tables
  given : ∀ e, (s.tables.entry e).flock.locked = true →
    (s.tables.entry e).flock.pid < s.tables.nextpid
  holds : ∀ e p, s.holder e = some p → (s.tables.proc p).status = .live ∧
    (s.tables.entry e).flock = ⟨true, (s.tables.proc p).pid⟩
  held : ∀ e p, (s.tables.proc p).status = .live →
    (s.tables.entry e).flock = ⟨true, (s.tables.proc p).pid⟩ → s.holder e = some p
  waits : ∀ p e viaInode, s.waiting p = some (e, viaInode) →
    (s.tables.proc p).status = .live ∧ (viaInode = true → Opens s.tables p e)
  claims : ∀ p inum, s.claims p inum = true →
    ∃ e, Opens s.tables p e ∧ (s.tables.entry e).inum = inum ∧ s.holder e = some p

variable {s s' : State} {t t' : Files.State} {p q : Fin NPROC} {e e' : Fin NINODE} {c : Call}
  {fd : Fin NOFILE} {x : Fin NFILE → ℕ} {y : Fin NINODE → ℕ}

theorem ref_pos_of_opens (h : Files.Inv t x y) (ho : Opens t p e) : 0 < (t.entry e).ref := by
  obtain ⟨fd, f, -, htype, hip⟩ := ho
  have hle := Tally.le_tally (g := ipRef e) (h := t.file) (Finset.mem_univ f)
  rw [ipRef, if_pos ⟨htype, hip⟩] at hle
  rw [h.inodes e, uses]
  omega

theorem opens_unique (h : Files.Inv t x y) (ho : Opens t p e) (ho' : Opens t q e')
    (hn : (t.entry e).inum = (t.entry e').inum) : e = e' :=
  h.unique e e' (ref_pos_of_opens h ho) (ref_pos_of_opens h ho') hn

theorem opens_grows (h : Files.Inv t x y) (hg : Grows t t') (ho : Opens t p e) : Opens t' p e := by
  obtain ⟨fd, f, hf, htype, hip⟩ := ho
  obtain ⟨htype', hip'⟩ := hg.file f (Nat.ne_of_gt (h.ref_pos hf))
  exact ⟨fd, f, hg.ofile p fd f hf, htype'.trans htype, hip'.trans hip⟩

theorem opens_of_shrinks (h' : Files.Inv t' x y) (hsh : Shrinks q t t') (ho : Opens t' p e) :
    Opens t p e := by
  obtain ⟨fd, f, hf, htype, hip⟩ := ho
  obtain ⟨htype', hip'⟩ := hsh.file f (Nat.ne_of_gt (h'.ref_pos hf))
  refine ⟨fd, f, ?_, htype'.symm.trans htype, hip'.symm.trans hip⟩
  rcases eq_or_ne p q with rfl | hne
  · exact hsh.ofile fd f hf
  · rw [hsh.other p hne] at hf
    exact hf

theorem opens_shrinks_of_ne (h' : Files.Inv t' x y) (hsh : Shrinks q t t') (hne : p ≠ q)
    (ho : Opens t p e) : Opens t' p e := by
  obtain ⟨fd, f, hf, htype, hip⟩ := ho
  have hf' : (t'.proc p).ofile fd = some f := by
    rw [hsh.other p hne]
    exact hf
  obtain ⟨htype', hip'⟩ := hsh.file f (Nat.ne_of_gt (h'.ref_pos hf'))
  exact ⟨fd, f, hf', htype'.trans htype, hip'.trans hip⟩

theorem live_of_opens (h : Files.Inv t x y) (hp : PidsOk t) (ho : Opens t p e) :
    (t.proc p).status = .live := by
  obtain ⟨fd, f, hf, -⟩ := ho
  have hdead : ¬((t.proc p).status = .unused ∨ (t.proc p).status = .zombie) := fun hd =>
    nomatch ((h.dead p hd).1 fd).symm.trans hf
  cases hst : (t.proc p).status with
  | unused => exact absurd (.inl hst) hdead
  | embryo => exact absurd hst (hp.settled p)
  | live => rfl
  | zombie => exact absurd (.inr hst) hdead

theorem other_after_call (h : Files.Inv t 0 0) (hs : Files.step t c = some t') (hne : p ≠ c.caller)
    (hp : (t.proc p).status = .live) :
    (t'.proc p).status = .live ∧ ∀ e, Opens t p e → Opens t' p e := by
  obtain ⟨hg | ⟨-, hsh⟩, -⟩ := grows_or_shrinks h hs
  · exact ⟨hg.live p hp, fun e ho => opens_grows h hg ho⟩
  · exact ⟨(congrArg Proc.status (hsh.other p hne)).trans hp,
      fun e ho => opens_shrinks_of_ne (h.step hs) hsh hne ho⟩

theorem opens_after_call (h : Files.Inv t 0 0) (hs : Files.step t c = some t') (ho : Opens t p e)
    (hkeep : OpensInode t' p (t.entry e).inum) :
    Opens t' p e ∧ (t'.entry e).inum = (t.entry e).inum := by
  obtain ⟨hcase, hst⟩ := grows_or_shrinks h hs
  refine ⟨?_, hst.inum e (Nat.ne_of_gt (ref_pos_of_opens h ho))⟩
  rcases hcase with hg | ⟨-, hsh⟩
  · exact opens_grows h hg ho
  obtain ⟨e', ho', hn⟩ := hkeep
  have hbefore := opens_of_shrinks (h.step hs) hsh ho'
  rw [hst.inum e' (Nat.ne_of_gt (ref_pos_of_opens h hbefore))] at hn
  rw [opens_unique h ho hbefore hn.symm]
  exact ho'

/-! ### Steps keep the invariant -/

theorem Inv.afterCall (h : Inv s) (hrun : s.waiting c.caller = none)
    (hs : Files.step s.tables c = some t) : Inv (afterCall s t) := by
  have htables := h.tables.step hs
  obtain ⟨-, hst⟩ := grows_or_shrinks h.tables hs
  have hpids := h.pids.steady hst
  have hholder : ∀ e p, (Flock.afterCall s t).holder e = some p ↔
      s.holder e = some p ∧ (t.proc p).status = .live := by
    intro e p
    simp only [Flock.afterCall, filter_eq_some_iff, decide_eq_true_eq]
  refine ⟨htables, hpids, fun e he => ?_, fun e p hp => ?_, fun e p hp he => ?_,
    fun p e v hw => ?_, fun p n hc => ?_⟩
  · change (t.entry e).flock.locked = true at he
    change (t.entry e).flock.pid < t.nextpid
    rw [hst.flock e] at he ⊢
    exact (h.given e he).trans_le hst.nextpid
  · obtain ⟨hold, hlive⟩ := (hholder e p).mp hp
    obtain ⟨hlive₀, hflock⟩ := h.holds e p hold
    refine ⟨hlive, ?_⟩
    change (t.entry e).flock = ⟨true, (t.proc p).pid⟩
    rw [hst.flock e, hst.pid hlive₀ hlive]
    exact hflock
  · change (t.proc p).status = .live at hp
    change (t.entry e).flock = ⟨true, (t.proc p).pid⟩ at he
    rw [hst.flock e] at he
    refine (hholder e p).mpr ⟨?_, hp⟩
    obtain ⟨np, hnp⟩ := hst.live
    rcases hnp p hp with ⟨hold, hpid⟩ | ⟨-, -, hpid, -⟩
    · exact h.held e p hold (by rw [← hpid]; exact he)
    -- the pid of the new process has not been given out before
    have hlt := h.given e (by rw [he])
    rw [he, hpid] at hlt
    exact absurd hlt (Nat.lt_irrefl _)
  · obtain ⟨hlive, hopen⟩ := h.waits p e v hw
    have hne : p ≠ c.caller := by
      rintro rfl
      exact nomatch hrun.symm.trans hw
    obtain ⟨hlive', hopens⟩ := other_after_call h.tables hs hne hlive
    exact ⟨hlive', fun hv => hopens e (hopen hv)⟩
  · obtain ⟨hc, hkeep⟩ := Bool.and_eq_true_iff.mp hc
    obtain ⟨e, ho, rfl, hhold⟩ := h.claims p n hc
    obtain ⟨ho', hn⟩ := opens_after_call h.tables hs ho (of_decide_eq_true hkeep)
    exact ⟨e, ho', hn, (hholder e p).mpr ⟨hhold, live_of_opens htables hpids ho'⟩⟩

theorem inv_setLock (h : Files.Inv t 0 0) (e : Fin NINODE) (lk : Sleeplock) :
    Files.Inv (t.setEntry e { t.entry e with flock := lk }) 0 0 := by
  refine h.setEntry (h.inodes e) (fun _ _ => rfl) fun e' hne hpos hpos' hn => ?_
  exact hne (h.unique e' e hpos' hpos hn.symm)

theorem entry_setEntry_self (t : Files.State) (e : Fin NINODE) (z : Entry) :
    (t.setEntry e z).entry e = z := update_self ..

theorem entry_setEntry_of_ne (t : Files.State) (z : Entry) (hne : e' ≠ e) :
    (t.setEntry e z).entry e' = t.entry e' := update_of_ne hne ..

theorem inum_setLock (t : Files.State) (e e' : Fin NINODE) (lk : Sleeplock) :
    ((t.setEntry e { t.entry e with flock := lk }).entry e').inum = (t.entry e').inum := by
  rcases eq_or_ne e' e with rfl | hne
  · rw [entry_setEntry_self]
  · rw [entry_setEntry_of_ne t _ hne]

theorem Inv.startFlock (h : Inv s) (hp : Runs s p) (fd : Fin NOFILE) : Inv (startFlock s p fd) := by
  unfold Flock.startFlock
  split
  case h_1 => exact h
  case h_2 e he =>
  refine ⟨h.tables, h.pids, h.given, h.holds, h.held, fun q e' v hw => ?_, h.claims⟩
  rcases eq_or_ne q p with rfl | hne
  · simp only [update_self] at hw
    cases hw
    exact ⟨hp.1, fun hv => ⟨fd, of_decide_eq_true hv⟩⟩
  · simp only [update_of_ne hne] at hw
    exact h.waits q e' v hw

theorem Inv.setLock (h : Inv s) {k : Sleeplock} {o : Option (Fin NPROC)}
    {w : Fin NPROC → Option (Fin NINODE × Bool)} {c : Fin NPROC → ℕ → Bool}
    (hgiven : k.locked = true → k.pid < s.tables.nextpid) (hholder : ∀ q, o = some q ↔
      (s.tables.proc q).status = .live ∧ k = ⟨true, (s.tables.proc q).pid⟩)
    (hwaits : ∀ q e' v, w q = some (e', v) →
      (s.tables.proc q).status = .live ∧ (v = true → Opens s.tables q e'))
    (hclaims : ∀ q inum, c q inum = true → ∃ e', Opens s.tables q e' ∧
      (s.tables.entry e').inum = inum ∧ update s.holder e o e' = some q) :
    Inv ⟨s.tables.setEntry e { s.tables.entry e with flock := k }, w, update s.holder e o, c⟩ := by
  have hself := entry_setEntry_self s.tables e { s.tables.entry e with flock := k }
  have hother : ∀ e', e' ≠ e →
      (s.tables.setEntry e { s.tables.entry e with flock := k }).entry e' = s.tables.entry e' :=
    fun e' hne => entry_setEntry_of_ne s.tables _ hne
  refine ⟨inv_setLock h.tables e k, ⟨h.pids.settled, h.pids.lt, h.pids.inj⟩, fun e' he => ?_,
    fun e' q hq => ?_, fun e' q hq he => ?_, hwaits, fun q n hc => ?_⟩
  · dsimp only at he ⊢
    rcases eq_or_ne e' e with rfl | hne
    · rw [hself] at he ⊢
      exact hgiven he
    · rw [hother e' hne] at he ⊢
      exact h.given e' he
  · dsimp only at hq ⊢
    rcases eq_or_ne e' e with rfl | hne
    · rw [update_self] at hq
      rw [hself]
      exact (hholder q).mp hq
    · rw [update_of_ne hne] at hq
      rw [hother e' hne]
      exact h.holds e' q hq
  · dsimp only at he ⊢
    rcases eq_or_ne e' e with rfl | hne
    · rw [hself] at he
      rw [update_self]
      exact (hholder q).mpr ⟨hq, he⟩
    · rw [hother e' hne] at he
      rw [update_of_ne hne]
      exact h.held e' q hq he
  · obtain ⟨e', ho, hn, hhold⟩ := hclaims q n hc
    exact ⟨e', ho, (inum_setLock s.tables e e' k).trans hn, hhold⟩

theorem Inv.finishFlock (h : Inv s) {v : Bool} (hw : s.waiting p = some (e, v))
    (hfree : (s.tables.entry e).flock.locked = false) : Inv (finishFlock s p e v) := by
  obtain ⟨hlive, hopen⟩ := h.waits p e v hw
  -- nobody holds a lock that is free
  have hnone : ∀ q, s.holder e ≠ some q := by
    intro q hq
    have hflock := (h.holds e q hq).2
    rw [hflock] at hfree
    cases hfree
  refine h.setLock (fun _ => h.pids.lt p hlive) (fun q => ⟨?_, ?_⟩) (fun q e' v' hq => ?_)
    fun q n hc => ?_
  · rintro ⟨⟩
    exact ⟨hlive, rfl⟩
  · rintro ⟨hq, heq⟩
    exact congrArg some (h.pids.inj p q hlive hq (congrArg Sleeplock.pid heq))
  · rcases eq_or_ne q p with rfl | hne
    · rw [update_self] at hq
      cases hq
    · rw [update_of_ne hne] at hq
      exact h.waits q e' v' hq
  simp only [Bool.or_eq_true, Bool.and_eq_true, decide_eq_true_eq] at hc
  rcases hc with hc | ⟨hv, rfl, rfl⟩
  · obtain ⟨e', ho, hn, hhold⟩ := h.claims q n hc
    have hne : e' ≠ e := by
      rintro rfl
      exact hnone q hhold
    exact ⟨e', ho, hn, (update_of_ne hne ..).trans hhold⟩
  · exact ⟨e, hopen hv, rfl, update_self ..⟩

theorem sysFunlock_spec (hu : sysFunlock t p fd = some e) :
    (∃ f, (t.proc p).ofile fd = some f ∧ (t.file f).ip = some e) ∧
      (t.entry e).flock = ⟨true, (t.proc p).pid⟩ ∧ 0 < (t.entry e).ref := by
  obtain ⟨f, hf, hu⟩ := bind_eq_some_iff.mp hu
  unfold fileunlock at hu
  split at hu
  case h_1 => cases hu
  case h_2 e' hip =>
  split at hu
  case isFalse => cases hu
  case isTrue htest =>
  cases hu
  obtain ⟨hhold, href⟩ := htest
  simp only [Sleeplock.holding, Bool.and_eq_true, beq_iff_eq] at hhold
  refine ⟨⟨f, hf, hip⟩, ?_, by omega⟩
  rw [← hhold.1, ← hhold.2]

theorem Inv.release (h : Inv s) (hp : Runs s p) (hu : sysFunlock s.tables p fd = some e) :
    Inv (release s p e) := by
  have hholder := h.held e p hp.1 (sysFunlock_spec hu).2.1
  refine h.setLock nofun (fun q => ⟨nofun, fun hq => nomatch hq.2⟩) h.waits fun q n hc => ?_
  simp only [Bool.and_eq_true, Bool.not_eq_true', decide_eq_false_iff_not] at hc
  obtain ⟨hc, hnot⟩ := hc
  obtain ⟨e', ho, hn, hhold⟩ := h.claims q n hc
  have hne : e' ≠ e := by
    rintro rfl
    exact hnot ⟨some.inj (hhold.symm.trans hholder), hn.symm⟩
  exact ⟨e', ho, hn, (update_of_ne hne ..).trans hhold⟩

theorem Inv.step {a : Action} (h : Inv s) (hs : step s a = some s') : Inv s' := by
  cases a with
  | call c =>
    rw [Flock.step] at hs
    split at hs
    case isFalse => cases hs
    case isTrue hp =>
      obtain ⟨t, ht, rfl⟩ := map_eq_some_iff.mp hs
      exact h.afterCall hp.2 ht
  | flock p fd =>
    rw [Flock.step] at hs
    split at hs
    case isFalse => cases hs
    case isTrue hp =>
      cases hs
      exact h.startFlock hp fd
  | acquire p =>
    rw [Flock.step] at hs
    split at hs
    case h_1 => cases hs
    case h_2 e v hw =>
    split at hs
    case isTrue => cases hs
    case isFalse hfree =>
      cases hs
      exact h.finishFlock hw (Bool.eq_false_iff.mpr hfree)
  | funlock p fd =>
    rw [Flock.step] at hs
    split at hs
    case isFalse => cases hs
    case isTrue hp =>
    split at hs
    case h_1 =>
      cases hs
      exact h
    case h_2 e he =>
      cases hs
      exact h.release hp he

theorem flock_boot (e : Fin NINODE) : (Files.boot.entry e).flock = ⟨false, 0⟩ := by
  unfold Files.boot
  dsimp only
  split <;> rfl

theorem inv_boot : Inv boot := by
  refine ⟨Files.inv_boot, pidsOk_boot, fun e he => ?_, fun _ _ => nofun, fun e p _ he => ?_,
    fun _ _ _ => nofun, fun _ _ => nofun⟩
  · change (Files.boot.entry e).flock.locked = true at he
    rw [flock_boot] at he
    cases he
  · change (Files.boot.entry e).flock = _ at he
    rw [flock_boot] at he
    cases he

/-- **`flock` is exclusive.** In every interleaving of calls on files with `flock` and `funlock`, no
two processes have a claim to the lock of one inode: to have returned from `flock` through a
descriptor of the inode, not to have released it since, and to have kept a descriptor of it. And
`funlock` returns 0 only to the process that holds the lock. -/
theorem flock_exclusive (h : Run.Reachable step (fun _ _ => True) (· = boot) s) :
    (∀ p q inum, s.claims p inum = true → s.claims q inum = true → p = q) ∧
      ∀ p fd e, Runs s p → sysFunlock s.tables p fd = some e → s.holder e = some p := by
  have hinv : Inv s := h.invariant (fun _ hs => hs ▸ inv_boot) fun _ _ _ hi _ hs => hi.step hs
  refine ⟨fun p q inum hp hq => ?_, fun p fd e hp hu => ?_⟩
  · obtain ⟨e, ho, hn, hhold⟩ := hinv.claims p inum hp
    obtain ⟨e', ho', hn', hhold'⟩ := hinv.claims q inum hq
    obtain rfl := opens_unique hinv.tables ho ho' (hn.trans hn'.symm)
    exact some.inj (hhold.symm.trans hhold')
  · exact hinv.held e p hp.1 (sysFunlock_spec hu).2.1

/-- A process has locked inode 5, and another one that has it open sleeps. -/
theorem flock_exclusive_two_processes :
    ∃ s : State, (s.claims 0 5 = true ∧ s.waiting 1 = some (1, true)) ∧
      ∀ p q inum, s.claims p inum = true → s.claims q inum = true → p = q := by
  have hstart : Run.Reachable step (fun _ _ => True) (· = boot) boot := .start rfl
  obtain ⟨s, hs, hq⟩ := hstart.exists_of_exec
    [.call (.open 0 (.finds 5 1) true true), .call (.fork 0 true), .flock 0 0, .acquire 0,
      .flock 1 0]
    (fun s : State => s.claims 0 5 = true ∧ s.waiting 1 = some (1, true)) (by decide +kernel)
  exact ⟨s, of_decide_eq_true hq, (flock_exclusive hs).1⟩

/-! ### Locks that are left behind

`close` and `exit` do not release the lock. It stays with the entry of the cache, also when the
entry is recycled for another inode. -/

/-- The process holds the lock of entry `e`. -/
def Locks (t : Files.State) (p : Fin NPROC) (e : Fin NINODE) : Prop :=
  (t.entry e).flock = ⟨true, (t.proc p).pid⟩

/-- Nobody gives up its last descriptor of an inode whose lock it holds, and `flock` is not called
with a pipe. -/
def Careful (s : State) : Action → Prop
  | .call (.close p fd) => ∀ e, Locks s.tables p e → ∃ fd', fd' ≠ fd ∧ IsInode s.tables p fd' e
  | .call (.exit p) => ∀ e, ¬Locks s.tables p e
  | .flock p fd => ∀ f, (s.tables.proc p).ofile fd = some f → (s.tables.file f).type = .inode
  | _ => True

instance (t : Files.State) (p : Fin NPROC) (e : Fin NINODE) : Decidable (Locks t p e) :=
  inferInstanceAs (Decidable ((t.entry e).flock = _))

instance (s : State) (a : Action) : Decidable (Careful s a) := by
  unfold Careful
  split <;> infer_instance

/-- The first process locks a file and closes it. The entry is free, and still locked. -/
theorem flock_left_behind : ∃ s, Run.Reachable step (fun _ _ => True) (· = boot) s ∧
      (s.tables.entry 1).ref = 0 ∧ (s.tables.entry 1).flock.locked = true := by
  have hstart : Run.Reachable step (fun _ _ => True) (· = boot) boot := .start rfl
  obtain ⟨s, hs, hq⟩ := hstart.exists_of_exec
    [.call (.open 0 (.finds 5 1) true true), .flock 0 0, .acquire 0, .call (.close 0 0)]
    (fun s : State => (s.tables.entry 1).ref = 0 ∧ (s.tables.entry 1).flock.locked = true)
    (by decide +kernel)
  exact ⟨s, hs, of_decide_eq_true hq⟩

/-- Whoever holds a lock, or is about to take it, has the inode open. -/
structure Tidy (s : State) : Prop where
  locked : ∀ e, (s.tables.entry e).flock.locked = true →
    ∃ p, s.holder e = some p ∧ Opens s.tables p e
  waits : ∀ p e v, s.waiting p = some (e, v) → Opens s.tables p e

theorem ofile_close (h : Files.Inv t x y) (hp : (t.proc p).status = .live)
    (hs : sysClose t p fd = some t') {fd' : Fin NOFILE} (hne : fd' ≠ fd) :
    (t'.proc p).ofile fd' = (t.proc p).ofile fd' := by
  unfold sysClose at hs
  split at hs
  case h_1 =>
    cases hs
    rfl
  case h_2 f hf =>
  obtain ⟨t₁, hclose, -, hd, -⟩ := (h.clearFd hp hf).fileclose
  rw [hclose] at hs
  cases hs
  rw [hd.proc, proc_setFd_self]
  exact update_of_ne hne ..

theorem opens_after_own_call (h : Inv s) (hok : Careful s (.call c))
    (hs : Files.step s.tables c = some t) (hhold : s.holder e = some c.caller)
    (ho : Opens s.tables c.caller e) : Opens t c.caller e := by
  have hlocks : Locks s.tables c.caller e := (h.holds e _ hhold).2
  obtain ⟨hg | ⟨hcl, hsh⟩, -⟩ := grows_or_shrinks h.tables hs
  · exact opens_grows h.tables hg ho
  cases c with
  | close p fd =>
    obtain ⟨fd', hne, f, hf, htype, hip⟩ := hok e hlocks
    have hf' : (t.proc p).ofile fd' = some f := by
      have hlive := (h.holds e _ hhold).1
      rw [Files.step, if_pos hlive] at hs
      exact (ofile_close h.tables hlive hs hne).trans hf
    have htables : Files.Inv t 0 0 := h.tables.step hs
    obtain ⟨htype', hip'⟩ := hsh.file f (Nat.ne_of_gt (htables.ref_pos hf'))
    exact ⟨fd', f, hf', htype'.trans htype, hip'.trans hip⟩
  | exit p => exact absurd hlocks (hok e)
  | _ => exact hcl.elim

theorem Tidy.afterCall (h : Inv s) (ht : Tidy s) (hok : Careful s (.call c))
    (hrun : s.waiting c.caller = none) (hs : Files.step s.tables c = some t) :
    Tidy (afterCall s t) := by
  have hst := (grows_or_shrinks h.tables hs).2
  refine ⟨fun e he => ?_, fun p e v hw => ?_⟩
  · change (t.entry e).flock.locked = true at he
    rw [hst.flock e] at he
    obtain ⟨p, hhold, ho⟩ := ht.locked e he
    have ho' : Opens t p e := by
      rcases eq_or_ne p c.caller with rfl | hne
      · exact opens_after_own_call h hok hs hhold ho
      · exact (other_after_call h.tables hs hne (h.holds e p hhold).1).2 e ho
    have hlive := live_of_opens (h.tables.step hs) (h.pids.steady hst) ho'
    refine ⟨p, ?_, ho'⟩
    simp only [Flock.afterCall, filter_eq_some_iff, decide_eq_true_eq]
    exact ⟨hhold, hlive⟩
  · have hne : p ≠ c.caller := by
      rintro rfl
      exact nomatch hrun.symm.trans hw
    exact (other_after_call h.tables hs hne (h.waits p e v hw).1).2 e (ht.waits p e v hw)

theorem Tidy.startFlock (ht : Tidy s) (hok : Careful s (.flock p fd)) :
    Tidy (startFlock s p fd) := by
  unfold Flock.startFlock
  split
  case h_1 => exact ht
  case h_2 e he =>
  refine ⟨ht.locked, fun q e' v hw => ?_⟩
  rcases eq_or_ne q p with rfl | hne
  · simp only [update_self] at hw
    cases hw
    obtain ⟨f, hf, hl⟩ := bind_eq_some_iff.mp he
    unfold filelock at hl
    split at hl
    case h_1 => cases hl
    case h_2 e' hip =>
    split at hl
    case isTrue => cases hl
    case isFalse =>
      cases hl
      exact ⟨fd, f, hf, hok f hf, hip⟩
  · simp only [update_of_ne hne] at hw
    exact ht.waits q e' v hw

theorem Tidy.finishFlock (ht : Tidy s) {v : Bool} (hw : s.waiting p = some (e, v)) :
    Tidy (finishFlock s p e v) := by
  refine ⟨fun e' he => ?_, fun q e' v' hq => ?_⟩
  · rcases eq_or_ne e' e with rfl | hne
    · exact ⟨p, update_self .., ht.waits p e' v hw⟩
    · simp only [Flock.finishFlock, acquiresleep, entry_setEntry_of_ne s.tables _ hne] at he
      obtain ⟨q, hhold, ho⟩ := ht.locked e' he
      exact ⟨q, (update_of_ne hne ..).trans hhold, ho⟩
  rcases eq_or_ne q p with rfl | hne
  · simp only [Flock.finishFlock, update_self] at hq
    cases hq
  · simp only [Flock.finishFlock, update_of_ne hne] at hq
    exact ht.waits q e' v' hq

theorem Tidy.release (ht : Tidy s) (p : Fin NPROC) (e : Fin NINODE) : Tidy (release s p e) := by
  refine ⟨fun e' he => ?_, ht.waits⟩
  rcases eq_or_ne e' e with rfl | hne
  · simp only [Flock.release, releasesleep, entry_setEntry_self] at he
    cases he
  · simp only [Flock.release, releasesleep, entry_setEntry_of_ne s.tables _ hne] at he
    obtain ⟨q, hhold, ho⟩ := ht.locked e' he
    exact ⟨q, (update_of_ne hne ..).trans hhold, ho⟩

theorem Tidy.step {a : Action} (h : Inv s) (ht : Tidy s) (hok : Careful s a)
    (hs : step s a = some s') : Tidy s' := by
  cases a with
  | call c =>
    rw [Flock.step] at hs
    split at hs
    case isFalse => cases hs
    case isTrue hp =>
      obtain ⟨t, hc, rfl⟩ := map_eq_some_iff.mp hs
      exact ht.afterCall h hok hp.2 hc
  | flock p fd =>
    rw [Flock.step] at hs
    split at hs
    case isFalse => cases hs
    case isTrue =>
      cases hs
      exact ht.startFlock hok
  | acquire p =>
    rw [Flock.step] at hs
    split at hs
    case h_1 => cases hs
    case h_2 e v hw =>
    split at hs
    case isTrue => cases hs
    case isFalse =>
      cases hs
      exact ht.finishFlock hw
  | funlock p fd =>
    rw [Flock.step] at hs
    split at hs
    case isFalse => cases hs
    case isTrue =>
    split at hs
    case h_1 =>
      cases hs
      exact ht
    case h_2 e _ =>
      cases hs
      exact ht.release p e

/-- **A lock does not outlive the entry of its inode**, in every run in which nobody gives up its
last descriptor of an inode whose lock it holds and `flock` is not called with a pipe. -/
theorem flock_released (h : Run.Reachable step Careful (· = boot) s) (e : Fin NINODE)
    (he : (s.tables.entry e).ref = 0) : (s.tables.entry e).flock.locked = false := by
  have hinv : Inv s ∧ Tidy s := by
    refine h.invariant (I := fun s => Inv s ∧ Tidy s) (fun s hs => ?_) fun s a s' hi hok hs =>
      ⟨hi.1.step hs, hi.2.step hi.1 hok hs⟩
    subst hs
    refine ⟨inv_boot, fun e he => ?_, fun _ _ _ => nofun⟩
    change (Files.boot.entry e).flock.locked = true at he
    rw [flock_boot] at he
    cases he
  by_contra hlocked
  obtain ⟨p, -, ho⟩ := hinv.2.locked e (Bool.not_eq_false _ ▸ hlocked)
  exact absurd he (Nat.ne_of_gt (ref_pos_of_opens hinv.1.tables ho))

/-- A file is opened, locked, released and closed. -/
theorem flock_released_in_time :
    ∃ s : State, ((s.tables.entry 1).inum = 5 ∧ (s.tables.entry 1).ref = 0) ∧
      (s.tables.entry 1).flock.locked = false := by
  have hstart : Run.Reachable step Careful (· = boot) boot := .start rfl
  obtain ⟨s, hs, hq⟩ := hstart.exists_of_exec
    [.call (.open 0 (.finds 5 1) true true), .flock 0 0, .acquire 0, .funlock 0 0,
      .call (.close 0 0)]
    (fun s : State => (s.tables.entry 1).inum = 5 ∧ (s.tables.entry 1).ref = 0)
    (by decide +kernel)
  have hq := of_decide_eq_true hq
  exact ⟨s, hq, flock_released hs 1 hq.2⟩

/-! ### Descriptors of pipes -/

def Ignored (s : State) (p : Fin NPROC) (fd : Fin NOFILE) : Prop :=
  step s (.flock p fd) = some s ∧ step s (.funlock p fd) = some s

theorem startFlock_eq_self (hp : s.waiting p = none) :
    startFlock s p fd = s ↔ sysFlock s.tables p fd = none := by
  unfold startFlock
  cases hf : sysFlock s.tables p fd with
  | none => exact iff_of_true rfl rfl
  | some e =>
  refine iff_of_false (fun h => ?_) nofun
  have hw := congrArg (fun u : State => u.waiting p) h
  dsimp only at hw
  rw [update_self, hp] at hw
  cases hw

/-- The entry of the file table is not of an inode now, but was of one that is still in use. -/
def Stale (t : Files.State) (f : Fin NFILE) : Prop :=
  (t.file f).type ≠ .inode ∧ ∃ e, (t.file f).ip = some e ∧ (t.entry e).ref ≠ 0

theorem sysFlock_eq_none {f : Fin NFILE} (hf : (t.proc p).ofile fd = some f) :
    sysFlock t p fd = none ↔ ∀ e, (t.file f).ip = some e → (t.entry e).ref = 0 := by
  rw [sysFlock, hf, bind_some, filelock]
  cases hip : (t.file f).ip with
  | none => exact iff_of_true rfl nofun
  | some e =>
  dsimp only
  by_cases href : (t.entry e).ref < 1
  · rw [if_pos href]
    refine iff_of_true rfl ?_
    rintro _ ⟨⟩
    omega
  rw [if_neg href]
  refine iff_of_false nofun fun h => ?_
  have := h e rfl
  omega

theorem sysFunlock_eq_none {f : Fin NFILE} (hf : (t.proc p).ofile fd = some f) :
    sysFunlock t p fd = none ↔
      ∀ e, (t.file f).ip = some e → (t.entry e).ref = 0 ∨ ¬ Locks t p e := by
  constructor
  · intro h e hip
    by_contra! hc
    rw [sysFunlock, hf, bind_some, fileunlock, hip] at h
    dsimp only at h
    rw [hc.2, if_pos ⟨by simp [Sleeplock.holding], by omega⟩] at h
    cases h
  · refine fun h => eq_none_iff_forall_ne_some.mpr fun e hu => ?_
    obtain ⟨⟨_, hf', hip⟩, hlocks, href⟩ := sysFunlock_spec hu
    cases hf.symm.trans hf'
    exact (h e hip).elim (by omega) fun hn => hn hlocks

/-- **`flock` and `funlock` on a descriptor that is not of an inode**, in every state of the tables.
They are ignored if and only if the inode that the entry of the file table was of before, if there
is one, is not in use any more. `funlock` alone is also ignored where the process does not hold the
lock of that inode. -/
theorem not_inode_ignored_iff (s : State) (p : Fin NPROC) (fd : Fin NOFILE) (f : Fin NFILE)
    (hp : Runs s p) (hf : (s.tables.proc p).ofile fd = some f)
    (htype : (s.tables.file f).type ≠ .inode) : (Ignored s p fd ↔ ¬ Stale s.tables f) ∧
      (step s (.funlock p fd) = some s ↔ ∀ e, (s.tables.file f).ip = some e →
        (s.tables.entry e).ref = 0 ∨ ¬ Locks s.tables p e) := by
  have hstale : ¬ Stale s.tables f ↔
      ∀ e, (s.tables.file f).ip = some e → (s.tables.entry e).ref = 0 := by
    constructor
    · exact fun h e he => by_contra fun href => h ⟨htype, e, he, href⟩
    · rintro h ⟨-, e, he, href⟩
      exact href (h e he)
  have hflock : step s (.flock p fd) = some s ↔ sysFlock s.tables p fd = none := by
    rw [step, if_pos hp, some.injEq, startFlock_eq_self hp.2]
  have hfunlock : step s (.funlock p fd) = some s ↔ sysFunlock s.tables p fd = none := by
    rw [step, if_pos hp]
    cases hu : sysFunlock s.tables p fd with
    | none => exact iff_of_true rfl rfl
    | some e =>
    refine iff_of_false (fun h => ?_) nofun
    have hlock := congrArg (fun u : State => (u.tables.entry e).flock.locked) (some.inj h)
    simp [release, releasesleep, Files.State.setEntry, (sysFunlock_spec hu).2.1] at hlock
  rw [hstale, Ignored, hflock, hfunlock, sysFlock_eq_none hf, sysFunlock_eq_none hf]
  exact ⟨⟨And.left, fun h => ⟨h, fun e he => .inl (h e he)⟩⟩, Iff.rfl⟩

/-- A pipe in entries of the file table that were never used. -/
theorem not_inode_ignored_pipe : ∃ s : State, (s.tables.file 0).type = .pipe ∧ Ignored s 0 0 := by
  have hstart : Run.Reachable step (fun _ _ => True) (· = boot) boot := .start rfl
  obtain ⟨s, -, hq⟩ := hstart.exists_of_exec [.call (.pipe 0 true)]
    (fun s : State => Runs s 0 ∧ (s.tables.proc 0).ofile 0 = some 0 ∧
      (s.tables.file 0).type = .pipe ∧ (s.tables.file 0).ip = none) (by decide +kernel)
  obtain ⟨hp, hf, htype, hip⟩ := of_decide_eq_true hq
  refine ⟨s, htype, (not_inode_ignored_iff s 0 0 0 hp hf (by rw [htype]; nofun)).1.mpr ?_⟩
  rintro ⟨-, e, he, -⟩
  rw [hip] at he
  cases he

/-- A file is opened twice, closed once, and a pipe is made in the entry of the file table that this
has set free. Then `flock` through the pipe takes the lock of the file. -/
theorem pipe_locks_inode : ∃ s s₁ s₂ : State,
    Run.Reachable step (fun _ _ => True) (· = boot) s ∧ (s.tables.proc 0).ofile 0 = some 0 ∧
      (s.tables.file 0).type = .pipe ∧ (s.tables.entry 1).flock.locked = false ∧
      step s (.flock 0 0) = some s₁ ∧ step s₁ (.acquire 0) = some s₂ ∧
      (s₂.tables.entry 1).flock = ⟨true, 1⟩ := by
  have hstart : Run.Reachable step (fun _ _ => True) (· = boot) boot := .start rfl
  obtain ⟨s, hs, hq⟩ := hstart.exists_of_exec
    [.call (.open 0 (.finds 5 1) true true), .call (.open 0 (.finds 5 1) true true),
      .call (.close 0 0), .call (.pipe 0 true)]
    (fun s : State => ((s.tables.proc 0).ofile 0 = some 0 ∧ (s.tables.file 0).type = .pipe ∧
      (s.tables.entry 1).flock.locked = false) ∧
      ((step s (.flock 0 0)).bind fun s₁ => step s₁ (.acquire 0)).any
        (fun s₂ => decide ((s₂.tables.entry 1).flock.locked = true ∧
          (s₂.tables.entry 1).flock.pid = 1)) = true) (by decide +kernel)
  obtain ⟨⟨hf, htype, hfree⟩, hlocks⟩ := of_decide_eq_true hq
  obtain ⟨s₂, hs₂, hlocked⟩ := (any_eq_true _ _).mp hlocks
  obtain ⟨s₁, hs₁, hs₂⟩ := bind_eq_some_iff.mp hs₂
  obtain ⟨hl, hpid⟩ := of_decide_eq_true hlocked
  exact ⟨s, s₁, s₂, hs, hf, htype, hfree, hs₁, hs₂, by
    rw [← hl, ← hpid]⟩

end Flock

end Xv6.Files
