import Xv6.Lib.Run
import Xv6.Log.Protocol

/-!
# The invariant of the log protocol

Who holds which lock, who is counted in `log.outstanding`, and who is committing, read off the
program counters; and what the ghost history says about the in-memory header.

Each clause is kept by every transition of `LogStep`, usually for the reason that the one process
that moves is the only one that could break it. The clauses that need an argument are proved on
their own; the rest is a case analysis on the transition.
-/

namespace Xv6

variable {P : Type}

/-! ### Field lemmas -/

namespace LogState

variable (s : LogState P)

@[simp, grind =] theorem history_wakeup : s.wakeup.history = s.history := rfl
@[simp, grind =] theorem pc_wakeup (q : P) :
    s.wakeup.pc q = if s.pc q = .sleeping then .woken else s.pc q := rfl

@[simp, grind =] theorem history_fail (x : LogPanic) : (s.fail x).history = s.history := rfl

variable (e : LogEvent P)

@[simp, grind =] theorem pc_record (q : P) : (s.record e).pc q = s.pc q := rfl
@[simp, grind =] theorem outstanding_record : (s.record e).outstanding = s.outstanding := rfl
@[simp, grind =] theorem committing_record : (s.record e).committing = s.committing := rfl
@[simp, grind =] theorem lh_record : (s.record e).lh = s.lh := rfl
@[simp, grind =] theorem history_record : (s.record e).history = e :: s.history := rfl

variable [DecidableEq P] (p : P) (c : Pc)

@[simp, grind =] theorem outstanding_goto : (s.goto p c).outstanding = s.outstanding := rfl
@[simp, grind =] theorem committing_goto : (s.goto p c).committing = s.committing := rfl
@[simp, grind =] theorem lh_goto : (s.goto p c).lh = s.lh := rfl
@[simp, grind =] theorem history_goto : (s.goto p c).history = s.history := rfl
@[simp, grind =] theorem pc_goto (q : P) : (s.goto p c).pc q = if q = p then c else s.pc q := rfl

section Places

/-! A step moves one process, and `wakeup` moves the sleepers. A property of program counters that
does not tell the new place from the old one is the same for every process afterwards. -/

variable {s} {p} {c} {β : Type} {f : Pc → β}

theorem map_goto (h : f c = f (s.pc p)) (q : P) : f ((s.goto p c).pc q) = f (s.pc q) := by
  rw [pc_goto]
  split
  case isTrue hq => rw [hq, h]
  case isFalse => rfl

omit [DecidableEq P] in
theorem map_wakeup (h : f .woken = f .sleeping) (q : P) : f (s.wakeup.pc q) = f (s.pc q) := by
  rw [pc_wakeup]
  split
  case isTrue hq => rw [hq, h]
  case isFalse => rfl

theorem map_wakeup_goto (hw : f .woken = f .sleeping) (h : f c = f (s.pc p)) (q : P) :
    f ((s.wakeup.goto p c).pc q) = f (s.pc q) := by
  have hp : f (s.wakeup.pc p) = f (s.pc p) := map_wakeup hw p
  exact (map_goto (h.trans hp.symm) q).trans (map_wakeup hw q)

end Places

end LogState

/-! ### Program counters by what the process owns -/

/-- The process holds `log.lock`. -/
@[grind] def Pc.holdsLog : Pc → Bool
  | .beginTest | .sleepAcquire | .sleepRelease | .writeAppend _ | .endLocked | .endWakeup
  | .endRelease _ | .commitLocked | .commitWakeup | .commitRelease => true
  | _ => false

/-- The process holds `ptable.lock`. -/
@[grind] def Pc.holdsPtable : Pc → Bool
  | .sleepRelease | .sleepSet => true
  | _ => false

/-- The process is counted in `log.outstanding`. -/
@[grind] def Pc.active : Pc → Bool
  | .inOp | .writeTestSize _ | .writeTestOutstanding _ | .writeAcquire _ | .writeAppend _
  | .endAcquire | .endLocked => true
  | _ => false

/-- The process has set `log.committing` and not yet cleared it. -/
@[grind] def Pc.inCommit : Pc → Bool
  | .endRelease true | .commitTest | .commitClear | .commitAcquire | .commitLocked => true
  | _ => false

/-- The process is about to wake the sleepers, holding `log.lock`. -/
@[grind] def Pc.waking : Pc → Bool
  | .endWakeup | .commitWakeup => true
  | _ => false

/-! ### The history -/

variable [DecidableEq P]

/-- Process `p` has begun an operation and not finished it. -/
@[grind] def openIn : List (LogEvent P) → P → Bool
  | [], _ => false
  | .begin q :: h, p => if p = q then true else openIn h p
  | .finish q :: h, p => if p = q then false else openIn h p
  | _ :: h, p => openIn h p

omit [DecidableEq P] in
/-- The blocks logged since the last commit. -/
@[grind] def loggedSince : List (LogEvent P) → Finset ℕ
  | [] => ∅
  | .log _ b :: h => insert b (loggedSince h)
  | .commit _ :: _ => ∅
  | _ :: h => loggedSince h

omit [DecidableEq P] in
/-- The blocks whose `log_write` has passed its size test since the last commit. -/
@[grind] def claimedSince : List (LogEvent P) → Finset ℕ
  | [] => ∅
  | .claim _ b :: h => insert b (claimedSince h)
  | .commit _ :: _ => ∅
  | _ :: h => claimedSince h

/-! ### Locks -/

/-- Each lock's holder is the process whose program counter says so. -/
structure LockInv (s : LogState P) : Prop where
  log : ∀ p, (s.pc p).holdsLog = true ↔ s.lock = some p
  ptable : ∀ p, (s.pc p).holdsPtable = true ↔ s.ptableLock = some p

section Locks

variable {size : ℕ} {s s' : LogState P} {a : LogAction P} {p : P} {c : Pc}
  {holds : Pc → Bool} {lock : Option P}

omit [DecidableEq P] in
theorem owner_keep (hi : ∀ q, holds (s.pc q) = true ↔ lock = some q)
    (h : ∀ q, holds (s'.pc q) = holds (s.pc q)) (q : P) :
    holds (s'.pc q) = true ↔ lock = some q := by
  rw [h q]
  exact hi q

theorem owner_acquire (hi : ∀ q, holds (s.pc q) = true ↔ lock = some q) (hl : lock = none)
    (hc : holds c = true) (q : P) : holds ((s.goto p c).pc q) = true ↔ some p = some q := by
  rw [LogState.pc_goto]
  split
  case isTrue hq => exact iff_of_true hc (by rw [hq])
  case isFalse hq =>
    refine iff_of_false (fun h => ?_) (fun h => hq (Option.some.inj h).symm)
    cases hl.symm.trans ((hi q).mp h)

theorem owner_release (hi : ∀ q, holds (s.pc q) = true ↔ lock = some q)
    (hp : holds (s.pc p) = true) (hc : holds c = false) (q : P) :
    holds ((s.goto p c).pc q) = true ↔ none = some q := by
  rw [LogState.pc_goto]
  split
  case isTrue => simp [hc]
  case isFalse hq =>
    refine iff_of_false (fun h => hq ?_) nofun
    exact Option.some.inj (((hi q).mp h).symm.trans ((hi p).mp hp))

theorem LockInv.log_step (hi : LockInv s) (h : LogStep size s a s') (q : P) :
    (s'.pc q).holdsLog = true ↔ s'.lock = some q := by
  cases h
  case beginAcquire p _ hl | writeAcquire p b _ hl | endAcquire p _ hl | commitAcquire p _ hl =>
    exact owner_acquire hi.log hl rfl q
  case beginAdmit p hpc _ | sleepRelease p hpc | writeAppend p b hpc | endReleaseCommit p hpc
      | endRelease p hpc | commitRelease p hpc =>
    exact owner_release hi.log (by rw [hpc]; rfl) rfl q
  case endWakeup p hpc _ | commitWakeup p hpc _ =>
    exact owner_keep hi.log (LogState.map_wakeup_goto rfl (by rw [hpc]; rfl)) q
  case writeTooBig | writeOutside | endCommitting => exact hi.log q
  all_goals exact owner_keep hi.log (LogState.map_goto (by rw [‹s.pc _ = _›]; rfl)) q

theorem LockInv.ptable_step (hi : LockInv s) (h : LogStep size s a s') (q : P) :
    (s'.pc q).holdsPtable = true ↔ s'.ptableLock = some q := by
  cases h
  case sleepAcquire p _ hl => exact owner_acquire hi.ptable hl rfl q
  case sleepSet p hpc => exact owner_release hi.ptable (by rw [hpc]; rfl) rfl q
  case endWakeup p hpc _ | commitWakeup p hpc _ =>
    exact owner_keep hi.ptable (LogState.map_wakeup_goto rfl (by rw [hpc]; rfl)) q
  case writeTooBig | writeOutside | endCommitting => exact hi.ptable q
  all_goals exact owner_keep hi.ptable (LogState.map_goto (by rw [‹s.pc _ = _›]; rfl)) q

theorem LockInv.step (hi : LockInv s) (h : LogStep size s a s') : LockInv s' :=
  ⟨hi.log_step h, hi.ptable_step h⟩

end Locks

/-! ### Operations and commits -/

section Ops

variable [Fintype P]

omit [DecidableEq P] in
/-- The processes between the end of `begin_op` and the decrement in `end_op`. -/
def LogState.ops (s : LogState P) : Finset P := Run.parties fun p => (s.pc p).active

omit [DecidableEq P] in
theorem LogState.mem_ops {s : LogState P} {p : P} : p ∈ s.ops ↔ (s.pc p).active = true := by
  simp [LogState.ops]

/-- `log.outstanding` counts the operations, at most one process commits, and it does so only
while no operation is outstanding. -/
structure CommitInv (s : LogState P) : Prop where
  outstanding : s.outstanding = s.ops.card
  flag : ∀ p, (s.pc p).inCommit = true → s.committing = true
  unique : ∀ p q, (s.pc p).inCommit = true → (s.pc q).inCommit = true → p = q
  quiet : s.committing = true → ∀ p, (s.pc p).active = false

variable {size : ℕ} {s s' : LogState P} {a : LogAction P}

omit [DecidableEq P] in
theorem CommitInv.ops_eq_singleton (hi : CommitInv s) {p : P} (hp : (s.pc p).active = true)
    (ho : s.outstanding - 1 = 0) : s.ops = {p} := by
  have hcard : s.ops.card = 1 := by have := hi.outstanding; omega
  obtain ⟨q, hq⟩ := Finset.card_eq_one.mp hcard
  have hmem : p ∈ s.ops := LogState.mem_ops.mpr hp
  rw [hq, Finset.mem_singleton] at hmem
  rw [hq, hmem]

omit [DecidableEq P] in
theorem CommitInv.frame (hi : CommitInv s) (hout : s'.outstanding = s.outstanding)
    (hflag : s'.committing = s.committing) (hact : ∀ q, (s'.pc q).active = (s.pc q).active)
    (hin : ∀ q, (s'.pc q).inCommit = (s.pc q).inCommit) : CommitInv s' where
  outstanding := by
    rw [hout, LogState.ops, Run.parties_congr hact]
    exact hi.outstanding
  flag p hp := hflag.trans (hi.flag p ((hin p).symm.trans hp))
  unique p q hp hq := hi.unique p q ((hin p).symm.trans hp) ((hin q).symm.trans hq)
  quiet hc p := (hact p).trans (hi.quiet (hflag.symm.trans hc) p)

theorem CommitInv.step (hi : CommitInv s) (h : LogStep size s a s') : CommitInv s' := by
  have ho := hi.outstanding
  have hf := hi.flag
  have hu := hi.unique
  have hquiet := hi.quiet
  cases h
  case beginAdmit p hpc hw =>
    have hc : s.committing = false := by
      simp only [LogState.mustWait, Bool.or_eq_false_iff] at hw
      exact hw.1
    refine ⟨?_, by grind, by grind, by grind⟩
    rw [LogState.ops, Run.card_parties_enter (f := fun q => (s.pc q).active) (p := p) (by grind)
      (by grind) (by grind)]
    simp only [LogState.outstanding_record, LogState.outstanding_goto]
    rw [LogState.ops] at ho
    omega
  case endLast p hpc hc hlast =>
    have hone := hi.ops_eq_singleton (p := p) (by rw [hpc]; rfl) hlast
    refine ⟨?_, by grind, by grind, fun _ q => ?_⟩
    · rw [LogState.ops, Run.card_parties_leave (f := fun q => (s.pc q).active) (p := p)
        (by grind) (by grind) (by grind)]
      simp only [LogState.outstanding_record, LogState.outstanding_goto]
      rw [LogState.ops] at ho
      omega
    rcases eq_or_ne q p with rfl | hne
    · simp [Pc.active]
    · have hmem : q ∉ s.ops := by simp [hone, hne]
      rw [LogState.mem_ops] at hmem
      simpa [hne] using hmem
  case endOther p hpc hc _ =>
    refine ⟨?_, by grind, by grind, by grind⟩
    rw [LogState.ops, Run.card_parties_leave (f := fun q => (s.pc q).active) (p := p) (by grind)
      (by grind) (by grind)]
    simp only [LogState.outstanding_record, LogState.outstanding_goto]
    rw [LogState.ops] at ho
    omega
  case commitLocked p hpc =>
    refine ⟨?_, by grind, by grind, by grind⟩
    rw [LogState.ops, Run.parties_congr (f := fun q => (s.pc q).active) (by grind)]
    exact ho
  case endWakeup p hpc _ | commitWakeup p hpc _ =>
    exact hi.frame rfl rfl (LogState.map_wakeup_goto rfl (by rw [hpc]; rfl))
      (LogState.map_wakeup_goto rfl (by rw [hpc]; rfl))
  case writeTooBig | writeOutside | endCommitting =>
    exact hi.frame rfl rfl (fun _ => rfl) (fun _ => rfl)
  all_goals
    exact hi.frame rfl rfl (LogState.map_goto (by rw [‹s.pc _ = _›]; rfl))
      (LogState.map_goto (by rw [‹s.pc _ = _›]; rfl))

end Ops

/-! ### The header and the history -/

/-- The process has passed the size test of `log_write(b)` and not yet stored `b`. -/
@[grind] def Pc.pending : Pc → Option ℕ
  | .writeTestOutstanding b | .writeAcquire b | .writeAppend b => some b
  | _ => none

@[grind →] theorem Pc.active_of_pending {c : Pc} {b : ℕ} (h : c.pending = some b) :
    c.active = true := by
  cases c <;> first | rfl | cases h

/-- The in-memory header against the history. Between the commit and `lh.n = 0` the header still
names the committed blocks; at all other times it names what was logged since the last commit. -/
structure HeaderInv (s : LogState P) : Prop where
  nodup : s.lh.Nodup
  logged : (∀ p, s.pc p ≠ .commitClear) → s.lh.toFinset = loggedSince s.history
  cleared : ∀ p, s.pc p = .commitClear → loggedSince s.history = ∅
  opened : ∀ p, (s.pc p).active = openIn s.history p
  claimed : loggedSince s.history ⊆ claimedSince s.history
  pending : ∀ p b, (s.pc p).pending = some b → b ∈ claimedSince s.history

theorem logAppend_eq (lh : List ℕ) (b : ℕ) : logAppend lh b = if b ∈ lh then lh else lh ++ [b] := by
  unfold logAppend
  by_cases hb : b ∈ lh
  · have hlt : lh.idxOf b < lh.length := List.idxOf_lt_length_of_mem hb
    have hset : lh.set (lh.idxOf b) lh[lh.idxOf b] = lh := List.set_getElem_self hlt
    rw [List.getElem_idxOf hlt] at hset
    rw [if_neg (by omega), if_pos hb, hset]
  · rw [if_pos (List.idxOf_eq_length hb), if_neg hb]

theorem toFinset_logAppend (lh : List ℕ) (b : ℕ) :
    (logAppend lh b).toFinset = insert b lh.toFinset := by
  rw [logAppend_eq]
  split
  case isTrue hb => rw [Finset.insert_eq_of_mem (List.mem_toFinset.mpr hb)]
  case isFalse => simp

theorem nodup_logAppend {lh : List ℕ} (h : lh.Nodup) (b : ℕ) : (logAppend lh b).Nodup := by
  rw [logAppend_eq]
  split
  case isTrue => exact h
  case isFalse hb => exact List.nodup_append.mpr ⟨h, List.nodup_singleton b, by grind⟩

section Header

variable [Fintype P] {size : ℕ} {s s' : LogState P} {a : LogAction P}

omit [DecidableEq P] in
theorem CommitInv.not_inCommit (hc : CommitInv s) {p q : P} (hp : (s.pc p).active = true) :
    (s.pc q).inCommit = false := by
  by_contra hq
  have hflag := hc.flag q (by simpa using hq)
  rw [hc.quiet hflag p] at hp
  cases hp

/-- What the invariant of the header reads of a program counter. -/
def Pc.inHeader (c : Pc) : Bool × Option ℕ × Bool := (c.active, c.pending, c == .commitClear)

omit [DecidableEq P] [Fintype P] in
theorem commitClear_iff (h : ∀ q, (s'.pc q).inHeader = (s.pc q).inHeader) (q : P) :
    s'.pc q = .commitClear ↔ s.pc q = .commitClear := by
  have hq : (s'.pc q == .commitClear) = (s.pc q == .commitClear) := congrArg (·.2.2) (h q)
  rw [← beq_iff_eq, hq, beq_iff_eq]

omit [Fintype P] in
theorem HeaderInv.frame (hi : HeaderInv s) (hlh : s'.lh = s.lh)
    (hlog : loggedSince s'.history = loggedSince s.history)
    (hcl : claimedSince s.history ⊆ claimedSince s'.history)
    (hclear : ∀ q, s'.pc q = .commitClear ↔ s.pc q = .commitClear)
    (hopen : ∀ q, (s'.pc q).active = openIn s'.history q)
    (hpend : ∀ q b, (s'.pc q).pending = some b → b ∈ claimedSince s'.history) : HeaderInv s' where
  nodup := hlh ▸ hi.nodup
  logged h := by
    rw [hlh, hlog]
    exact hi.logged fun q hq => h q ((hclear q).mpr hq)
  cleared q hq := by
    rw [hlog]
    exact hi.cleared q ((hclear q).mp hq)
  opened := hopen
  claimed := hlog ▸ hi.claimed.trans hcl
  pending := hpend

omit [Fintype P] in
theorem HeaderInv.keep (hi : HeaderInv s) (hlh : s'.lh = s.lh) (hh : s'.history = s.history)
    (h : ∀ q, (s'.pc q).inHeader = (s.pc q).inHeader) : HeaderInv s' := by
  refine hi.frame hlh (by rw [hh]) (by rw [hh]) (commitClear_iff h) (fun q => ?_) fun q b hb => ?_
  · rw [hh, ← hi.opened q]
    exact congrArg (·.1) (h q)
  · rw [hh]
    exact hi.pending q b ((congrArg (·.2.1) (h q)).symm.trans hb)

theorem HeaderInv.step (hi : HeaderInv s) (hc : CommitInv s) (h : LogStep size s a s') :
    HeaderInv s' := by
  have hopen := hi.opened
  have hpend := hi.pending
  cases h
  case writeAppend p b hpc =>
    have hact : (s.pc p).active = true := by rw [hpc]; rfl
    have hno : ∀ q, s.pc q ≠ .commitClear := fun q hq => by
      have := hc.not_inCommit (q := q) hact
      rw [hq] at this
      cases this
    refine ⟨nodup_logAppend hi.nodup b, fun _ => ?_, by grind, by grind, ?_, by grind⟩
    · exact (toFinset_logAppend s.lh b).trans (by rw [hi.logged hno]; rfl)
    · exact Finset.insert_subset (hpend p b (by rw [hpc]; rfl)) hi.claimed
  case commitWrite p hpc hn =>
    have hquiet := hc.quiet (hc.flag p (by rw [hpc]; rfl))
    refine ⟨hi.nodup, fun h => absurd (by simp) (h p), fun _ _ => rfl, by grind, ?_, by grind⟩
    exact Finset.Subset.refl _
  case commitNothing p hpc hn =>
    have hquiet := hc.quiet (hc.flag p (by rw [hpc]; rfl))
    have hnil : s.lh = [] := List.length_eq_zero_iff.mp (by omega)
    refine ⟨hi.nodup, fun _ => ?_, fun _ _ => rfl, by grind, Finset.Subset.refl _, by grind⟩
    simp [hnil, loggedSince]
  case commitClear p hpc =>
    refine ⟨List.nodup_nil, fun _ => (hi.cleared p hpc).symm, fun _ _ => hi.cleared p hpc,
      by grind, hi.claimed, by grind⟩
  case writeClaim p b hpc ht =>
    exact hi.frame rfl rfl (Finset.subset_insert _ _) (by grind) (by grind) (by grind)
  case beginAdmit | endLast | endOther =>
    exact hi.frame rfl rfl (Finset.Subset.refl _) (by grind) (by grind) (by grind)
  case endWakeup p hpc _ | commitWakeup p hpc _ =>
    exact hi.keep rfl rfl (LogState.map_wakeup_goto rfl (by rw [hpc]; rfl))
  case writeTooBig | writeOutside | endCommitting => exact hi.keep rfl rfl fun _ => rfl
  all_goals exact hi.keep rfl rfl (LogState.map_goto (by rw [‹s.pc _ = _›]; rfl))

/-- Every commit in the history wrote exactly what was logged since the one before it, at a moment
when no operation was open. -/
@[grind] def CommitsOk : List (LogEvent P) → Prop
  | [] => True
  | .commit bs :: h =>
    (∀ p, openIn h p = false) ∧ bs.Nodup ∧ bs.toFinset = loggedSince h ∧ CommitsOk h
  | _ :: h => CommitsOk h

theorem CommitsOk.step (hi : CommitsOk s.history) (hh : HeaderInv s) (hc : CommitInv s)
    (h : LogStep size s a s') : CommitsOk s'.history := by
  cases h
  case commitWrite p hpc _ | commitNothing p hpc _ =>
    have hin : (s.pc p).inCommit = true := by rw [hpc]; rfl
    have hno : ∀ q, s.pc q ≠ .commitClear := fun q hq => by
      have := hc.unique p q hin (by rw [hq]; rfl)
      rw [← this, hpc] at hq
      cases hq
    refine ⟨fun q => ?_, hh.nodup, hh.logged hno, hi⟩
    rw [LogState.history_goto, ← hh.opened q]
    exact hc.quiet (hc.flag p hin) q
  all_goals exact hi

/-! ### Sleepers

A process that found it must wait is still right to wait when it is finally asleep, unless a waker
is on its way: everything that could let an operation in either sets `log.committing` or is
followed by `wakeup` before `log.lock` is released, and `wakeup` cannot run while somebody is
between the test and `SLEEPING`, because that process holds one of the two locks. -/

omit [DecidableEq P] [Fintype P] in
theorem mustWait_iff : s.mustWait = true ↔
    s.committing = true ∨ (LOGSIZE : ℤ) < s.lh.length + (s.outstanding + 1) * MAXOPBLOCKS := by
  simp [LogState.mustWait]

structure SleepInv (s : LogState P) : Prop where
  entering : ∀ p, s.pc p = .sleepAcquire ∨ s.pc p = .sleepRelease → s.mustWait = true
  asleep : ∀ p, s.pc p = .sleepSet ∨ s.pc p = .sleeping →
    s.mustWait = true ∨ ∃ q, (s.pc q).waking = true

omit [DecidableEq P] [Fintype P] in
theorem mustWait_mono (hc : s.committing = true → s'.committing = true)
    (hlh : s.lh.length ≤ s'.lh.length) (ho : s.outstanding ≤ s'.outstanding)
    (h : s.mustWait = true) : s'.mustWait = true := by
  rw [mustWait_iff] at h ⊢
  rcases h with h | h
  · exact Or.inl (hc h)
  right
  have hlh' : (s.lh.length : ℤ) ≤ s'.lh.length := by exact_mod_cast hlh
  have hm : (MAXOPBLOCKS : ℤ) = 10 := rfl
  rw [hm] at h ⊢
  omega

theorem length_logAppend (lh : List ℕ) (b : ℕ) : lh.length ≤ (logAppend lh b).length := by
  rw [logAppend_eq]
  split <;> simp

omit [DecidableEq P] [Fintype P] in
theorem SleepInv.frame (hi : SleepInv s) (hw : s.mustWait = true → s'.mustWait = true)
    (he : ∀ p, s'.pc p = .sleepAcquire ∨ s'.pc p = .sleepRelease →
      s.pc p = .sleepAcquire ∨ s.pc p = .sleepRelease ∨ s'.mustWait = true)
    (ha : ∀ p, s'.pc p = .sleepSet ∨ s'.pc p = .sleeping →
      s.pc p = .sleepSet ∨ s.pc p = .sleeping ∨ s.pc p = .sleepRelease)
    (hq : ∀ q, (s.pc q).waking = true → (s'.pc q).waking = true) : SleepInv s' where
  entering p hp := by
    rcases he p hp with h | h | h
    · exact hw (hi.entering p (.inl h))
    · exact hw (hi.entering p (.inr h))
    · exact h
  asleep p hp := by
    rcases ha p hp with h | h | h
    · exact (hi.asleep p (.inl h)).imp hw fun ⟨q, hq'⟩ => ⟨q, hq q hq'⟩
    · exact (hi.asleep p (.inr h)).imp hw fun ⟨q, hq'⟩ => ⟨q, hq q hq'⟩
    · exact .inl (hw (hi.entering p (.inr h)))

omit [Fintype P] in
theorem SleepInv.goto {p : P} {c : Pc} (hi : SleepInv s)
    (hpc : ∀ q, s'.pc q = (s.goto p c).pc q) (hw : s.mustWait = true → s'.mustWait = true)
    (he : c = .sleepAcquire ∨ c = .sleepRelease →
      s.pc p = .sleepAcquire ∨ s.pc p = .sleepRelease ∨ s'.mustWait = true)
    (ha : c = .sleepSet ∨ c = .sleeping →
      s.pc p = .sleepSet ∨ s.pc p = .sleeping ∨ s.pc p = .sleepRelease)
    (hq : (s.pc p).waking = true → c.waking = true) : SleepInv s' := by
  refine hi.frame hw (fun q => ?_) (fun q => ?_) fun q => ?_
  all_goals
    rw [hpc, LogState.pc_goto]
    split
    case isTrue h => rw [h]; assumption
  · exact fun h => h.imp_right .inl
  · exact fun h => h.imp_right .inl
  · exact fun h => h

theorem SleepInv.step (hi : SleepInv s) (hl : LockInv s) (hc : CommitInv s)
    (h : LogStep size s a s') : SleepInv s' := by
  have hlog := hl.log
  have hpt := hl.ptable
  cases h
  case endOther p hpc _ _ | commitLocked p hpc =>
    -- `p` holds log.lock, so nobody is entering; it is the waker of those already asleep
    refine ⟨fun q hq => ?_, fun q _ => .inr ⟨p, by simp [Pc.waking]⟩⟩
    have := (hlog p).mp (by rw [hpc]; rfl)
    grind
  case endWakeup p hpc hpt' | commitWakeup p hpc hpt' =>
    -- ptable.lock is free, so nobody is at `sleepSet`; the sleepers are woken
    have := (hlog p).mp (by rw [hpc]; rfl)
    constructor <;> grind
  case endLast p hpc _ _ =>
    refine hi.goto (fun _ => rfl) (fun _ => by simp [mustWait_iff]) nofun nofun ?_
    rw [hpc]
    nofun
  case commitClear p hpc =>
    have hcm : s.committing = true := hc.flag p (by rw [hpc]; rfl)
    refine hi.goto (fun _ => rfl) (fun _ => by simp [mustWait_iff, hcm]) nofun nofun ?_
    rw [hpc]
    nofun
  case beginAdmit p hpc hw =>
    have hle : s.outstanding ≤ s.outstanding + 1 := by omega
    refine hi.goto (fun _ => rfl) (mustWait_mono (fun h => h) (Nat.le_refl _) hle) nofun nofun ?_
    rw [hpc]
    nofun
  case writeAppend p b hpc =>
    refine hi.goto (fun _ => rfl)
      (mustWait_mono (fun h => h) (length_logAppend _ _) (Int.le_refl _)) nofun nofun ?_
    rw [hpc]
    nofun
  case beginWait p hpc hw =>
    exact hi.goto (fun _ => rfl) (fun h => h) (fun _ => .inr (.inr hw)) nofun (by rw [hpc]; nofun)
  case sleepAcquire p hpc _ =>
    exact hi.goto (fun _ => rfl) (fun h => h) (fun _ => .inl hpc) nofun (by rw [hpc]; nofun)
  case sleepRelease p hpc =>
    exact hi.goto (fun _ => rfl) (fun h => h) nofun (fun _ => .inr (.inr hpc)) (by rw [hpc]; nofun)
  case sleepSet p hpc =>
    exact hi.goto (fun _ => rfl) (fun h => h) nofun (fun _ => .inl hpc) (by rw [hpc]; nofun)
  case writeTooBig | writeOutside | endCommitting => exact ⟨hi.entering, hi.asleep⟩
  all_goals exact hi.goto (fun _ => rfl) (fun h => h) nofun nofun (by rw [‹s.pc _ = _›]; nofun)

/-! ### The whole invariant -/

structure LogInv (s : LogState P) : Prop where
  locks : LockInv s
  commit : CommitInv s
  header : HeaderInv s
  commits : CommitsOk s.history
  sleep : SleepInv s

theorem LogInv.init : LogInv (LogState.init : LogState P) where
  locks := ⟨fun p => by simp [LogState.init, Pc.holdsLog],
    fun p => by simp [LogState.init, Pc.holdsPtable]⟩
  commit := ⟨by simp [LogState.init, LogState.ops, Pc.active, Run.parties],
    fun p h => by simp [LogState.init, Pc.inCommit] at h,
    fun p q h => by simp [LogState.init, Pc.inCommit] at h, fun h => by simp [LogState.init] at h⟩
  header := ⟨List.nodup_nil, fun _ => rfl, fun _ _ => rfl, fun _ => rfl, Finset.Subset.refl _,
    fun p b h => by simp [LogState.init, Pc.pending] at h⟩
  commits := trivial
  sleep := ⟨fun p h => by simp [LogState.init] at h, fun p h => by simp [LogState.init] at h⟩

theorem LogInv.step (hi : LogInv s) (h : LogStep size s a s') : LogInv s' where
  locks := hi.locks.step h
  commit := hi.commit.step h
  header := hi.header.step hi.commit h
  commits := hi.commits.step hi.header hi.commit h
  sleep := hi.sleep.step hi.locks hi.commit h

theorem LogInv.reachable {ok : LogState P → LogAction P → Prop}
    (h : Run.Reachable (LogState.step size) ok (· = LogState.init) s) : LogInv s :=
  h.invariant (fun _ h₀ => h₀ ▸ LogInv.init) fun _ _ _ hi _ hs =>
    hi.step (LogState.step_sound hs).2

end Header

end Xv6
