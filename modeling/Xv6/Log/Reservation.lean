import Mathlib.Algebra.Order.BigOperators.Group.Finset
import Xv6.Log.CrashAtomicity
import Xv6.Log.Invariant

/-!
# Log space reservation

`begin_op` admits an operation only if the log could hold `MAXOPBLOCKS` blocks of every admitted
operation on top of what is logged already; it compares with `LOGSIZE`. The log that `mkfs` makes
has `LOGSIZE` blocks, one of which is the header, and `log_write` compares with `log.size - 1`.

So the reservation protects the array `log.lh.block[LOGSIZE]`, whatever the operations do within
their limit (`length_lh_le_LOGSIZE`), but not the log region, which has one slot less:
`reservation_one_short` runs into the panic, and past the region.

`Room` says what is missing. When `log_write(b)` tests the size, the header is not full, and the
blocks of the transaction that are past their own test fit the slots together with `b`. The second
half counts blocks *past their test* because the test runs before `log.lock` is taken, so the
header alone does not show the blocks that are about to be stored.
-/

namespace Xv6

open CrashM Finset

variable {P : Type} [DecidableEq P]

/-! ### The assumption on operations -/

/-- The distinct blocks logged by the current operation of `p`. -/
@[grind] def opBlocks : List (LogEvent P) → P → Finset ℕ
  | [], _ => ∅
  | .begin q :: h, p => if p = q then ∅ else opBlocks h p
  | .log q b :: h, p => if p = q then insert b (opBlocks h p) else opBlocks h p
  | _ :: h, p => opBlocks h p

/-- Each operation logs at most `MAXOPBLOCKS` distinct blocks. -/
def OpLimit (s : LogState P) : LogAction P → Prop
  | .logWrite p b => (insert b (opBlocks s.history p)).card ≤ MAXOPBLOCKS
  | _ => True

instance (s : LogState P) (a : LogAction P) : Decidable (OpLimit s a) := by
  unfold OpLimit
  split <;> infer_instance

/-! ### The reservation -/

/-- The process is in `log_write(b)`. -/
@[grind] def Pc.writing : Pc → Option ℕ
  | .writeTestSize b | .writeTestOutstanding b | .writeAcquire b | .writeAppend b => some b
  | _ => none

section Reservation

variable [Fintype P] {size : ℕ} {s s' : LogState P} {a : LogAction P}

def LogState.reserved (s : LogState P) : ℕ :=
  ∑ p ∈ s.ops, (MAXOPBLOCKS - (opBlocks s.history p).card)

/-- The header and what is reserved fit `log.lh.block[LOGSIZE]`. -/
structure Reserved (s : LogState P) : Prop where
  limit : ∀ p b, (s.pc p).writing = some b →
    (insert b (opBlocks s.history p)).card ≤ MAXOPBLOCKS
  logged : ∀ p, (s.pc p).active = true → opBlocks s.history p ⊆ loggedSince s.history
  fits : s.lh.length + s.reserved ≤ LOGSIZE

theorem Reserved.limit_step (hi : Reserved s) (ha : OpLimit s a) (h : LogStep size s a s') :
    ∀ p b, (s'.pc p).writing = some b → (insert b (opBlocks s'.history p)).card ≤ MAXOPBLOCKS := by
  have hlim := hi.limit
  cases h
  case logWrite p b hpc =>
    have hb : (insert b (opBlocks s.history p)).card ≤ MAXOPBLOCKS := ha
    grind
  case beginAdmit | writeAppend => grind
  case endWakeup p hpc _ | commitWakeup p hpc _ =>
    intro q b hb
    exact hlim q b ((LogState.map_wakeup_goto rfl (by rw [hpc]; rfl) q).symm.trans hb)
  case writeTooBig | writeOutside | endCommitting => exact hlim
  all_goals
    intro q b hb
    exact hlim q b ((LogState.map_goto (by rw [‹s.pc _ = _›]; rfl) q).symm.trans hb)

theorem Reserved.logged_step (hi : Reserved s) (hc : CommitInv s) (h : LogStep size s a s') :
    ∀ p, (s'.pc p).active = true → opBlocks s'.history p ⊆ loggedSince s'.history := by
  have hsub := hi.logged
  cases h
  case beginAdmit p hpc hw =>
    intro q hq
    rcases eq_or_ne q p with rfl | hne
    · simp [opBlocks]
    · simpa [opBlocks, loggedSince, hne] using hsub q (by simpa [hne] using hq)
  case commitWrite p hpc _ | commitNothing p hpc _ =>
    have hquiet := hc.quiet (hc.flag p (by rw [hpc]; rfl))
    grind
  case writeAppend p b hpc =>
    intro q hq
    have hold : opBlocks s.history q ⊆ loggedSince s.history := hsub q (by grind)
    have hlog : loggedSince (.log p b :: s.history) = insert b (loggedSince s.history) := rfl
    simp only [LogState.history_record, LogState.history_goto, hlog, opBlocks]
    split
    case isTrue => exact insert_subset_insert b hold
    case isFalse => exact hold.trans (subset_insert _ _)
  case endLast | endOther => grind
  case endWakeup p hpc _ | commitWakeup p hpc _ =>
    intro q hq
    exact hsub q ((LogState.map_wakeup_goto rfl (by rw [hpc]; rfl) q).symm.trans hq)
  case writeTooBig | writeOutside | endCommitting => exact hsub
  all_goals
    intro q hq
    exact hsub q ((LogState.map_goto (by rw [‹s.pc _ = _›]; rfl) q).symm.trans hq)

theorem Reserved.fits_frame (hi : Reserved s) (hlh : s'.lh.length ≤ s.lh.length)
    (hact : ∀ q, (s'.pc q).active = true → (s.pc q).active = true)
    (hblk : ∀ q, opBlocks s'.history q = opBlocks s.history q) :
    s'.lh.length + s'.reserved ≤ LOGSIZE := by
  have hsub : s'.ops ⊆ s.ops := fun q hq =>
    LogState.mem_ops.mpr (hact q (LogState.mem_ops.mp hq))
  have hle : s'.reserved ≤ s.reserved := by
    simp only [LogState.reserved, hblk]
    exact sum_le_sum_of_subset hsub
  exact (Nat.add_le_add hlh hle).trans hi.fits

theorem LogState.reserved_le (s : LogState P) : s.reserved ≤ s.ops.card * MAXOPBLOCKS := by
  exact sum_le_card_nsmul _ _ _ fun _ _ => Nat.sub_le _ _

theorem Reserved.writeAppend (hi : Reserved s) (hh : HeaderInv s) (hc : CommitInv s) {p : P}
    {b : ℕ} (hpc : s.pc p = .writeAppend b) :
    (logAppend s.lh b).length + (MAXOPBLOCKS - (insert b (opBlocks s.history p)).card) ≤
      s.lh.length + (MAXOPBLOCKS - (opBlocks s.history p).card) := by
  have hact : (s.pc p).active = true := by rw [hpc]; rfl
  have hlim := hi.limit p b (by rw [hpc]; rfl)
  have hlog : s.lh.toFinset = loggedSince s.history := hh.logged fun q hq => by
    have hno := hc.not_inCommit (q := q) hact
    rw [hq] at hno
    cases hno
  rw [logAppend_eq]
  by_cases hb : b ∈ s.lh
  · rw [if_pos hb]
    have := card_le_card (subset_insert b (opBlocks s.history p))
    omega
  -- a block that is not in the header is new to the operation too
  have hnew : b ∉ opBlocks s.history p := fun hmem =>
    hb (List.mem_toFinset.mp (hlog ▸ hi.logged p hact hmem))
  rw [card_insert_of_notMem hnew] at hlim ⊢
  rw [if_neg hb, List.length_append, List.length_singleton]
  omega

theorem Reserved.fits_step (hi : Reserved s) (hh : HeaderInv s) (hc : CommitInv s)
    (h : LogStep size s a s') : s'.lh.length + s'.reserved ≤ LOGSIZE := by
  cases h
  case beginAdmit p hpc hw =>
    have hle := LogState.reserved_le (({ s with
      outstanding := s.outstanding + 1, lock := none }.goto p .inOp).record (.begin p))
    rw [LogState.ops, Run.card_parties_enter (f := fun q => (s.pc q).active) (p := p) (by grind)
      (by grind) (by grind)] at hle
    have hw' := mustWait_iff.not.mp (by rw [hw]; exact Bool.false_ne_true)
    rw [hc.outstanding, LogState.ops] at hw'
    have hm : MAXOPBLOCKS = 10 := rfl
    have hl : LOGSIZE = 30 := rfl
    rw [hm] at hle
    rw [hm, hl] at hw'
    simp only [LogState.lh_record, LogState.lh_goto, hl]
    push_cast at hw'
    omega
  case writeAppend p b hpc =>
    have hact : p ∈ s.ops := LogState.mem_ops.mpr (by rw [hpc]; rfl)
    have happ := hi.writeAppend hh hc hpc
    have hfits := hi.fits
    rw [LogState.reserved, ← add_sum_erase _ _ hact] at hfits
    have hops : (({ s with lh := logAppend s.lh b, lock := none }.goto p .inOp).record
        (.log p b)).ops = s.ops := Run.parties_congr (by grind)
    rw [LogState.reserved, hops, ← add_sum_erase _ _ hact]
    have hrest : ∑ q ∈ s.ops.erase p,
          (MAXOPBLOCKS - (opBlocks (LogEvent.log p b :: s.history) q).card) =
        ∑ q ∈ s.ops.erase p, (MAXOPBLOCKS - (opBlocks s.history q).card) :=
      sum_congr rfl fun q hq => by
        rw [opBlocks, if_neg (ne_of_mem_erase hq)]
    simp only [LogState.lh_record, LogState.lh_goto, LogState.history_record,
      LogState.history_goto, hrest]
    rw [opBlocks, if_pos rfl]
    omega
  case commitClear p hpc =>
    exact hi.fits_frame (Nat.zero_le _) (by grind) fun _ => rfl
  case endLast | endOther => exact hi.fits_frame (Nat.le_refl _) (by grind) fun _ => rfl
  case endWakeup p hpc _ | commitWakeup p hpc _ =>
    refine hi.fits_frame (Nat.le_refl _) (fun q hq => ?_) fun _ => rfl
    exact (LogState.map_wakeup_goto rfl (by rw [hpc]; rfl) q).symm.trans hq
  case writeTooBig | writeOutside | endCommitting =>
    exact hi.fits_frame (Nat.le_refl _) (fun _ hq => hq) fun _ => rfl
  all_goals
    refine hi.fits_frame (Nat.le_refl _) (fun q hq => ?_) fun _ => rfl
    exact (LogState.map_goto (by rw [‹s.pc _ = _›]; rfl) q).symm.trans hq

theorem Reserved.step (hi : Reserved s) (hl : LogInv s) (ha : OpLimit s a)
    (h : LogStep size s a s') : Reserved s' where
  limit := hi.limit_step ha h
  logged := hi.logged_step hl.commit h
  fits := hi.fits_step hl.header hl.commit h

theorem Reserved.init : Reserved (LogState.init : LogState P) where
  limit p b h := by simp [LogState.init, Pc.writing] at h
  logged p h := by simp [LogState.init, Pc.active] at h
  fits := by simp [LogState.reserved, LogState.ops, LogState.init, Pc.active, Run.parties]

/-- **The reservation protects the header's array**, for every size of the log: if operations stay
within `MAXOPBLOCKS`, the header never holds more than `LOGSIZE` blocks. -/
theorem length_lh_le_LOGSIZE
    (h : Run.Reachable (LogState.step size) OpLimit (· = LogState.init) s) :
    s.lh.length ≤ LOGSIZE := by
  have hres : LogInv s ∧ Reserved s := by
    refine h.invariant (I := fun s => LogInv s ∧ Reserved s) ?_ ?_
    · rintro _ rfl
      exact ⟨LogInv.init, Reserved.init⟩
    · intro s a s' ⟨hl, hr⟩ ha hs
      have hstep := (LogState.step_sound hs).2
      exact ⟨hl.step hstep, hr.step hl ha hstep⟩
  exact (Nat.le_add_right _ _).trans hres.2.fits

end Reservation

/-! ### Concrete steps -/

/-- `begin_op`, run to its end. -/
def beginSteps (p : P) : List (LogAction P) := [.beginOp p, .run p, .run p]

/-- `log_write(b)` up to the point where it waits for `log.lock`. -/
def testSteps (p : P) (b : ℕ) : List (LogAction P) := [.logWrite p b, .run p, .run p]

/-- The rest of `log_write`. -/
def appendSteps (p : P) : List (LogAction P) := [.run p, .run p]

def logSteps (p : Fin 3) (n : ℕ) : List (LogAction (Fin 3)) :=
  (List.range n).flatMap fun j => testSteps p (100 * (p + 1) + j) ++ appendSteps p

def fillSteps : List (LogAction (Fin 3)) :=
  beginSteps 0 ++ beginSteps 1 ++ beginSteps 2 ++ logSteps 0 10 ++ logSteps 1 10 ++ logSteps 2 9

theorem length_lh_le_LOGSIZE_fillSteps : ∃ s : LogState (Fin 3),
    s.lh.length = 29 ∧ s.lh.length ≤ LOGSIZE := by
  have h₀ : Run.Reachable (LogState.step 30) OpLimit (· = LogState.init)
      (LogState.init : LogState (Fin 3)) := .start rfl
  obtain ⟨s, hr, hs⟩ := h₀.exists_of_exec fillSteps (fun s => s.lh.length = 29) (by decide +kernel)
  exact ⟨s, of_decide_eq_true hs, length_lh_le_LOGSIZE hr⟩

/-! ### The log region -/

section Region

variable {size : ℕ} {s s' : LogState P} {a : LogAction P}

/-- The process is about to make the size test of `log_write(b)`. -/
def Pc.testing : Pc → Option ℕ
  | .writeTestSize b => some b
  | _ => none

/-- At its size test, `log_write(b)` finds the header of a log of `size` blocks not full, and the
blocks of the transaction that are past their test fit the slots together with `b`. -/
def Room (size : ℕ) (s : LogState P) : LogAction P → Prop
  | .run p => ∀ b ∈ (s.pc p).testing,
      s.lh.length < size - 1 ∧ (insert b (claimedSince s.history)).card ≤ size - 1
  | _ => True

instance (size : ℕ) (s : LogState P) (a : LogAction P) : Decidable (Room size s a) := by
  unfold Room
  split <;> infer_instance

/-- The transaction fits the region, those of its blocks included that are yet to be stored. -/
structure InRegion (size : ℕ) (s : LogState P) : Prop where
  panic : s.panic ≠ some .tooBig
  claimed : (claimedSince s.history).card ≤ size - 1
  stored : s.lh.length ≤ size - 1

omit [DecidableEq P] in
theorem InRegion.init : InRegion size (LogState.init : LogState P) :=
  ⟨nofun, Nat.zero_le _, Nat.zero_le _⟩

theorem tooBig_eq_false_of_lt {lh : List ℕ} (h : lh.length < size - 1) (hs : size ≤ LOGSIZE) :
    tooBig size lh = false := by
  simp only [tooBig, Bool.or_eq_false_iff, decide_eq_false_iff_not]
  omega

variable [Fintype P]

theorem InRegion.step (hi : InRegion size s) (hh : HeaderInv s) (hc : CommitInv s)
    (hsize : size ≤ LOGSIZE) (hp : s.panic = none) (ha : Room size s a)
    (h : LogStep size s a s') : InRegion size s' := by
  obtain ⟨-, hclaimed, hstored⟩ := hi
  have hpanic : s.panic ≠ some .tooBig := by rw [hp]; nofun
  cases h
  case writeTooBig p b hpc ht =>
    rw [tooBig_eq_false_of_lt (ha b (by rw [hpc]; rfl)).1 hsize] at ht
    cases ht
  case writeClaim p b hpc ht => exact ⟨hpanic, (ha b (by rw [hpc]; rfl)).2, hstored⟩
  case writeAppend p b hpc =>
    refine ⟨hpanic, hclaimed, ?_⟩
    have hact : (s.pc p).active = true := by rw [hpc]; rfl
    have hlog : s.lh.toFinset = loggedSince s.history := hh.logged fun q hq => by
      have hno := hc.not_inCommit (q := q) hact
      rw [hq] at hno
      cases hno
    -- the header lists distinct blocks, all of them past their size test
    have hsub : insert b s.lh.toFinset ⊆ claimedSince s.history :=
      insert_subset (hh.pending p b (by rw [hpc]; rfl)) (hlog ▸ hh.claimed)
    calc (logAppend s.lh b).length
        = (insert b s.lh.toFinset).card := by
          rw [← toFinset_logAppend, List.toFinset_card_of_nodup (nodup_logAppend hh.nodup b)]
      _ ≤ (claimedSince s.history).card := card_le_card hsub
      _ ≤ size - 1 := hclaimed
  case commitClear p hpc => exact ⟨hpanic, hclaimed, Nat.zero_le _⟩
  case commitWrite p hpc _ | commitNothing p hpc _ => exact ⟨hpanic, Nat.zero_le _, hstored⟩
  case writeOutside p b hpc _ | endCommitting p hpc _ => exact ⟨nofun, hclaimed, hstored⟩
  all_goals exact ⟨hpanic, hclaimed, hstored⟩

theorem eqOutside_writeLog {start nlog k : ℕ} {v : LogMem} (d : Disk)
    (hlen : v.lh.length ≤ nlog - 1) : EqOutside start nlog (writeLog start v d k).durable d := by
  have htriple : Triple (fun w e => w.lh = v.lh ∧ EqOutside start nlog e d) (writeLog start)
      v.lh.length (fun _ w e => w.lh = v.lh ∧ EqOutside start nlog e d)
      fun _ e => EqOutside start nlog e d := by
    refine Triple.bind_volatile fun w ⟨_, hw, _⟩ => ?_
    rw [hw]
    let I : ℕ → LogMem → Disk → Prop := fun _ w e => w.lh = v.lh ∧ EqOutside start nlog e d
    refine Triple.forUpTo (I := I) fun i hi => ?_
    refine triple_bind_bread fun src _ => triple_bwrite.pre fun w e ⟨hlh, he⟩ => ?_
    refine ⟨he, hlh, fun b hb => ?_⟩
    have hne : b ≠ start + i + 1 := by
      rintro rfl
      exact hb ⟨by omega, by omega⟩
    rw [Function.update_of_ne hne]
    exact he b hb
  obtain ⟨hcrash, hdone⟩ := htriple v d ⟨rfl, fun _ _ => rfl⟩ k
  rcases Nat.lt_or_ge k v.lh.length with hk | hk
  · obtain ⟨e, he, heq⟩ := hcrash hk
    rw [he]
    exact heq
  · obtain ⟨_, _, e, he, _, heq⟩ := hdone hk
    rw [he]
    exact heq

/-- **With room at every size test the reservation is sound.** In every run of any number of
processes, on the log that `mkfs` lays out, whose operations stay within `MAXOPBLOCKS` and whose
size tests find room: `log_write` does not panic, the header fits the slots, and `write_log` keeps
within the log. -/
theorem reservation_sound_of_room (h : Run.Reachable (LogState.step stdSuperblock.nlog)
      (fun s a => OpLimit s a ∧ Room stdSuperblock.nlog s a) (· = LogState.init) s) :
    s.panic ≠ some .tooBig ∧ s.lh.length ≤ stdSuperblock.nlog - 1 ∧
      ∀ (v : LogMem) (d : Disk) (k : ℕ), v.lh = s.lh →
        EqOutside stdSuperblock.logstart stdSuperblock.nlog
          (writeLog stdSuperblock.logstart v d k).durable d := by
  have hinv : LogInv s ∧ InRegion stdSuperblock.nlog s := by
    refine h.invariant (I := fun s => LogInv s ∧ InRegion stdSuperblock.nlog s) ?_ ?_
    · rintro _ rfl
      exact ⟨LogInv.init, InRegion.init⟩
    · intro s a s' ⟨hl, hr⟩ ha hs
      obtain ⟨hp, hstep⟩ := LogState.step_sound hs
      exact ⟨hl.step hstep, hr.step hl.header hl.commit (Nat.le_refl _) hp ha.2 hstep⟩
  obtain ⟨-, hr⟩ := hinv
  exact ⟨hr.panic, hr.stored, fun v d k hv => eqOutside_writeLog d (hv ▸ hr.stored)⟩

end Region

theorem reservation_sound_of_room_fillSteps : ∃ s : LogState (Fin 3),
    Run.Reachable (LogState.step stdSuperblock.nlog)
      (fun s a => OpLimit s a ∧ Room stdSuperblock.nlog s a) (· = LogState.init) s ∧
      s.lh.length = stdSuperblock.nlog - 1 ∧ s.panic ≠ some .tooBig := by
  have h₀ : Run.Reachable (LogState.step stdSuperblock.nlog)
      (fun s a => OpLimit s a ∧ Room stdSuperblock.nlog s a) (· = LogState.init)
      (LogState.init : LogState (Fin 3)) := .start rfl
  obtain ⟨s, hr, hs⟩ := h₀.exists_of_exec fillSteps
    (fun s => s.lh.length = stdSuperblock.nlog - 1) (by decide +kernel)
  exact ⟨s, hr, by simpa using hs, (reservation_sound_of_room hr).1⟩

/-! ### Where it fails -/

/-- The third operation logs its tenth block and finds twenty-nine in the header. -/
def fullRun : List (LogAction (Fin 3)) := fillSteps ++ [.logWrite 2 999, .run 2]

/-- Two processes pass the size test when twenty-eight blocks are logged, then both append. -/
def raceRun : List (LogAction (Fin 3)) :=
  beginSteps 0 ++ beginSteps 1 ++ beginSteps 2 ++ logSteps 0 9 ++ logSteps 1 9 ++ logSteps 2 10 ++
    testSteps 0 998 ++ testSteps 1 999 ++ appendSteps 0 ++ appendSteps 1

/-- **The reservation is one block short.** Operations within their limit reach the panic, and, by
the unlocked size test, a header that does not fit the log. -/
theorem reservation_one_short : (∃ s : LogState (Fin 3),
      Run.Reachable (LogState.step stdSuperblock.nlog) OpLimit (· = LogState.init) s ∧
        s.panic = some .tooBig) ∧ ∃ s : LogState (Fin 3),
        Run.Reachable (LogState.step stdSuperblock.nlog) OpLimit (· = LogState.init) s ∧
          s.panic = none ∧ stdSuperblock.nlog - 1 < s.lh.length := by
  have h₀ : Run.Reachable (LogState.step stdSuperblock.nlog) OpLimit (· = LogState.init)
      (LogState.init : LogState (Fin 3)) := .start rfl
  constructor
  · obtain ⟨s, hr, hs⟩ := h₀.exists_of_exec fullRun (fun s => s.panic = some .tooBig)
      (by decide +kernel)
    exact ⟨s, hr, by simpa using hs⟩
  · obtain ⟨s, hr, hs⟩ := h₀.exists_of_exec raceRun
      (fun s => s.panic = none ∧ stdSuperblock.nlog - 1 < s.lh.length) (by decide +kernel)
    exact ⟨s, hr, by simpa using hs⟩

end Xv6
