import Xv6.Lib.Run
import Xv6.Log.CrashAtomicity
import Xv6.Log.Invariant

/-!
# The log as a transactional store

What the log is for, over the whole life of a disk: blocks are changed and logged, transactions
are committed one after the other, the power fails at any block write, inside a commit or inside a
recovery, and the machine is booted again. To the file system all this is a store with two
versions of every block, the current one and the durable one. A commit makes the current version
durable, a power failure makes the durable one current, and a commit cut off by a power failure
does one of the two.

Between commits the memory matters as well: a dirty buffer that a commit leaves behind would be
read in place of the disk. `ends_commit` and `ends_recoverFromLog` say that none is left.
-/

namespace Xv6

open CrashM Function

/-! ### The machine -/

/-- The caller changes the buffer of `b` to `x` and calls `log_write`. The test of
`log.outstanding` is left out: the caller is inside an operation. -/
def logWrite (nlog b : ℕ) (x : Block) (v : LogMem) : Option LogMem :=
  if tooBig nlog v.lh then none else some ⟨logAppend v.lh b, update v.dirty b (some x)⟩

/-- The machine with its memory, or the disk alone. -/
inductive Machine where
  | up (v : LogMem) (d : Disk)
  | down (d : Disk)

def Machine.after : Outcome LogMem Disk Unit → Machine
  | .done _ v d _ => .up v d
  | .crash d => .down d

inductive LifeEvent where
  | write (b : ℕ) (x : Block)
  /-- A commit with enough power for `k` block writes. -/
  | commit (k : ℕ)
  | powerFailure
  /-- A boot with enough power for `k` block writes of the recovery. -/
  | reboot (k : ℕ)

/-- One event in the life of the machine. A panic of `log_write` ends it. -/
def Machine.step (start nlog : ℕ) : Machine → LifeEvent → Option Machine
  | .up v d, .write b x => (logWrite nlog b x v).map fun v' => .up v' d
  | .up v d, .commit k => some (.after (Xv6.commit start v d k))
  | .up _ d, .powerFailure => some (.down d)
  | .down d, .reboot k => some (.after (recoverFromLog start LogMem.boot d k))
  | _, _ => none

/-- The events of a run: only blocks outside the log are logged. -/
def Machine.Step (start nlog : ℕ) (m : Machine) (e : LifeEvent) (m' : Machine) : Prop :=
  m.step start nlog e = some m' ∧ ∀ b x, e = .write b x → ¬ InLog start nlog b ∧ b < 2 ^ 32

/-! ### The store -/

/-- A store with two versions of each block. -/
structure Store where
  powered : Bool
  current : Disk
  durable : Disk

/-- What an event does to a store. -/
inductive Store.Step (s : Store) : LifeEvent → Store → Prop
  | write (b : ℕ) (x : Block) : s.powered = true →
      Step s (.write b x) { s with current := update s.current b x }
  | commit (k : ℕ) (pw : Bool) : s.powered = true → Step s (.commit k) ⟨pw, s.current, s.current⟩
  /-- The power fails before the commit point. -/
  | lost (k : ℕ) : s.powered = true → Step s (.commit k) ⟨false, s.durable, s.durable⟩
  | powerFailure : s.powered = true → Step s .powerFailure ⟨false, s.durable, s.durable⟩
  | reboot (k : ℕ) (pw : Bool) : s.powered = false → Step s (.reboot k) { s with powered := pw }

/-- The machine shows the store: while it is up, every block outside the log reads as in the
store. -/
def Machine.Shows (start nlog : ℕ) (s : Store) : Machine → Prop
  | .up v d => s.powered = true ∧ ∀ b, ¬ InLog start nlog b → (v.dirty b).getD (d b) = s.current b
  | .down _ => s.powered = false

/-! ### The memory after a commit and after a recovery -/

variable {start nlog : ℕ} {T : Transaction start nlog} {v : LogMem} {d d₀ : Disk} {s : Store}

/-- The header names the blocks that may be dirty. -/
structure Pinned (lh : List ℕ) (v : LogMem) : Prop where
  header : v.lh = lh
  clean : ∀ b ∉ lh, v.dirty b = none

theorem Pinned.bwrite {lh : List ℕ} (h : Pinned lh v) (b : ℕ) :
    Pinned lh { v with dirty := update v.dirty b none } := by
  refine ⟨h.header, fun c hc => ?_⟩
  rcases eq_or_ne c b with rfl | hne
  · exact update_self _ _ _
  · exact (update_of_ne hne _ _).trans (h.clean c hc)

theorem eq_boot (h : Pinned [] v) : v = LogMem.boot := by
  obtain ⟨lh, dirty⟩ := v
  obtain ⟨rfl, hd⟩ := h
  exact congrArg _ (funext fun b => hd b List.not_mem_nil)

theorem ends_bread {α : Type} {P Q : LogMem → Prop} {b : ℕ} {f : Block → LogM α}
    (h : ∀ x, Ends P (f x) Q) : Ends P (bread b >>= f) Q :=
  fun _ _ _ _ _ _ _ hP he => h _ hP he

theorem ends_bwrite {P Q : LogMem → Prop} {b : ℕ} {x : Block}
    (h : ∀ v, P v → Q { v with dirty := update v.dirty b none }) : Ends P (bwrite b x) Q := by
  intro v d k a v' d' r hP he
  cases k with
  | zero => cases he
  | succ k =>
    cases he
    exact h v hP

theorem ends_writeHead {lh : List ℕ} : Ends (Pinned lh) (writeHead start) (Pinned lh) :=
  ends_bread fun _ => Ends.bind_volatile fun _ hw => ends_bwrite fun _ hv => hv ▸ hw.bwrite start

theorem ends_writeLog {lh : List ℕ} : Ends (Pinned lh) (writeLog start) (Pinned lh) := by
  refine Ends.bind_volatile fun w hw v d k a v' d' r hv he => ?_
  exact Ends.forUpTo (I := fun _ => Pinned lh)
    (fun i _ => ends_bread fun _ => ends_bwrite fun v h => h.bwrite _) (hv ▸ hw) he

/-- Round `i` of the loop cleans the buffer of block `i`: those of later rounds may be dirty. -/
theorem ends_installTrans {lh : List ℕ} :
    Ends (Pinned lh) (installTrans start) fun v => ∀ b, v.dirty b = none := by
  refine Ends.bind_volatile fun w hw v d k a v' d' r hv he b => ?_
  rw [hw.header] at he
  refine Ends.forUpTo (I := fun i v => ∀ b ∉ lh.drop i, v.dirty b = none) (fun i hi => ?_)
    (fun c hc => hv ▸ hw.clean c hc) he b (by simp)
  refine ends_bread fun _ => ends_bwrite fun v h c hc => ?_
  rcases eq_or_ne c (lh.getD i 0) with rfl | hne
  · exact update_self _ _ _
  · refine (update_of_ne hne _ _).trans (h c fun hm => ?_)
    rw [List.drop_eq_getElem_cons hi, List.mem_cons] at hm
    refine hm.elim (fun heq => hne ?_) hc
    rw [heq, List.getD_eq_getElem?_getD, List.getElem?_eq_getElem hi, Option.getD_some]

/-- The last two lines of `commit` and of `recover_from_log`. -/
theorem ends_clear : Ends (fun v => ∀ b, v.dirty b = none)
    (modifyVolatile (fun v => { v with lh := [] }) >>= fun _ => writeHead start)
    fun v => v = LogMem.boot :=
  (Ends.modifyVolatile fun _ hv => ⟨rfl, fun b _ => hv b⟩).bind fun _ _ _ _ _ _ _ _ hv he =>
    eq_boot (ends_writeHead hv he)

/-- **After a commit nothing is dirty** and the header is empty. -/
theorem ends_commit {lh : List ℕ} : Ends (Pinned lh) (commit start) fun v => v = LogMem.boot := by
  refine Ends.bind_volatile fun w hw v d k a v' d' r hv he => ?_
  split at he
  case isTrue =>
    exact ends_writeLog.bind (fun _ => ends_writeHead.bind fun _ =>
      ends_installTrans.bind fun _ => ends_clear) (hv ▸ hw) he
  case isFalse hlen =>
    cases he
    have hnil : lh = [] := by
      rw [← hw.header]
      exact List.eq_nil_of_length_eq_zero (by omega)
    exact eq_boot (hv ▸ hnil ▸ hw)

theorem ends_recoverFromLog :
    Ends (· = LogMem.boot) (recoverFromLog start) fun v => v = LogMem.boot := by
  refine Ends.bind (R := fun v => ∀ b, v.dirty b = none) ?_ fun _ => ?_
  · exact ends_bread fun _ => Ends.modifyVolatile fun v hv b => by rw [hv]; rfl
  intro v d k a v' d' r hv he
  have hp : Pinned v.lh v := ⟨rfl, fun b _ => hv b⟩
  exact ends_installTrans.bind (fun _ => ends_clear) hp he

/-! ### Refinement -/

/-- How the machine holds a store. While it is up, the header is clear and the transaction in
memory leads from the durable version to the current one; without power, the disk is clear or a
transaction is committed on it that recovery will install. -/
def Machine.Refines (start nlog : ℕ) (s : Store) : Machine → Prop
  | .up v d => s.powered = true ∧ Cleared start nlog s.durable d ∧
      ∃ T : Transaction start nlog, Ready T v d ∧ Pinned T.blocks v ∧
        s.current = T.install s.durable
  | .down d => s.powered = false ∧ s.current = s.durable ∧ (Cleared start nlog s.durable d ∨
      ∃ (T : Transaction start nlog) (d₁ : Disk), Committed T d₁ d ∧ s.durable = T.install d₁)

theorem refines_boot (hn : 0 < nlog) (h : Cleared start nlog d₀ d) :
    (Machine.up LogMem.boot d).Refines start nlog ⟨true, d₀, d₀⟩ := by
  let T : Transaction start nlog := ⟨[], fun _ => zeroBlock, by simp, by simp, by simp, hn, by simp⟩
  refine ⟨rfl, h, T, ⟨⟨rfl, fun _ _ => rfl⟩, fun b hb => absurd hb List.not_mem_nil⟩,
    ⟨rfl, fun _ _ => rfl⟩, ?_⟩
  exact (Transaction.install_of_length_zero (T := T) rfl).symm

theorem length_logAppend_le (lh : List ℕ) (b : ℕ) : (logAppend lh b).length ≤ lh.length + 1 := by
  rw [logAppend_eq]
  split <;> simp

theorem mem_logAppend {lh : List ℕ} {b c : ℕ} : c ∈ logAppend lh b ↔ c = b ∨ c ∈ lh := by
  rw [logAppend_eq]
  split <;> grind

/-- The transaction with one more block, or with new contents of one of its blocks. -/
def Transaction.write (T : Transaction start nlog) (b : ℕ) (x : Block)
    (hb : ¬ InLog start nlog b ∧ b < 2 ^ 32) (hsize : tooBig nlog T.blocks = false) :
    Transaction start nlog where
  blocks := logAppend T.blocks b
  data := update T.data b x
  nodup := nodup_logAppend T.nodup b
  outside c hc := (mem_logAppend.mp hc).elim (fun h => h ▸ hb.1) (T.outside c)
  lt_uint c hc := (mem_logAppend.mp hc).elim (fun h => h ▸ hb.2) (T.lt_uint c)
  fits_log := by
    have := length_logAppend_le T.blocks b
    simp only [tooBig, Bool.or_eq_false_iff, decide_eq_false_iff_not] at hsize
    omega
  fits_header := by
    have := length_logAppend_le T.blocks b
    simp only [tooBig, Bool.or_eq_false_iff, decide_eq_false_iff_not] at hsize
    omega

theorem Machine.Refines.write {b : ℕ} {x : Block} (h : (Machine.up v d).Refines start nlog s)
    (hb : ¬ InLog start nlog b ∧ b < 2 ^ 32) {v' : LogMem} (hv : logWrite nlog b x v = some v') :
    (Machine.up v' d).Refines start nlog { s with current := update s.current b x } := by
  obtain ⟨hon, hc, T, hr, hp, hcur⟩ := h
  rw [logWrite, hp.header] at hv
  split at hv
  case isTrue => cases hv
  case isFalse hsize =>
  cases hv
  have hne : ∀ c, c ≠ b → update v.dirty b (some x) c = v.dirty c := fun c h => update_of_ne h _ _
  refine ⟨hon, hc, T.write b x hb (Bool.eq_false_iff.mpr hsize), ⟨⟨rfl, fun c hc => ?_⟩,
    fun c hc => ?_⟩, ⟨rfl, fun c hc => ?_⟩, funext fun c => ?_⟩
  · exact (hne c fun h => hb.1 (h ▸ hc)).trans (hr.header.clean c hc)
  · rcases eq_or_ne c b with rfl | h
    · simp [Transaction.write]
    · simp only [Transaction.write, update_of_ne h]
      exact hr.cached c ((mem_logAppend.mp hc).resolve_left h)
  · rw [Transaction.write, mem_logAppend, not_or] at hc
    exact (hne c hc.1).trans (hp.clean c hc.2)
  · rcases eq_or_ne c b with rfl | h
    · simp [Transaction.install, Transaction.write, mem_logAppend]
    · simp [Transaction.install, Transaction.write, mem_logAppend, h, hcur]

theorem Machine.Refines.commit (h : (Machine.up v d).Refines start nlog s) (k : ℕ) :
    ∃ s', s.Step (.commit k) s' ∧
      (Machine.after (Xv6.commit start v d k)).Refines start nlog s' := by
  obtain ⟨hon, hc, T, hr, hp, hcur⟩ := h
  have hn : 0 < nlog := Nat.zero_lt_of_lt T.fits_log
  rcases Nat.eq_zero_or_pos T.blocks.length with hT | hT
  · have hrun : Xv6.commit start v d k = .done () v d k := by
      simp only [Xv6.commit, bind_apply, volatile, hr.header.lh, hT]
      rfl
    refine ⟨_, .commit k true hon, ?_⟩
    have hv := ends_commit hp hrun
    rw [hcur, Transaction.install_of_length_zero hT, hrun, hv]
    exact refines_boot hn hc
  obtain ⟨hcrash, hdone⟩ := triple_commit hT v d ⟨hr, hc⟩ k
  rcases Nat.lt_or_ge k (T.blocks.length + (1 + (T.blocks.length + 1))) with hk | hk
  · obtain ⟨d', he, hd'⟩ := hcrash hk
    rw [he]
    split at hd'
    case isTrue => exact ⟨_, .lost k hon, rfl, rfl, Or.inl hd'⟩
    case isFalse => exact ⟨_, .commit k false hon, rfl, rfl, Or.inr ⟨T, s.durable, hd', hcur⟩⟩
  · obtain ⟨_, v', d', he, hd'⟩ := hdone hk
    have hv := ends_commit hp he
    refine ⟨_, .commit k true hon, ?_⟩
    rw [he, hv, hcur]
    exact refines_boot hn hd'

theorem Machine.Refines.reboot (hn : 0 < nlog) (h : (Machine.down d).Refines start nlog s)
    (k : ℕ) : ∃ s', s.Step (.reboot k) s' ∧
      (Machine.after (recoverFromLog start LogMem.boot d k)).Refines start nlog s' := by
  obtain ⟨hoff, hcur, hd⟩ := h
  have hup : ∀ {v' d' r}, recoverFromLog start LogMem.boot d k = .done () v' d' r →
      Cleared start nlog s.durable d' → ∃ s', s.Step (.reboot k) s' ∧
        (Machine.after (recoverFromLog start LogMem.boot d k)).Refines start nlog s' := by
    intro v' d' r he hd'
    have hv := ends_recoverFromLog rfl he
    refine ⟨_, .reboot k true hoff, ?_⟩
    rw [he, hv, hcur]
    exact refines_boot hn hd'
  rcases hd with hd | ⟨T, d₁, hd, hdur⟩
  · obtain ⟨hcrash, hdone⟩ := triple_recoverFromLog_cleared hn LogMem.boot d ⟨rfl, hd⟩ k
    rcases Nat.lt_or_ge k 1 with hk | hk
    · obtain ⟨d', he, hd'⟩ := hcrash hk
      exact ⟨_, .reboot k false hoff, he ▸ ⟨rfl, hcur, Or.inl hd'⟩⟩
    · obtain ⟨_, v', d', he, hd'⟩ := hdone hk
      exact hup he hd'
  · obtain ⟨hcrash, hdone⟩ := triple_recoverFromLog_committed LogMem.boot d ⟨rfl, hd⟩ k
    rcases Nat.lt_or_ge k (T.blocks.length + 1) with hk | hk
    · obtain ⟨d', he, hd'⟩ := hcrash hk
      exact ⟨_, .reboot k false hoff, he ▸ ⟨rfl, hcur, Or.inr ⟨T, d₁, hd', hdur⟩⟩⟩
    · obtain ⟨_, v', d', he, hd'⟩ := hdone hk
      exact hup he (hdur ▸ hd')

/-- One event of the machine is one of the store. -/
theorem Machine.Refines.step {m m' : Machine} {e : LifeEvent} (hn : 0 < nlog)
    (h : m.Refines start nlog s) (hstep : m.Step start nlog e m') :
    ∃ s', s.Step e s' ∧ m'.Refines start nlog s' := by
  obtain ⟨hs, hb⟩ := hstep
  cases m with
  | up v d =>
    cases e with
    | write b x =>
      obtain ⟨v', hv, rfl⟩ := Option.map_eq_some_iff.mp hs
      exact ⟨_, .write b x h.1, h.write (hb b x rfl) hv⟩
    | commit k =>
      cases hs
      exact h.commit k
    | powerFailure =>
      cases hs
      exact ⟨_, .powerFailure h.1, rfl, rfl, Or.inl h.2.1⟩
    | reboot k => cases hs
  | down d =>
    cases e with
    | reboot k =>
      cases hs
      exact h.reboot hn k
    | write b x => cases hs
    | commit k => cases hs
    | powerFailure => cases hs

theorem Machine.Refines.shows {m : Machine} (h : m.Refines start nlog s) :
    m.Shows start nlog s := by
  cases m with
  | down d => exact h.1
  | up v d =>
  obtain ⟨hon, hc, T, hr, hp, hcur⟩ := h
  refine ⟨hon, fun b hb => ?_⟩
  rw [hcur, Transaction.install]
  split
  case isTrue hm => exact hr.cached b hm
  case isFalse hm =>
    rw [hp.clean b hm]
    exact hc.home b hb

/-- **The log is a transactional store.** Let a machine be booted on a disk with a clear log
header, and let writes, commits, power failures and reboots happen in any order, the power lasting
for any number of block writes each time. The same events take a store with a current and a durable
version of each block to a state that the machine shows. -/
theorem log_refines_store (start nlog : ℕ) (hn : 0 < nlog) (d₀ : Disk)
    (h₀ : headN (d₀ start) = 0) (events : List LifeEvent) (m : Machine)
    (h : Run.Steps (Machine.Step start nlog) (.down d₀) events m) :
    ∃ s, Run.Steps Store.Step ⟨false, d₀, d₀⟩ events s ∧ m.Shows start nlog s := by
  have hinit : (Machine.down d₀).Refines start nlog ⟨false, d₀, d₀⟩ :=
    ⟨rfl, rfl, Or.inl ⟨h₀, fun _ _ => rfl⟩⟩
  obtain ⟨s, hs, hr⟩ := h.simulate (R := fun m s => m.Refines start nlog s)
    (fun hr he => hr.step hn he) hinit
  exact ⟨s, hs, hr.shows⟩

/-- Boot, log one block, lose power between the header and the home block, and boot again. -/
theorem log_refines_store_cut : ∃ m s,
    Run.Steps (Machine.Step 2 LOGSIZE) (.down fun _ => zeroBlock)
      [.reboot 1, .write 60 fun _ => 7, .commit 2, .reboot 9] m ∧
    Run.Steps Store.Step ⟨false, fun _ => zeroBlock, fun _ => zeroBlock⟩
      [.reboot 1, .write 60 fun _ => 7, .commit 2, .reboot 9] s ∧ m.Shows 2 LOGSIZE s := by
  have hwrite : ∀ b x, LifeEvent.write 60 (fun _ => 7) = .write b x →
      ¬ InLog 2 LOGSIZE b ∧ b < 2 ^ 32 := by
    rintro _ _ ⟨⟩
    exact ⟨fun h => absurd h.2 (by decide), by decide⟩
  have hcons : ∀ {m m' e es}, Machine.Step 2 LOGSIZE m e m' →
      (∃ m'', Run.Steps (Machine.Step 2 LOGSIZE) m' es m'') →
      ∃ m'', Run.Steps (Machine.Step 2 LOGSIZE) m (e :: es) m'' :=
    fun h ⟨m, hm⟩ => ⟨m, .cons h hm⟩
  obtain ⟨m, hrun⟩ : ∃ m, Run.Steps (Machine.Step 2 LOGSIZE) (.down fun _ => zeroBlock)
      [.reboot 1, .write 60 fun _ => 7, .commit 2, .reboot 9] m := by
    refine hcons ⟨rfl, nofun⟩ ?_
    refine hcons ⟨rfl, hwrite⟩ ?_
    refine hcons ⟨rfl, nofun⟩ ?_
    exact hcons ⟨rfl, nofun⟩ ⟨_, .nil⟩
  obtain ⟨s, hs⟩ := log_refines_store 2 LOGSIZE (by decide) _ rfl _ m hrun
  exact ⟨m, s, hrun, hs⟩

end Xv6
