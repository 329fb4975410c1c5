import Xv6.Log.Recovery

/-!
# Crash atomicity of the log

A transaction is on the disk entirely or not at all, whenever the power fails: at any of the
`2n + 2` block writes of `commit`, and then again at any write of any number of recoveries.

The argument needs two predicates on the disk. `Cleared` says that the header is empty and the
blocks outside the log are those of a given disk; `Committed` says that the header names the
transaction and the log slots hold its contents, and says nothing about the home blocks, some of
which may have been installed already. `commit` goes from `Cleared` to `Committed` at its first
`writeHead` and back to `Cleared`, of the new state, at its second; recovery keeps `Cleared` and
takes `Committed` to `Cleared` of the new state, crashing only inside the predicate it started
from. That last point is why repeated crashes are harmless.
-/

namespace Xv6

open CrashM Function

/-- Block `b` belongs to the log: the header block or one of the slots after it. -/
def InLog (start nlog b : ℕ) : Prop := start ≤ b ∧ b < start + nlog

/-- A transaction: distinct home blocks outside the log, few enough for the slots behind the
header block and for the array in `struct logheader`, with their new contents. -/
structure Transaction (start nlog : ℕ) where
  /-- The home block numbers, in the order they were logged. -/
  blocks : List ℕ
  data : ℕ → Block
  nodup : blocks.Nodup
  outside : ∀ b ∈ blocks, ¬ InLog start nlog b
  lt_uint : ∀ b ∈ blocks, b < 2 ^ 32
  fits_log : blocks.length < nlog
  fits_header : blocks.length ≤ LOGSIZE

/-- The disk with every block of the transaction installed. -/
def Transaction.install {start nlog : ℕ} (T : Transaction start nlog) (d : Disk) : Disk :=
  fun b => if b ∈ T.blocks then T.data b else d b

def EqOutside (start nlog : ℕ) (d d' : Disk) : Prop := ∀ b, ¬ InLog start nlog b → d b = d' b

/-- The header is empty, and outside the log the disk is `d₀`. -/
structure Cleared (start nlog : ℕ) (d₀ d : Disk) : Prop where
  head : headN (d start) = 0
  home : EqOutside start nlog d d₀

/-- The header and the slots hold the transaction; home blocks of other numbers are those
of `d₀`. -/
structure Committed {start nlog : ℕ} (T : Transaction start nlog) (d₀ d : Disk) : Prop where
  head : headBlocks (d start) = T.blocks
  slots : ∀ i < T.blocks.length, d (start + i + 1) = T.data (T.blocks.getD i 0)
  home : ∀ b, ¬ InLog start nlog b → b ∉ T.blocks → d b = d₀ b

/-- Memory with the given in-memory header and no dirty buffer for a block of the log. -/
structure HeaderIs (start nlog : ℕ) (lh : List ℕ) (v : LogMem) : Prop where
  lh : v.lh = lh
  clean : ∀ b, InLog start nlog b → v.dirty b = none

/-- What `log_write` has prepared when `commit` is called: the header names the transaction, the
cached contents of its blocks are the new ones, and no block of the log is dirty. -/
structure Ready {start nlog : ℕ} (T : Transaction start nlog) (v : LogMem) (d : Disk) : Prop where
  header : HeaderIs start nlog T.blocks v
  cached : ∀ b ∈ T.blocks, (v.dirty b).getD (d b) = T.data b

variable {start nlog : ℕ} {T : Transaction start nlog} {d₀ d : Disk} {v : LogMem}

/-! ### Writes outside and inside the log -/

theorem getD_mem {l : List ℕ} {i : ℕ} (h : i < l.length) : l.getD i 0 ∈ l := by
  rw [List.getD_eq_getElem?_getD, List.getElem?_eq_getElem h, Option.getD_some]
  exact List.getElem_mem h

theorem inLog_start (h : 0 < nlog) : InLog start nlog start := ⟨Nat.le_refl _, by omega⟩

theorem inLog_slot {i : ℕ} (h : i < T.blocks.length) : InLog start nlog (start + i + 1) :=
  ⟨by omega, by have := T.fits_log; omega⟩

theorem home_ne_inLog {i b : ℕ} (hi : i < T.blocks.length) (hb : InLog start nlog b) :
    b ≠ T.blocks.getD i 0 := by
  rintro rfl
  exact T.outside _ (getD_mem hi) hb

theorem HeaderIs.bread_eq {lh : List ℕ} (h : HeaderIs start nlog lh v) {b : ℕ}
    (hb : InLog start nlog b) : (v.dirty b).getD (d b) = d b := by
  rw [h.clean b hb, Option.getD_none]

theorem HeaderIs.bwrite {lh : List ℕ} (h : HeaderIs start nlog lh v) (b : ℕ) :
    HeaderIs start nlog lh { v with dirty := update v.dirty b none } := by
  refine ⟨h.lh, fun c hc => ?_⟩
  rcases eq_or_ne c b with rfl | hne
  · exact update_self _ _ _
  · exact (update_of_ne hne _ _).trans (h.clean c hc)

theorem Cleared.update_slot (h : Cleared start nlog d₀ d) {b : ℕ} (hb : InLog start nlog b)
    (hne : b ≠ start) (x : Block) : Cleared start nlog d₀ (update d b x) := by
  refine ⟨by rw [update_of_ne hne.symm]; exact h.head, fun c hc => ?_⟩
  rw [update_of_ne (by rintro rfl; exact hc hb)]
  exact h.home c hc

theorem headN_putHead_nil (b : Block) : headN (putHead b []) = 0 := by
  refine headN_of_lt (n := 0) ?_ (by norm_num)
  exact getWord_setWord_self (by decide) (by norm_num)

theorem Cleared.of_putHead_nil (hn : 0 < nlog) (h : EqOutside start nlog d d₀) (b : Block) :
    Cleared start nlog d₀ (update d start (putHead b [])) := by
  refine ⟨by rw [update_self]; exact headN_putHead_nil b, fun c hc => ?_⟩
  rw [update_of_ne (by rintro rfl; exact hc (inLog_start hn))]
  exact h c hc

theorem Committed.update_home (h : Committed T d₀ d) {i : ℕ} (hi : i < T.blocks.length)
    (x : Block) : Committed T d₀ (update d (T.blocks.getD i 0) x) := by
  have hstart : 0 < nlog := by have := T.fits_log; omega
  refine ⟨?_, fun j hj => ?_, fun b hb hbT => ?_⟩
  · rw [update_of_ne (home_ne_inLog hi (inLog_start hstart))]
    exact h.head
  · rw [update_of_ne (home_ne_inLog hi (inLog_slot hj))]
    exact h.slots j hj
  · rw [update_of_ne (by rintro rfl; exact hbT (getD_mem hi))]
    exact h.home b hb hbT

theorem Committed.eqOutside_install (h : Committed T d₀ d)
    (hall : ∀ i < T.blocks.length, d (T.blocks.getD i 0) = T.data (T.blocks.getD i 0)) :
    EqOutside start nlog d (T.install d₀) := by
  intro b hb
  by_cases hbT : b ∈ T.blocks
  · obtain ⟨i, hi, rfl⟩ := List.getElem_of_mem hbT
    have hval := hall i hi
    rw [List.getD_eq_getElem?_getD, List.getElem?_eq_getElem hi, Option.getD_some] at hval
    rw [Transaction.install, if_pos hbT, hval]
  · rw [Transaction.install, if_neg hbT]
    exact h.home b hb hbT

/-! ### The functions of the log -/

/-- The last two steps of recovery and of a commit. -/
theorem triple_clearHead {lh : List ℕ} {C : ℕ → Disk → Prop} (hn : 0 < nlog) :
    Triple (fun v d => HeaderIs start nlog lh v ∧ C 0 d ∧ EqOutside start nlog d d₀)
      (do modifyVolatile fun v => { v with lh := [] }; writeHead start) 1
      (fun _ _ d => Cleared start nlog d₀ d) C := by
  refine Triple.bind_zero (R := fun _ v d => HeaderIs start nlog [] v ∧ C 0 d ∧
    EqOutside start nlog d d₀) ?_ fun _ => ?_
  · exact Triple.modifyVolatile.pre fun v d ⟨hv, hd⟩ => ⟨⟨rfl, hv.clean⟩, hd⟩
  refine triple_bind_bread fun buf _ => Triple.bind_volatile fun w ⟨_, hw⟩ => ?_
  refine triple_bwrite.pre fun v d ⟨hv, hc, hd⟩ => ?_
  rw [hw.1.lh]
  exact ⟨hc, Cleared.of_putHead_nil hn hd buf⟩

theorem triple_installTrans :
    Triple (fun v d => HeaderIs start nlog T.blocks v ∧ Committed T d₀ d) (installTrans start)
      T.blocks.length (fun _ v d => HeaderIs start nlog T.blocks v ∧ Committed T d₀ d ∧
        EqOutside start nlog d (T.install d₀)) fun _ => Committed T d₀ := by
  refine Triple.bind_volatile fun w ⟨_, hw⟩ => ?_
  rw [hw.1.lh]
  let I : ℕ → LogMem → Disk → Prop := fun i v d => HeaderIs start nlog T.blocks v ∧
    Committed T d₀ d ∧ ∀ j < i, d (T.blocks.getD j 0) = T.data (T.blocks.getD j 0)
  refine (Triple.forUpTo (I := I) fun i hi => ?_).conseq ?_ ?_ fun _ _ _ h => h
  · refine triple_bind_bread fun lbuf ⟨v₁, d₁, ⟨hv₁, hd₁, _⟩, hl⟩ => ?_
    rw [hv₁.bread_eq (inLog_slot hi), hd₁.slots i hi] at hl
    subst hl
    refine triple_bwrite.pre fun v d ⟨hv, hd, hdone⟩ => ?_
    refine ⟨hd, hv.bwrite _, hd.update_home hi _, fun j hj => ?_⟩
    by_cases hji : T.blocks.getD j 0 = T.blocks.getD i 0
    · rw [hji, update_self]
    rw [update_of_ne hji]
    refine hdone j (Nat.lt_of_le_of_ne (Nat.le_of_lt_succ hj) ?_)
    rintro rfl
    exact hji rfl
  · exact fun v d h => ⟨h.1, h.2, fun j hj => absurd hj (Nat.not_lt_zero j)⟩
  · exact fun _ v d h => ⟨h.1, h.2.1, h.2.1.eqOutside_install h.2.2⟩

theorem triple_writeLog :
    Triple (fun v d => Ready T v d ∧ Cleared start nlog d₀ d) (writeLog start) T.blocks.length
      (fun _ v d => HeaderIs start nlog T.blocks v ∧ Cleared start nlog d₀ d ∧
        ∀ i < T.blocks.length, d (start + i + 1) = T.data (T.blocks.getD i 0))
      fun _ => Cleared start nlog d₀ := by
  refine Triple.bind_volatile fun w ⟨_, hw⟩ => ?_
  rw [hw.1.header.lh]
  let I : ℕ → LogMem → Disk → Prop := fun i v d => Ready T v d ∧ Cleared start nlog d₀ d ∧
    ∀ j < i, d (start + j + 1) = T.data (T.blocks.getD j 0)
  refine (Triple.forUpTo (I := I) fun i hi => ?_).conseq ?_ ?_ fun _ _ _ h => h
  · refine triple_bind_bread fun src ⟨v₁, d₁, ⟨hr₁, _, _⟩, hs⟩ => ?_
    rw [hr₁.cached _ (getD_mem hi)] at hs
    subst hs
    refine triple_bwrite.pre fun v d ⟨hr, hd, hdone⟩ => ?_
    refine ⟨hd, ⟨hr.header.bwrite _, fun b hb => ?_⟩,
      hd.update_slot (inLog_slot hi) (by omega) _, fun j hj => ?_⟩
    · have hne : b ≠ start + i + 1 := by
        rintro rfl
        exact T.outside _ hb (inLog_slot hi)
      simp only [update_of_ne hne]
      exact hr.cached b hb
    · rcases eq_or_ne j i with rfl | hji
      · rw [update_self]
      · rw [update_of_ne (by omega)]
        exact hdone j (by omega)
  · exact fun v d h => ⟨h.1, h.2, fun j hj => absurd hj (Nat.not_lt_zero j)⟩
  · exact fun _ v d h => ⟨h.1.header, h.2⟩

theorem triple_writeHead_commit :
    Triple (fun v d => HeaderIs start nlog T.blocks v ∧ Cleared start nlog d₀ d ∧
        ∀ i < T.blocks.length, d (start + i + 1) = T.data (T.blocks.getD i 0))
      (writeHead start) 1 (fun _ v d => HeaderIs start nlog T.blocks v ∧ Committed T d₀ d)
      fun _ => Cleared start nlog d₀ := by
  refine triple_bind_bread fun buf _ => Triple.bind_volatile fun w ⟨_, hw⟩ => ?_
  refine triple_bwrite.pre fun v d ⟨hv, hd, hslots⟩ => ?_
  rw [hw.1.lh]
  have hstart : InLog start nlog start := inLog_start (by have := T.fits_log; omega)
  have hlen : T.blocks.length < NINDIRECT := Nat.lt_of_le_of_lt T.fits_header (by decide)
  refine ⟨hd, hv.bwrite start, ⟨?_, fun i hi => ?_, fun b hb _ => ?_⟩⟩
  · rw [update_self]
    exact headBlocks_putHead hlen T.lt_uint
  · rw [update_of_ne (by omega)]
    exact hslots i hi
  · rw [update_of_ne (by rintro rfl; exact hb hstart)]
    exact hd.home b hb

/-! ### Recovery -/

theorem triple_readHead (start nlog : ℕ) {lh : List ℕ} {D : Disk → Prop} {C : ℕ → Disk → Prop}
    (hD : ∀ d, D d → headBlocks (d start) = lh) :
    Triple (fun v d => v = LogMem.boot ∧ D d) (readHead start) 0
      (fun _ v d => HeaderIs start nlog lh v ∧ D d) C := by
  refine triple_bind_bread fun buf ⟨v₁, d₁, ⟨hv₁, hd₁⟩, hbuf⟩ => ?_
  have hlh : headBlocks buf = lh := by
    rw [← hbuf, hv₁]
    exact hD d₁ hd₁
  exact Triple.modifyVolatile.pre fun v d ⟨hv, hd⟩ => ⟨⟨hlh, fun b _ => by rw [hv]; rfl⟩, hd⟩

theorem triple_recoverFromLog_cleared (hn : 0 < nlog) :
    Triple (fun v d => v = LogMem.boot ∧ Cleared start nlog d₀ d) (recoverFromLog start) 1
      (fun _ _ d => Cleared start nlog d₀ d) fun _ => Cleared start nlog d₀ := by
  refine Triple.bind_zero (triple_readHead start nlog
    fun d hd => headBlocks_eq_nil (Int.le_of_eq hd.head)) fun _ => ?_
  refine Triple.bind_zero (R := fun _ v d => HeaderIs start nlog [] v ∧
    Cleared start nlog d₀ d) ?_ fun _ => ?_
  · refine Triple.bind_volatile fun w ⟨_, hw⟩ => ?_
    rw [hw.1.lh]
    exact Triple.pure (a := ()) (Q := fun _ v d => HeaderIs start nlog [] v ∧
      Cleared start nlog d₀ d)
  exact (triple_clearHead hn).pre fun v d ⟨hv, hd⟩ => ⟨hv, hd, hd.home⟩

/-- Recovery of a committed disk installs the whole transaction, and a crash before its last
write leaves a committed disk: recovery is idempotent. -/
theorem triple_recoverFromLog_committed :
    Triple (fun v d => v = LogMem.boot ∧ Committed T d₀ d) (recoverFromLog start)
      (T.blocks.length + 1) (fun _ _ d => Cleared start nlog (T.install d₀) d)
      fun _ => Committed T d₀ := by
  have hn : 0 < nlog := by have := T.fits_log; omega
  refine Triple.bind_zero (triple_readHead start nlog fun d hd => hd.head) fun _ => ?_
  exact Triple.bind triple_installTrans fun _ =>
    triple_clearHead (C := fun _ => Committed T d₀) hn

/-! ### Commit -/

theorem triple_commit (hT : 0 < T.blocks.length) :
    Triple (fun v d => Ready T v d ∧ Cleared start nlog d₀ d) (commit start)
      (T.blocks.length + (1 + (T.blocks.length + 1)))
      (fun _ _ d => Cleared start nlog (T.install d₀) d)
      fun k d => if k ≤ T.blocks.length then Cleared start nlog d₀ d else Committed T d₀ d := by
  have hn : 0 < nlog := by have := T.fits_log; omega
  refine Triple.bind_volatile fun w ⟨_, hw⟩ => ?_
  rw [hw.1.header.lh, if_pos hT]
  refine Triple.bind (triple_writeLog.conseq (fun _ _ h => h) (fun _ _ _ h => h)
    fun k hk d hd => by rwa [if_pos (by omega)]) fun _ => ?_
  refine Triple.bind (triple_writeHead_commit.conseq (fun _ _ h => h) (fun _ _ _ h => h)
    fun k hk d hd => by rwa [if_pos (by omega)]) fun _ => ?_
  refine Triple.bind (triple_installTrans.conseq (fun _ _ h => h) (fun _ _ _ h => h)
    fun k hk d hd => by rwa [if_neg (by omega)]) fun _ => ?_
  exact (triple_clearHead hn).pre fun v d ⟨hv, hd, hi⟩ => ⟨hv, by rwa [if_neg (by omega)], hi⟩

theorem Transaction.install_of_length_zero (hT : T.blocks.length = 0) : T.install d₀ = d₀ := by
  funext b
  rw [Transaction.install, List.length_eq_zero_iff.mp hT]
  exact if_neg List.not_mem_nil

theorem durable_commit (hr : Ready T v d₀) (h₀ : headN (d₀ start) = 0) (k : ℕ) :
    (k ≤ T.blocks.length ∧ Cleared start nlog d₀ (commit start v d₀ k).durable) ∨
      Committed T d₀ (commit start v d₀ k).durable ∨
        Cleared start nlog (T.install d₀) (commit start v d₀ k).durable := by
  have hc : Cleared start nlog d₀ d₀ := ⟨h₀, fun _ _ => rfl⟩
  rcases Nat.eq_zero_or_pos T.blocks.length with hT | hT
  · have hrun : commit start v d₀ k = .done () v d₀ k := by
      simp only [commit, bind_apply, volatile, hr.header.lh, hT]
      rfl
    rw [hrun, Transaction.install_of_length_zero hT]
    exact Or.inr (Or.inr hc)
  obtain ⟨hcrash, hdone⟩ := triple_commit hT v d₀ ⟨hr, hc⟩ k
  rcases Nat.lt_or_ge k (T.blocks.length + (1 + (T.blocks.length + 1))) with hk | hk
  · obtain ⟨d', he, hd'⟩ := hcrash hk
    rw [he]
    by_cases hle : k ≤ T.blocks.length
    · rw [if_pos hle] at hd'
      exact Or.inl ⟨hle, hd'⟩
    · rw [if_neg hle] at hd'
      exact Or.inr (Or.inl hd')
  · obtain ⟨_, v', d', he, hd'⟩ := hdone hk
    rw [he]
    exact Or.inr (Or.inr hd')

/-! ### Repeated crashes -/

/-- The disks that any number of reboots can leave, each of them cut off inside recovery. -/
inductive Reboots (start : ℕ) (d : Disk) : Disk → Prop
  | none : Reboots start d d
  | crash {d₁ d₂ : Disk} {k : ℕ} : Reboots start d d₁ →
      recoverFromLog start LogMem.boot d₁ k = .crash d₂ → Reboots start d d₂

theorem Reboots.invariant {D : Disk → Prop} {Q : Unit → LogMem → Disk → Prop} {m : ℕ}
    (h : Triple (fun v d => v = LogMem.boot ∧ D d) (recoverFromLog start) m Q fun _ => D)
    {d' : Disk} (hr : Reboots start d d') (hd : D d) : D d' := by
  induction hr with
  | none => exact hd
  | @crash d₁ d₂ k _ he ih =>
  obtain ⟨hcrash, hdone⟩ := h LogMem.boot d₁ ⟨rfl, ih⟩ k
  rcases Nat.lt_or_ge k m with hk | hk
  · obtain ⟨d₃, he', hd₃⟩ := hcrash hk
    rw [he] at he'
    cases he'
    exact hd₃
  · obtain ⟨_, _, _, he', _⟩ := hdone hk
    rw [he] at he'
    cases he'

/-- **Crash atomicity.** From a disk with a cleared header, commit a transaction and let the power
fail after `k` block writes, then any number of times inside recovery. Given enough writes, the
next recovery finishes, and outside the log the disk is the one before the transaction or the one
with all of it installed; it is the latter once the first `writeHead`, which is write number
`n + 1`, has been performed. -/
theorem crash_atomic (T : Transaction start nlog) (hr : Ready T v d₀)
    (h₀ : headN (d₀ start) = 0) (k : ℕ) (hd : Reboots start (commit start v d₀ k).durable d) :
    ∃ m, ∀ K, m ≤ K → ∃ v' d', recoverFromLog start LogMem.boot d K = .done () v' d' (K - m) ∧
      (EqOutside start nlog d' d₀ ∨ EqOutside start nlog d' (T.install d₀)) ∧
      (T.blocks.length < k → EqOutside start nlog d' (T.install d₀)) := by
  have hn : 0 < nlog := by have := T.fits_log; omega
  rcases durable_commit hr h₀ k with ⟨hk, hc⟩ | hc | hc
  · have hd' := hd.invariant (triple_recoverFromLog_cleared hn) hc
    refine ⟨1, fun K hK => ?_⟩
    obtain ⟨_, v', d', he, hd''⟩ :=
      (triple_recoverFromLog_cleared hn LogMem.boot d ⟨rfl, hd'⟩ K).2 hK
    exact ⟨v', d', he, Or.inl hd''.home, fun hlt => absurd hlt (by omega)⟩
  · have hd' := hd.invariant triple_recoverFromLog_committed hc
    refine ⟨T.blocks.length + 1, fun K hK => ?_⟩
    obtain ⟨_, v', d', he, hd''⟩ :=
      (triple_recoverFromLog_committed LogMem.boot d ⟨rfl, hd'⟩ K).2 hK
    exact ⟨v', d', he, Or.inr hd''.home, fun _ => hd''.home⟩
  have hd' := hd.invariant (triple_recoverFromLog_cleared hn) hc
  refine ⟨1, fun K hK => ?_⟩
  obtain ⟨_, v', d', he, hd''⟩ :=
    (triple_recoverFromLog_cleared hn LogMem.boot d ⟨rfl, hd'⟩ K).2 hK
  exact ⟨v', d', he, Or.inr hd''.home, fun _ => hd''.home⟩

/-- One block, on the disk `mkfs` lays out. -/
def oneBlockTransaction : Transaction 2 LOGSIZE where
  blocks := [60]
  data := fun _ _ => 7
  nodup := by decide
  outside := by simp [InLog, LOGSIZE, MAXOPBLOCKS]
  lt_uint := by simp
  fits_log := by decide
  fits_header := by decide

/-- The power fails after the slot and the header are written: the block is installed. -/
theorem crash_atomic_oneBlock : ∃ m, ∀ K, m ≤ K → ∃ v' d', recoverFromLog 2 LogMem.boot
        (commit 2 ⟨[60], fun b => if b = 60 then some fun _ => 7 else none⟩
          (fun _ => zeroBlock) 2).durable K = .done () v' d' (K - m) ∧
      (EqOutside 2 LOGSIZE d' (fun _ => zeroBlock) ∨
        EqOutside 2 LOGSIZE d' (oneBlockTransaction.install fun _ => zeroBlock)) ∧
      (oneBlockTransaction.blocks.length < 2 →
        EqOutside 2 LOGSIZE d' (oneBlockTransaction.install fun _ => zeroBlock)) := by
  refine crash_atomic oneBlockTransaction ⟨⟨rfl, fun b hb => ?_⟩, fun b hb => ?_⟩ rfl 2 .none
  · have hlog : LOGSIZE = 30 := rfl
    have hne : b ≠ 60 := by
      rintro rfl
      have := hb.2
      omega
    simp [hne]
  · obtain rfl : b = 60 := by simpa [oneBlockTransaction] using hb
    rfl

end Xv6
