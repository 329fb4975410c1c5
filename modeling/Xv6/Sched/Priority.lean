import Mathlib.Order.WellFounded
import Xv6.Sched.System

/-!
# Priorities

`scheduler` looks at the slots in turn and dispatches every process that it finds runnable with a
priority of at most `lowestPriority`, which then becomes the priority of that process. The variable
is never set back, so that a CPU does not run any more what has a larger priority than some process
that it has run before. And a process is dispatched before the slots after it have been looked at.
-/

namespace Xv6.Sched

open Relation Function

variable {C : Type} [DecidableEq C] {s s' s₁ : State C} {c : C} {p q : Slot} {i j : ℕ}

/-- A priority that the scheduler of CPU `c` still dispatches: at most the initial value of
`lowestPriority`, and at most each priority that it has dispatched. -/
def Admitted (hist : List (Event C)) (c : C) (a : Int32) : Prop :=
  a ≤ 0x77777777 ∧ ∀ q b, .dispatched c q b ∈ hist → a ≤ b

/-- The scheduler of CPU `c` looks at a slot. -/
abbrev Scan (c : C) (s s' : State C) : Prop := step s (c, .scan) = some s'

/-- From state `s`, the scheduler of CPU `c` comes to slot `p`, with the lock held all the time, and
dispatches it in state `s₁`. -/
def Dispatches (s : State C) (c : C) (p : Slot) (s₁ : State C) : Prop :=
  ReflTransGen (Scan c) s s₁ ∧ (s₁.cpu c).ctl = .scan p ∧
    ∃ s₂, Scan c s₁ s₂ ∧ (s₂.cpu c).ctl = .resume ∧ (s₂.cpu c).proc = some p

/-- Slot `p` is passed over unless this holds. -/
def Eligible (s : State C) (c : C) (p : Slot) : Prop :=
  (s.table p).state = .runnable ∧ (s.table p).priority ≤ (s.cpu c).lowestPriority

/-! ### The variable -/

omit [DecidableEq C] in
theorem admitted_cons_of_ne {hist : List (Event C)} {e : Event C} {a : Int32}
    (he : ∀ q b, e ≠ .dispatched c q b) : Admitted (e :: hist) c a ↔ Admitted hist c a := by
  refine and_congr_right fun _ => ⟨fun h q b hm => h q b (List.mem_cons_of_mem _ hm),
    fun h q b hm => ?_⟩
  exact h q b ((List.mem_cons.mp hm).resolve_left (he q b).symm)

omit [DecidableEq C] in
theorem admitted_cons_dispatched {hist : List (Event C)} {a b : Int32} :
    Admitted (.dispatched c p b :: hist) c a ↔ Admitted hist c a ∧ a ≤ b := by
  constructor
  · rintro ⟨h₀, h⟩
    exact ⟨⟨h₀, fun q b' hm => h q b' (List.mem_cons_of_mem _ hm)⟩, h p b List.mem_cons_self⟩
  rintro ⟨⟨h₀, h⟩, hb⟩
  refine ⟨h₀, fun q b' hm => ?_⟩
  rcases List.mem_cons.mp hm with heq | hm
  · cases heq
    exact hb
  · exact h q b' hm

/-- `lowestPriority` is the smallest priority that has been dispatched. -/
def LowInv (s : State C) : Prop :=
  ∀ c a, a ≤ (s.cpu c).lowestPriority ↔ Admitted s.hist c a

namespace LowInv

omit [DecidableEq C] in
theorem of_same (h : LowInv s) (hcpu : ∀ c, (s'.cpu c).lowestPriority = (s.cpu c).lowestPriority)
    (hhist : ∀ c a, Admitted s'.hist c a ↔ Admitted s.hist c a) : LowInv s' := by
  intro c a
  rw [hcpu, hhist]
  exact h c a

theorem low_update {x : Cpu} (hx : x.lowestPriority = (s.cpu c).lowestPriority) (c' : C) :
    (update s.cpu c x c').lowestPriority = (s.cpu c').lowestPriority := by
  rcases eq_or_ne c' c with rfl | hne
  · rwa [update_self]
  · rw [update_of_ne hne]

theorem trans (h : LowInv s) (ht : Trans s s') : LowInv s' := by
  cases ht with
  | ctl _ | yield _ => exact h.of_same (low_update rfl) fun _ _ => .rfl
  | @dispatch c p _ _ hlow =>
    intro c' a
    rcases eq_or_ne c' c with rfl | hne
    · dsimp only
      rw [update_self, admitted_cons_dispatched, ← h]
      exact ⟨fun ha => ⟨Int32.le_trans ha hlow, ha⟩, And.right⟩
    dsimp only
    rw [update_of_ne hne, h, admitted_cons_of_ne]
    rintro q b heq
    cases heq
    exact hne rfl
  | soft _ => exact h
  | sleep _ _ _ | exit _ _ _ =>
    exact h.of_same (low_update rfl) fun _ _ => admitted_cons_of_ne nofun
  | wake _ _ _ => exact h
  | reap _ _ _ _ | fail _ _ _ => exact h.of_same (fun _ => rfl) fun _ _ => admitted_cons_of_ne nofun
  | alloc _ _ _ _ _ => exact h
  | stack _ _ => exact h
  | link _ _ => exact h
  | done _ _ => exact h
  | free _ _ _ => exact h

end LowInv

theorem reached_lowInv (h : Reached s) : LowInv s := by
  refine reachable_keeps (I := LowInv) (fun c a => ?_) (fun _ _ hI ht => hI.trans ht) h
  exact ⟨fun ha => ⟨ha, fun q b hm => (nomatch hm)⟩, And.left⟩

omit [DecidableEq C] in
theorem eligible_iff (h : LowInv s) : Eligible s c p ↔
    (s.table p).state = .runnable ∧ Admitted s.hist c (s.table p).priority :=
  and_congr_right fun _ => h c _

/-! ### The scan -/

theorem ctl_of_scan (h : Scan c s s') : ∃ i, (s.cpu c).ctl = .scan i := by
  unfold Scan step at h
  dsimp only at h
  split at h
  · next i hi => exact ⟨i, hi⟩
  · cases h

theorem scan_eq (hctl : (s.cpu c).ctl = .scan i) : step s (c, .scan) = some (s.scanSlot c i) := by
  unfold step
  dsimp only
  rw [hctl]

theorem scanSlot_end (hi : ¬ i < NPROC) : s.scanSlot c i = s.setCtl c none .idle := by
  rw [State.scanSlot, dif_neg hi]

theorem scanSlot_pass (h : ¬ Eligible s c p) :
    s.scanSlot c p = s.setCtl c s.lock (.scan (p + 1)) := by
  rw [State.scanSlot, dif_pos p.isLt]
  refine if_pos ?_
  by_contra hne
  obtain ⟨hr, hlow⟩ := not_or.mp hne
  exact h ⟨not_not.mp hr, Int32.not_lt.mp hlow⟩

theorem scanSlot_take (h : Eligible s c p) :
    (s.scanSlot c p).cpu c = ⟨some p, .resume, (s.table p).priority⟩ := by
  have hel : ¬ ((s.table p).state ≠ .runnable ∨ (s.table p).priority > (s.cpu c).lowestPriority) :=
    not_or.mpr ⟨not_not.mpr h.1, Int32.not_lt.mpr h.2⟩
  rw [State.scanSlot, dif_pos p.isLt]
  dsimp only
  rw [if_neg hel]
  exact update_self ..

theorem cpu_setCtl_self {lock : Option C} {ctl : Ctl} :
    (s.setCtl c lock ctl).cpu c = { s.cpu c with ctl := ctl } := update_self ..

theorem eq_of_scans (h : ReflTransGen (Scan c) s s₁) (hctl : ∀ i, (s.cpu c).ctl ≠ .scan i) :
    s₁ = s := by
  rcases ReflTransGen.cases_head h with heq | ⟨s', hs, -⟩
  · exact heq.symm
  · obtain ⟨i, hi⟩ := ctl_of_scan hs
    exact absurd hi (hctl i)

/-- The scheduler of CPU `c` has come from slot `i` in state `s` to slot `j` in state `s₁`. -/
structure Passed (c : C) (s : State C) (i : ℕ) (s₁ : State C) (j : ℕ) : Prop where
  le : i ≤ j
  table : s₁.table = s.table
  low : (s₁.cpu c).lowestPriority = (s.cpu c).lowestPriority
  none : ∀ q : Slot, i ≤ q → q < j → ¬ Eligible s c q

theorem Passed.head (h : Passed c (s.setCtl c s.lock (.scan (p + 1))) (p + 1) s₁ j)
    (hp : ¬ Eligible s c p) : Passed c s p s₁ j := by
  have hlow : ((s.setCtl c s.lock (.scan (p + 1))).cpu c).lowestPriority =
      (s.cpu c).lowestPriority := by rw [cpu_setCtl_self]
  have hiff : ∀ q, Eligible (s.setCtl c s.lock (.scan (p + 1))) c q ↔ Eligible s c q := by
    intro q
    unfold Eligible
    rw [hlow]
    rfl
  refine ⟨by have := h.le; omega, h.table, h.low.trans hlow, fun q hq hqj => ?_⟩
  rcases eq_or_ne q p with rfl | hne
  · exact hp
  · rw [← hiff]
    have hne' : (q : ℕ) ≠ p := fun heq => hne (Fin.ext heq)
    exact h.none q (by omega) hqj

theorem scans_passed (h : ReflTransGen (Scan c) s s₁) (hj : (s₁.cpu c).ctl = .scan j) :
    ∀ i, (s.cpu c).ctl = .scan i → Passed c s i s₁ j := by
  induction h using ReflTransGen.head_induction_on with
  | refl =>
    intro i hi
    rw [hi] at hj
    cases hj
    exact ⟨le_rfl, rfl, rfl, fun q hq hqi => by omega⟩
  | @head s s' hs hrest ih =>
  intro i hi
  have hs' : s' = s.scanSlot c i := by
    rw [Scan, scan_eq hi] at hs
    exact (Option.some.inj hs).symm
  have hstuck : ¬ ∀ k, (s'.cpu c).ctl ≠ .scan k := by
    intro hne
    rw [eq_of_scans hrest hne] at hj
    exact hne j hj
  by_cases hlt : i < NPROC
  · obtain ⟨p, rfl⟩ : ∃ p : Slot, i = p := ⟨⟨i, hlt⟩, rfl⟩
    by_cases hel : Eligible s c p
    · refine absurd (fun k => ?_) hstuck
      rw [hs', scanSlot_take hel]
      exact nofun
    · rw [scanSlot_pass hel] at hs'
      subst hs'
      exact (ih (p + 1) (by rw [cpu_setCtl_self])).head hel
  · refine absurd (fun k => ?_) hstuck
    rw [hs', scanSlot_end hlt, cpu_setCtl_self]
    exact nofun

theorem exists_scans (hi : (s.cpu c).ctl = .scan i) (hij : i ≤ j) (hj : j ≤ NPROC)
    (hno : ∀ q : Slot, i ≤ q → q < j → ¬ Eligible s c q) :
    ∃ s₁, ReflTransGen (Scan c) s s₁ ∧ (s₁.cpu c).ctl = .scan j := by
  induction j, hij using Nat.le_induction with
  | base => exact ⟨s, .refl, hi⟩
  | succ j hij ih =>
  obtain ⟨s₁, hs₁, hctl⟩ := ih (by omega) fun q hq hqj => hno q hq (by omega)
  have hpass := scans_passed hs₁ hctl i hi
  obtain ⟨p, rfl⟩ : ∃ p : Slot, j = p := ⟨⟨j, hj⟩, rfl⟩
  have hel : ¬ Eligible s₁ c p := by
    unfold Eligible
    rw [hpass.table, hpass.low]
    exact hno p hij (by omega)
  refine ⟨s₁.setCtl c s₁.lock (.scan (p + 1)), hs₁.tail ?_, by rw [cpu_setCtl_self]⟩
  rw [Scan, scan_eq hctl, scanSlot_pass hel]

theorem dispatches_spec (hi : (s.cpu c).ctl = .scan i) (h : Dispatches s c p s₁) :
    Passed c s i s₁ p ∧ Eligible s c p := by
  obtain ⟨hs₁, hctl, s₂, hs₂, hres, -⟩ := h
  have hpass := scans_passed hs₁ hctl i hi
  refine ⟨hpass, ?_⟩
  by_contra hel
  have hel₁ : ¬ Eligible s₁ c p := by
    unfold Eligible
    rw [hpass.table, hpass.low]
    exact hel
  rw [Scan, scan_eq hctl, scanSlot_pass hel₁] at hs₂
  cases hs₂
  rw [cpu_setCtl_self] at hres
  cases hres

theorem exists_dispatches (hi : (s.cpu c).ctl = .scan i) (hip : i ≤ p) (hel : Eligible s c p) :
    ∃ q s₁, Dispatches s c q s₁ := by
  obtain ⟨q, ⟨hiq, hq⟩, hmin⟩ := WellFounded.has_min (wellFounded_lt (α := Slot))
    {q | i ≤ q ∧ Eligible s c q} ⟨p, hip, hel⟩
  have hno : ∀ r : Slot, i ≤ r → r < (q : ℕ) → ¬ Eligible s c r :=
    fun r hir hrq hr => hmin r ⟨hir, hr⟩ hrq
  obtain ⟨s₁, hs₁, hctl⟩ := exists_scans hi hiq q.isLt.le hno
  have hpass := scans_passed hs₁ hctl i hi
  have hq₁ : Eligible s₁ c q := by
    unfold Eligible
    rw [hpass.table, hpass.low]
    exact hq
  have hcpu := scanSlot_take hq₁
  exact ⟨q, s₁, hs₁, hctl, _, scan_eq hctl, by rw [hcpu], by rw [hcpu]⟩

/-! ### Whole passes -/

/-- **When a pass does any work.** A pass over the table that begins in a state reached dispatches
a process if and only if there is a runnable process whose priority is at most `0x77777777` and at
most each of those that this CPU has dispatched before. -/
theorem work_conserving (h : Reached s) (hctl : (s.cpu c).ctl = .scan 0) :
    (∃ p s₁, Dispatches s c p s₁) ↔
      ∃ p, (s.table p).state = .runnable ∧ (s.table p).priority ≤ 0x77777777 ∧
        ∀ q b, .dispatched c q b ∈ s.hist → (s.table p).priority ≤ b := by
  have hlow := reached_lowInv h
  constructor
  · rintro ⟨p, s₁, hd⟩
    exact ⟨p, (eligible_iff hlow).mp (dispatches_spec hctl hd).2⟩
  · rintro ⟨p, hp⟩
    exact exists_dispatches hctl (Nat.zero_le _) ((eligible_iff hlow).mpr hp)

/-- The first pass after booting. -/
theorem work_conserving_boot :
    ∃ p s₁, Dispatches ((boot (Fin 1)).setCtl 0 (some 0) (.scan 0)) 0 p s₁ := by
  have hstep : step (boot (Fin 1)) (0, .startPass) =
      some ((boot (Fin 1)).setCtl 0 (some 0) (.scan 0)) := rfl
  refine (work_conserving (.step (.start rfl) trivial hstep) rfl).mpr ⟨initproc, rfl, ?_, ?_⟩
  · decide
  · exact fun q b hm => (nomatch hm)

/-- Init runs once, with priority 0, and sets its priority to 10; then the next pass begins. -/
def niceAndYield : List Op :=
  [.startPass, .scan, .resume, .proc (.nice 1 10), .proc .yield] ++ List.replicate 64 .scan ++
    [.startPass]

/-- Init is runnable, and the pass goes past it. -/
theorem runnable_never_dispatched : ∃ s : State (Fin 1), Reached s ∧ (s.cpu 0).ctl = .scan 0 ∧
    (s.table initproc).state = .runnable ∧ ∀ p s₁, ¬ Dispatches s 0 p s₁ := by
  obtain ⟨s, hs, hq⟩ := Run.Reachable.exists_of_exec (niceAndYield.map (0, ·))
    (fun s => (s.cpu 0).ctl = .scan 0 ∧ (s.table initproc).state = .runnable ∧
      ∀ p, (s.table p).state = .runnable → (s.cpu 0).lowestPriority < (s.table p).priority)
    (.start rfl : Reached (boot (Fin 1))) (by decide +kernel)
  obtain ⟨hctl, hrun, hlow⟩ := of_decide_eq_true hq
  refine ⟨s, hs, hctl, hrun, fun p s₁ hd => ?_⟩
  obtain ⟨hr, hle⟩ := (dispatches_spec hctl hd).2
  exact Int32.not_lt.mpr hle (hlow p hr)

/-- **When a process of smallest priority is chosen.** From slot `i` on, in a state reached, the
scheduler of CPU `c` dispatches `p`. No runnable process has a smaller priority than `p` if and only
if there is one of smallest priority at or after slot `i`, and none between slot `i` and that one
which has a larger priority and yet one that this CPU still dispatches. -/
theorem respects_priorities (h : Reached s) (hctl : (s.cpu c).ctl = .scan i)
    (hd : Dispatches s c p s₁) :
    (∀ q, (s₁.table q).state = .runnable → ¬ (s₁.table q).priority < (s₁.table p).priority) ↔
      ∃ m : Slot, i ≤ m ∧ (s.table m).state = .runnable ∧
        (∀ q, (s.table q).state = .runnable → (s.table m).priority ≤ (s.table q).priority) ∧
        ∀ q : Slot, i ≤ q → q < m → (s.table q).state = .runnable →
          (s.table m).priority < (s.table q).priority →
          ¬ Admitted s.hist c (s.table q).priority := by
  have hlow := reached_lowInv h
  obtain ⟨hpass, hel⟩ := dispatches_spec hctl hd
  rw [hpass.table]
  constructor
  · intro hmin
    refine ⟨p, hpass.le, hel.1, fun q hq => Int32.not_lt.mp (hmin q hq), ?_⟩
    intro q hiq hqp hr _ ha
    exact hpass.none q hiq hqp ((eligible_iff hlow).mpr ⟨hr, ha⟩)
  rintro ⟨m, him, hm, hmin, hbetween⟩ q hq hlt
  have hmp : (s.table m).priority < (s.table p).priority :=
    Int32.lt_of_le_of_lt (hmin q hq) hlt
  have helm : Eligible s c m := ⟨hm, Int32.le_trans (Int32.le_of_lt hmp) hel.2⟩
  -- the slot that is dispatched comes first
  have hpm : p ≤ m := by
    by_contra hlt
    exact hpass.none m him (Fin.lt_def.mp (not_le.mp hlt)) helm
  have hne : p ≠ m := by
    rintro rfl
    exact Int32.lt_irrefl hmp
  exact hbetween p hpass.le (lt_of_le_of_ne hpm hne) hel.1 hmp ((eligible_iff hlow).mp hel).2

/-- Init is the only runnable process. -/
theorem respects_priorities_boot :
    ∃ p s₁, Dispatches ((boot (Fin 1)).setCtl 0 (some 0) (.scan 0)) 0 p s₁ ∧
      ∀ q, (s₁.table q).state = .runnable → ¬ (s₁.table q).priority < (s₁.table p).priority := by
  have hstep : step (boot (Fin 1)) (0, .startPass) =
      some ((boot (Fin 1)).setCtl 0 (some 0) (.scan 0)) := rfl
  have hreach : Reached ((boot (Fin 1)).setCtl 0 (some 0) (.scan 0)) :=
    .step (.start rfl) trivial hstep
  have hinit : Eligible ((boot (Fin 1)).setCtl 0 (some 0) (.scan 0)) 0 initproc :=
    ⟨rfl, by decide⟩
  obtain ⟨p, s₁, hd⟩ := exists_dispatches rfl (Nat.zero_le _) hinit
  refine ⟨p, s₁, hd, (respects_priorities hreach rfl hd).mpr ⟨initproc, Nat.zero_le _, rfl, ?_, ?_⟩⟩
  · decide
  · exact fun q _ hq => absurd hq (Nat.not_lt_zero _)

/-- Init forks twice, and gives the second child, in slot 2, priority -5. -/
def twoForks : List Op :=
  [.startPass, .scan, .resume, .proc .fork, .proc .stack, .proc .copied, .proc .forkDone,
    .proc .fork, .proc .stack, .proc .copied, .proc .forkDone, .proc (.nice 3 (-5)), .proc .yield]

/-- The scheduler dispatches the first child, with priority 0. -/
theorem smaller_priority_passed_over : ∃ s s₁ : State (Fin 1), Reached s ∧ Dispatches s 0 1 s₁ ∧
    (s₁.table 2).state = .runnable ∧ (s₁.table 2).priority < (s₁.table 1).priority := by
  obtain ⟨s, hs, hq⟩ := Run.Reachable.exists_of_exec (twoForks.map (0, ·))
    (fun s => (s.cpu 0).ctl = .scan 1 ∧ ((s.table 1).state = .runnable ∧
        (s.table 1).priority ≤ (s.cpu 0).lowestPriority) ∧
      (s.table 2).state = .runnable ∧ (s.table 2).priority < (s.table 1).priority)
    (.start rfl : Reached (boot (Fin 1))) (by decide +kernel)
  obtain ⟨hctl, hel, hrun, hlt⟩ := of_decide_eq_true hq
  have hcpu := scanSlot_take (p := 1) hel
  exact ⟨s, s, hs, ⟨.refl, hctl, _, scan_eq hctl, congrArg Cpu.ctl hcpu, congrArg Cpu.proc hcpu⟩,
    hrun, hlt⟩

end Xv6.Sched
