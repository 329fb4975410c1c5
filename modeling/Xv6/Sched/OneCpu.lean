import Xv6.Sched.System

/-!
# A process runs on at most one CPU

The state of a process and the `proc` field of a CPU are written on both sides of a context switch:
a process leaves `RUNNING` before it switches to the scheduler, which then clears the field, and the
scheduler sets both before it switches to a process. In between the lock is held, so that for
everyone else the two change together.
-/

namespace Xv6.Sched

open Function

variable {C : Type} [DecidableEq C] {s s' : State C} {c : C} {p q : Slot}

structure CpuInv (s : State C) : Prop where
  busy : ∀ c, (s.cpu c).ctl.busy = (s.cpu c).proc.isSome
  running : ∀ c p, (s.cpu c).proc = some p → (s.table p).state = .running
  once : ∀ c c' p, (s.cpu c).proc = some p → (s.cpu c').proc = some p → c = c'
  onCpu : ∀ p, (s.table p).state = .running → ∃ c, (s.cpu c).proc = some p

/-- A `fork` has the slot that it works on for itself. -/
structure ForkInv (s : State C) : Prop where
  embryo : ∀ p np, (s.thread p).forks = some np → (s.table np).state = .embryo
  once : ∀ p q np, (s.thread p).forks = some np → (s.thread q).forks = some np → p = q

/-- The channel of the latest `sleep` of process `p`. -/
def lastSlept (p : Slot) : List (Event C) → Option Chan
  | [] => none
  | .slept q chan :: es => if q = p then some chan else lastSlept p es
  | _ :: es => lastSlept p es

/-- Who sleeps does so on the channel of its latest `sleep`. -/
def SleepInv (s : State C) : Prop :=
  ∀ p, (s.table p).state = .sleeping →
    ∃ chan, lastSlept p s.hist = some chan ∧ (s.table p).chan = some chan

/-! ### Frame lemmas -/

section Frame

omit [DecidableEq C]

theorem table_setProc_self (x : Proc) : (s.setProc p x).table p = x := update_self ..

theorem table_setProc_of_ne (x : Proc) (h : q ≠ p) : (s.setProc p x).table q = s.table q :=
  update_of_ne h ..

theorem state_setProc_iff (P : ProcState → Prop) {x : Proc}
    (hx : P x.state ↔ P (s.table p).state) (q : Slot) :
    P ((s.setProc p x).table q).state ↔ P (s.table q).state := by
  rcases eq_or_ne q p with rfl | hne
  · rwa [table_setProc_self]
  · rw [table_setProc_of_ne x hne]

theorem forks_setThread {th : Thread} {np : Slot}
    (h : ((s.setThread p th).thread q).forks = some np) :
    q = p ∧ th.forks = some np ∨ q ≠ p ∧ (s.thread q).forks = some np := by
  have hth : (s.setThread p th).thread q = if q = p then th else s.thread q :=
    update_apply ..
  rw [hth] at h
  split at h
  · next hq => exact .inl ⟨hq, h⟩
  · next hq => exact .inr ⟨hq, h⟩

end Frame

/-! ### CPUs -/

omit [DecidableEq C] in
theorem cpuInv_boot : CpuInv (boot C) where
  busy _ := rfl
  running _ _ h := nomatch h
  once _ _ _ h := nomatch h
  onCpu p h := by
    unfold boot bootTable at h
    dsimp only at h
    split at h <;> cases h

namespace CpuInv

omit [DecidableEq C] in
theorem of_same (h : CpuInv s) (hcpu : s'.cpu = s.cpu)
    (hrun : ∀ p, (s'.table p).state = .running ↔ (s.table p).state = .running) : CpuInv s' := by
  refine ⟨fun c => ?_, fun c p hp => ?_, fun c c' p => ?_, fun p hp => ?_⟩
  · rw [hcpu]
    exact h.busy c
  · rw [hcpu] at hp
    exact (hrun p).mpr (h.running c p hp)
  · rw [hcpu]
    exact h.once c c' p
  · rw [hcpu]
    exact h.onCpu p ((hrun p).mp hp)

theorem ctl (h : CpuInv s) {lock : Option C} {ctl : Ctl} (hb : ctl.busy = (s.cpu c).ctl.busy) :
    CpuInv (s.setCtl c lock ctl) := by
  have hcpu : ∀ c', (s.setCtl c lock ctl).cpu c' =
      if c' = c then { s.cpu c with ctl := ctl } else s.cpu c' := fun c' =>
    update_apply ..
  have hproc : ∀ c', ((s.setCtl c lock ctl).cpu c').proc = (s.cpu c').proc := by
    intro c'
    rw [hcpu]
    split
    · next hc => rw [hc]
    · rfl
  refine ⟨fun c' => ?_, fun c' p hp => ?_, fun c₁ c₂ p h₁ h₂ => ?_, fun p hp => ?_⟩
  · rw [hproc, ← h.busy c', hcpu]
    split
    · next hc =>
      rw [hc]
      exact hb
    · rfl
  · rw [hproc] at hp
    exact h.running c' p hp
  · rw [hproc] at h₁ h₂
    exact h.once c₁ c₂ p h₁ h₂
  · obtain ⟨c', hc'⟩ := h.onCpu p hp
    exact ⟨c', (hproc c').trans hc'⟩

theorem leave (h : CpuInv s) {n : ℕ} (hon : (s.cpu c).proc = some p)
    (hcpu : s'.cpu = update s.cpu c { s.cpu c with proc := none, ctl := .scan n })
    (hp : (s'.table p).state ≠ .running)
    (hrun : ∀ q, q ≠ p → ((s'.table q).state = .running ↔ (s.table q).state = .running)) :
    CpuInv s' := by
  have hself : (s'.cpu c).proc = none ∧ (s'.cpu c).ctl.busy = false := by
    rw [hcpu, update_self]
    exact ⟨rfl, rfl⟩
  have hother : ∀ c', c' ≠ c → s'.cpu c' = s.cpu c' := by
    intro c' hc
    rw [hcpu, update_of_ne hc]
  have hne : ∀ c' q, (s'.cpu c').proc = some q → c' ≠ c := by
    rintro c' q hq rfl
    rw [hself.1] at hq
    cases hq
  refine ⟨fun c' => ?_, fun c' q hq => ?_, fun c₁ c₂ q h₁ h₂ => ?_, fun q hq => ?_⟩
  · rcases eq_or_ne c' c with rfl | hc
    · rw [hself.1, hself.2]
      rfl
    · rw [hother c' hc]
      exact h.busy c'
  · have hc := hne c' q hq
    rw [hother c' hc] at hq
    have hqp : q ≠ p := by
      rintro rfl
      exact hc (h.once c' c q hq hon)
    exact (hrun q hqp).mpr (h.running c' q hq)
  · rw [hother c₁ (hne c₁ q h₁)] at h₁
    rw [hother c₂ (hne c₂ q h₂)] at h₂
    exact h.once c₁ c₂ q h₁ h₂
  have hqp : q ≠ p := by
    rintro rfl
    exact hp hq
  obtain ⟨c', hc'⟩ := h.onCpu q ((hrun q hqp).mp hq)
  have hc : c' ≠ c := by
    rintro rfl
    rw [hon] at hc'
    exact hqp (Option.some.inj hc').symm
  exact ⟨c', by rw [hother c' hc, hc']⟩

theorem enter (h : CpuInv s) {low : Int32} (hb : (s.cpu c).ctl.busy = false)
    (hp : (s.table p).state ≠ .running) (hcpu : s'.cpu = update s.cpu c ⟨some p, .resume, low⟩)
    (hp' : (s'.table p).state = .running) (hother : ∀ q, q ≠ p → s'.table q = s.table q) :
    CpuInv s' := by
  have hidle : (s.cpu c).proc = none := by
    rw [← Option.not_isSome_iff_eq_none, ← h.busy, hb]
    exact Bool.false_ne_true
  have hself : s'.cpu c = ⟨some p, .resume, low⟩ := by
    rw [hcpu, update_self]
  have hcpus : ∀ c', c' ≠ c → s'.cpu c' = s.cpu c' := by
    intro c' hc
    rw [hcpu, update_of_ne hc]
  have hne : ∀ c', (s.cpu c').proc ≠ some p := fun c' hc => hp (h.running c' p hc)
  refine ⟨fun c' => ?_, fun c' q hq => ?_, fun c₁ c₂ q h₁ h₂ => ?_, fun q hq => ?_⟩
  · rcases eq_or_ne c' c with rfl | hc
    · rw [hself]
      rfl
    · rw [hcpus c' hc]
      exact h.busy c'
  · rcases eq_or_ne q p with rfl | hqp
    · exact hp'
    rcases eq_or_ne c' c with rfl | hc
    · rw [hself] at hq
      exact absurd (Option.some.inj hq).symm hqp
    · rw [hcpus c' hc] at hq
      rw [hother q hqp]
      exact h.running c' q hq
  · rcases eq_or_ne c₁ c with hc₁ | hc₁ <;> rcases eq_or_ne c₂ c with hc₂ | hc₂
    · exact hc₁.trans hc₂.symm
    · rw [hc₁, hself] at h₁
      rw [hcpus c₂ hc₂, ← h₁] at h₂
      exact absurd h₂ (hne c₂)
    · rw [hc₂, hself] at h₂
      rw [hcpus c₁ hc₁, ← h₂] at h₁
      exact absurd h₁ (hne c₁)
    · rw [hcpus c₁ hc₁] at h₁
      rw [hcpus c₂ hc₂] at h₂
      exact h.once c₁ c₂ q h₁ h₂
  · rcases eq_or_ne q p with rfl | hqp
    · exact ⟨_, congrArg Cpu.proc hself⟩
    rw [hother q hqp] at hq
    obtain ⟨c', hc'⟩ := h.onCpu q hq
    have hc : c' ≠ c := by
      rintro rfl
      rw [hidle] at hc'
      cases hc'
    exact ⟨c', by rw [hcpus c' hc, hc']⟩

theorem leave_setProc (h : CpuInv s) {x : Proc} {n : ℕ} (hon : (s.cpu c).proc = some p)
    (hcpu : s'.cpu = update s.cpu c { s.cpu c with proc := none, ctl := .scan n })
    (htable : s'.table = (s.setProc p x).table) (hx : x.state ≠ .running) : CpuInv s' := by
  refine h.leave hon hcpu ?_ fun q hq => ?_
  · rwa [htable, table_setProc_self]
  · rw [htable, table_setProc_of_ne x hq]

omit [DecidableEq C] in
theorem setProc (h : CpuInv s) {x : Proc} (hcpu : s'.cpu = s.cpu)
    (htable : s'.table = (s.setProc p x).table)
    (hx : x.state = .running ↔ (s.table p).state = .running) : CpuInv s' :=
  h.of_same hcpu fun q => htable ▸ state_setProc_iff (· = .running) hx q

theorem trans (h : CpuInv s) (hf : ForkInv s) (ht : Trans s s') : CpuInv s' := by
  have hnot : ∀ {x : ProcState} {p}, (s.table p).state = x → x ≠ .running →
      (s.table p).state ≠ .running := fun hp hx hr => hx (hp.symm.trans hr)
  have hembryo : ∀ {p np}, (s.thread p).forks = some np → (s.table np).state ≠ .running :=
    fun hp => hnot (hf.embryo _ _ hp) nofun
  cases ht with
  | ctl hb => exact h.ctl hb
  | dispatch hb hr _ =>
    refine h.enter hb (hnot hr nofun) rfl ?_ fun q hq => table_setProc_of_ne _ hq
    exact congrArg Proc.state (table_setProc_self (s := s) _)
  | soft hw => exact h.of_same rfl fun p => (hw p).1.running_iff
  | yield hon | sleep hon _ _ => exact h.leave_setProc hon rfl rfl nofun
  | wake | link => exact h.setProc rfl rfl .rfl
  | exit hon _ hi =>
    have he := exitTable_spec hi s.table
    refine h.leave hon rfl ?_ fun q hq => (he.woken q hq).running_iff
    intro hr
    exact nomatch he.zombie.symm.trans hr
  | reap _ _ _ hz => exact h.setProc rfl rfl (iff_of_false nofun (hnot hz nofun))
  | fail _ _ _ | stack _ _ => exact h.of_same rfl fun _ => .rfl
  | @alloc c p np t pid a k _ _ hu hnp hother =>
    refine h.of_same rfl fun q => ?_
    change (t q).state = _ ↔ _
    rcases eq_or_ne q np with rfl | hne
    · rw [hnp]
      exact iff_of_false nofun (hnot hu nofun)
    · obtain ⟨b, hb⟩ := hother q hne
      rw [hb]
  | done _ hth => exact h.setProc rfl rfl (iff_of_false nofun (hembryo (by rw [hth]; rfl)))
  | free _ hth _ => exact h.setProc rfl rfl (iff_of_false nofun (hembryo hth))

end CpuInv

/-! ### Forks -/

omit [DecidableEq C] in
theorem forkInv_boot : ForkInv (boot C) where
  embryo _ _ h := nomatch h
  once _ _ _ h := nomatch h

theorem Sleeps.forks {t : Table} {chan : Chan} {th : Thread} (h : Sleeps t p chan th) :
    th.forks = none := by
  cases th <;> first | rfl | exact h.elim

namespace ForkInv

omit [DecidableEq C] in
theorem of_sub (h : ForkInv s) (hsub : ∀ q np, (s'.thread q).forks = some np →
    (s.thread q).forks = some np ∧ (s'.table np).state = .embryo) : ForkInv s' :=
  ⟨fun q np hq => (hsub q np hq).2,
    fun p q np hp hq => h.once p q np (hsub p np hp).1 (hsub q np hq).1⟩

omit [DecidableEq C] in
theorem of_thread (h : ForkInv s) {th : Thread} (hth : th.forks = none)
    (hthread : s'.thread = (s.setThread p th).thread)
    (hstate : ∀ np, (s.table np).state = .embryo → (s.thread p).forks ≠ some np →
      (s'.table np).state = .embryo) : ForkInv s' := by
  refine h.of_sub fun q np hq => ?_
  rw [hthread] at hq
  rcases forks_setThread hq with ⟨-, hq⟩ | ⟨hne, hq⟩
  · rw [hth] at hq
    cases hq
  · exact ⟨hq, hstate np (h.embryo q np hq) fun hp => hne (h.once q p np hq hp)⟩

omit [DecidableEq C] in
theorem embryo_setProc {x : Proc} {np : Slot} (h : (s.table np).state = .embryo)
    (hp : (s.table p).state ≠ .embryo) : ((s.setProc p x).table np).state = .embryo := by
  have hne : np ≠ p := by
    rintro rfl
    exact hp h
  rwa [table_setProc_of_ne x hne]

theorem trans (h : ForkInv s) (hc : CpuInv s) (ht : Trans s s') : ForkInv s' := by
  have hnot : ∀ {x : ProcState} {p}, (s.table p).state = x → x ≠ .embryo →
      (s.table p).state ≠ .embryo := fun hp hx hr => hx (hp.symm.trans hr)
  have hrun : ∀ {c p}, (s.cpu c).proc = some p → (s.table p).state ≠ .embryo :=
    fun hon => hnot (hc.running _ _ hon) nofun
  cases ht with
  | ctl _ => exact h.of_sub fun q np hq => ⟨hq, h.embryo q np hq⟩
  | dispatch _ hr _ =>
    exact h.of_sub fun q np hq => ⟨hq, embryo_setProc (h.embryo q np hq) (hnot hr nofun)⟩
  | soft hw =>
    refine h.of_sub fun q np hq => ⟨hq, ?_⟩
    have he := h.embryo q np hq
    exact ((hw np).1.eq_of_ne (by rw [he]; exact nofun)).trans he
  | yield hon =>
    exact h.of_sub fun q np hq => ⟨hq, embryo_setProc (h.embryo q np hq) (hrun hon)⟩
  | sleep hon _ hs =>
    exact h.of_thread hs.forks rfl fun np he _ => embryo_setProc he (hrun hon)
  | wake hon _ hth => exact h.of_thread hth rfl fun np he _ => embryo_setProc he (hrun hon)
  | @exit c p hon _ hi =>
    refine h.of_sub fun q np hq => ⟨hq, ?_⟩
    have he := h.embryo q np hq
    have hne : np ≠ p := by
      rintro rfl
      exact hrun hon he
    exact (((exitTable_spec hi s.table).woken np hne).eq_of_ne (by rw [he]; exact nofun)).trans he
  | reap _ _ _ hz =>
    exact h.of_thread rfl rfl fun np he _ => embryo_setProc he (hnot hz nofun)
  | fail _ _ _ => exact h.of_thread rfl rfl fun np he _ => he
  | @alloc c p np t pid a k hon hf hu hnp hother =>
    have hstate : ∀ q, q ≠ np → (t q).state = (s.table q).state := by
      intro q hq
      obtain ⟨b, hb⟩ := hother q hq
      rw [hb]
    have hfresh : ∀ q, (s.thread q).forks ≠ some np := fun q hq => hnot hu nofun (h.embryo q np hq)
    refine ⟨fun q nq hq => ?_, fun q r nq hq hr => ?_⟩
    · change (t nq).state = .embryo
      rcases forks_setThread hq with ⟨-, hn⟩ | ⟨-, hn⟩
      · cases hn
        rw [hnp]
      have hne : nq ≠ np := by
        rintro rfl
        exact hfresh q hn
      exact (hstate nq hne).trans (h.embryo q nq hn)
    rcases forks_setThread hq with ⟨hqp, hn⟩ | ⟨-, hn⟩ <;>
      rcases forks_setThread hr with ⟨hrp, hn'⟩ | ⟨-, hn'⟩
    · exact hqp.trans hrp.symm
    · cases hn
      exact absurd hn' (hfresh r)
    · cases hn'
      exact absurd hn (hfresh q)
    · exact h.once q r nq hn hn'
  | @stack c p np hon hth =>
    refine h.of_sub fun q nq hq => ?_
    have hsame : (s.thread q).forks = some nq := by
      rcases forks_setThread hq with ⟨hqp, hn⟩ | ⟨-, hn⟩
      · rw [hqp, hth]
        exact hn
      · rcases forks_setThread hn with ⟨-, hn'⟩ | ⟨-, hn'⟩
        · cases hn'
        · exact hn'
    exact ⟨hsame, h.embryo q nq hsame⟩
  | @link c p np hon hth =>
    refine h.of_sub fun q nq hq => ?_
    have hsame : (s.thread q).forks = some nq := by
      rcases forks_setThread hq with ⟨hqp, hn⟩ | ⟨-, hn⟩
      · rw [hqp, hth]
        exact hn
      · exact hn
    refine ⟨hsame, ?_⟩
    exact (state_setProc_iff (s := s) (x := { s.table np with parent := some p }) (· = .embryo)
      .rfl nq).mpr (h.embryo q nq hsame)
  | @done c p np hon hth =>
    refine h.of_thread rfl rfl fun nq he hne => ?_
    have hnq : nq ≠ np := by
      rintro rfl
      exact hne (by rw [hth]; rfl)
    exact (congrArg Proc.state (table_setProc_of_ne _ hnq)).trans he
  | @free c p np hon hth _ =>
    refine h.of_thread rfl rfl fun nq he hne => ?_
    have hnq : nq ≠ np := by
      rintro rfl
      exact hne hth
    exact (congrArg Proc.state (table_setProc_of_ne _ hnq)).trans he

end ForkInv

/-! ### Channels -/

namespace SleepInv

omit [DecidableEq C] in
theorem of_same (h : SleepInv s) (hlast : ∀ p, lastSlept p s'.hist = lastSlept p s.hist)
    (hsame : ∀ p, (s'.table p).state = .sleeping →
      (s.table p).state = .sleeping ∧ (s'.table p).chan = (s.table p).chan) : SleepInv s' := by
  intro p hp
  obtain ⟨hs, hchan⟩ := hsame p hp
  rw [hlast, hchan]
  exact h p hs

omit [DecidableEq C] in
theorem of_setProc (h : SleepInv s) {x : Proc}
    (hlast : ∀ p, lastSlept p s'.hist = lastSlept p s.hist)
    (htable : s'.table = (s.setProc p x).table) (hx : x.state ≠ .sleeping) : SleepInv s' := by
  refine h.of_same hlast fun q hq => ?_
  rw [htable] at hq ⊢
  rcases eq_or_ne q p with rfl | hne
  · rw [table_setProc_self] at hq
    exact absurd hq hx
  · rw [table_setProc_of_ne x hne] at hq ⊢
    exact ⟨hq, rfl⟩

theorem trans (h : SleepInv s) (hc : CpuInv s) (hf : ForkInv s) (ht : Trans s s') :
    SleepInv s' := by
  have hnot : ∀ {x : ProcState} {p}, (s.table p).state = x → x ≠ .sleeping →
      (s.table p).state ≠ .sleeping := fun hp hx hr => hx (hp.symm.trans hr)
  have hrun : ∀ {c p}, (s.cpu c).proc = some p → (s.table p).state ≠ .sleeping :=
    fun hon => hnot (hc.running _ _ hon) nofun
  cases ht with
  | ctl _ => exact h
  | dispatch _ _ _ | yield _ | reap _ _ _ _ | done _ _ | free _ _ _ =>
    exact h.of_setProc (fun _ => rfl) rfl nofun
  | soft hw => exact h.of_same (fun _ => rfl) fun p hp => ⟨(hw p).1.sleeping hp, (hw p).1.chan⟩
  | @sleep c p chan th _ _ _ =>
    intro q hq
    rcases eq_or_ne q p with rfl | hne
    · exact ⟨chan, if_pos rfl, congrArg Proc.chan (table_setProc_self (s := s) _)⟩
    have htable := table_setProc_of_ne (s := s)
      { s.table p with chan := some chan, state := .sleeping } hne
    obtain ⟨chan', hlast, hchan⟩ := h q ((congrArg Proc.state htable).symm.trans hq)
    exact ⟨chan', (if_neg hne.symm).trans hlast, (congrArg Proc.chan htable).trans hchan⟩
  | wake hon _ _ => exact h.of_setProc (fun _ => rfl) rfl (hrun hon)
  | @exit c p hon _ hi =>
    have he := exitTable_spec hi s.table
    refine h.of_same (fun _ => rfl) fun q hq => ?_
    have hne : q ≠ p := by
      rintro rfl
      exact nomatch he.zombie.symm.trans hq
    exact ⟨(he.woken q hne).sleeping hq, (he.woken q hne).chan⟩
  | fail _ _ _ => exact h
  | @alloc c p np t pid a k _ _ _ hnp hother =>
    refine h.of_same (fun _ => rfl) fun q hq => ?_
    change (t q).state = .sleeping at hq
    change _ ∧ (t q).chan = _
    rcases eq_or_ne q np with rfl | hne
    · rw [hnp] at hq
      cases hq
    · obtain ⟨b, hb⟩ := hother q hne
      rw [hb] at hq ⊢
      exact ⟨hq, rfl⟩
  | stack _ _ => exact h
  | @link c p np _ hth =>
    have he : (s.table np).state = .embryo := hf.embryo p np (by rw [hth]; rfl)
    exact h.of_setProc (fun _ => rfl) rfl (hnot he nofun)

end SleepInv

/-! ### Every run -/

theorem reached_cpuInv (h : Reached s) : CpuInv s ∧ ForkInv s ∧ SleepInv s := by
  refine reachable_keeps (I := fun s => CpuInv s ∧ ForkInv s ∧ SleepInv s)
    ⟨cpuInv_boot, forkInv_boot, fun p hp => ?_⟩ (fun s s' ⟨hc, hf, hs⟩ ht => ?_) h
  · unfold boot bootTable at hp
    dsimp only at hp
    split at hp <;> cases hp
  · exact ⟨hc.trans hf ht, hf.trans hc ht, hs.trans hc hf ht⟩

/-- **A process runs on at most one CPU.** In every state reached, on any set of CPUs, a slot is
`RUNNING` if and only if exactly one CPU runs it, no CPU runs a slot that is not, and a sleeping
process sleeps on the channel of its latest `sleep`. -/
theorem runs_on_one_cpu (h : Reached s) :
    (∀ p, (s.table p).state = .running ↔ ∃! c, (s.cpu c).proc = some p) ∧
      (∀ c p, (s.cpu c).proc = some p → (s.table p).state = .running) ∧
      ∀ p, (s.table p).state = .sleeping →
        ∃ chan, lastSlept p s.hist = some chan ∧ (s.table p).chan = some chan := by
  obtain ⟨hc, -, hs⟩ := reached_cpuInv h
  refine ⟨fun p => ⟨fun hp => ?_, fun ⟨c, hp, _⟩ => hc.running c p hp⟩, hc.running, hs⟩
  obtain ⟨c, hp'⟩ := hc.onCpu p hp
  exact ⟨c, hp', fun c' hc' => hc.once c' c p hc' hp'⟩

/-- Init on the second of two CPUs. -/
theorem runs_on_one_cpu_init : ∃ s : State (Fin 2), (s.table initproc).state = .running ∧
    ∃! c, (s.cpu c).proc = some initproc := by
  obtain ⟨s, hs, hq⟩ := Run.Reachable.exists_of_exec [(1, .startPass), (1, .scan), (1, .resume)]
    (fun s => (s.table initproc).state = .running) (.start rfl : Reached (boot (Fin 2)))
    (by decide +kernel)
  have hrun := of_decide_eq_true hq
  exact ⟨s, hrun, ((runs_on_one_cpu hs).1 initproc).mp hrun⟩

end Xv6.Sched
