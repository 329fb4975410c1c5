import Xv6.Sched.OneCpu

/-!
# No child is lost

`exit` passes the children of a process to init and wakes up whoever may have to reap the process or
one of its children; `wait` reaps an exited child, or sleeps on its own `struct proc` until there
may be one. Both look at the whole table under the lock. The two invariants that carry the result
say that parents are live processes, and that a process asleep in `wait` has no exited child.
-/

namespace Xv6.Sched

open Function List

variable {C : Type} {s s' : State C} {c : C} {p q : Slot}

/-- Parents are live processes, and every process but init has one. -/
structure FamInv (s : State C) : Prop where
  parent : ∀ p q, (s.table p).parent = some q → (s.table q).state.kind = .live
  child : ∀ p, p ≠ initproc → (s.table p).state.kind = .live ∨ (s.table p).state.kind = .zombie →
    ∃ q, (s.table p).parent = some q
  init : (s.table initproc).state.kind = .live
  initParent : (s.table initproc).parent = none
  irrefl : ∀ p, (s.table p).parent ≠ some p
  linked : ∀ p np, s.thread p = .linked np → (s.table np).parent = some p

/-- Who sleeps in `wait` has no exited child, and is woken up by `exit`. -/
def WaitInv (s : State C) : Prop :=
  ∀ p, s.thread p = .waiting → (s.table p).state = .sleeping →
    (s.table p).chan = some (.proc p) ∧
      ∀ q, (s.table q).parent = some p → (s.table q).state ≠ .zombie

/-- The pids of the processes in slot `p` that have exited, newest first. -/
def exitPids (p : Slot) : List (Event C) → List Int32
  | [] => []
  | .exited q pid :: es => if q = p then pid :: exitPids p es else exitPids p es
  | _ :: es => exitPids p es

/-- What the calls of `wait` that freed slot `p` have returned, newest first. -/
def reapPids (p : Slot) : List (Event C) → List Int32
  | [] => []
  | .reaped q _ ret _ :: es => if q = p then ret :: reapPids p es else reapPids p es
  | _ :: es => reapPids p es

/-- The exited process that is still in slot `p`. -/
def unreaped (t : Table) (p : Slot) : List Int32 :=
  if (t p).state = .zombie then [(t p).pid] else []

/-- What is known about the calls of `exit` and `wait` so far. -/
structure HistInv (s : State C) : Prop where
  exits : ∀ p, exitPids p s.hist = unreaped s.table p ++ reapPids p s.hist
  reaped : ∀ p caller ret parent, .reaped p caller ret parent ∈ s.hist → parent = some caller
  failed : ∀ p children killed, .waitFailed p children killed ∈ s.hist →
    children = false ∨ killed = true

/-! ### Parents -/

namespace FamInv

theorem of_parent (h : FamInv s) (hpar : ∀ p, (s'.table p).parent = (s.table p).parent)
    (hlive : ∀ p, (s.table p).state.kind = .live → (s'.table p).state.kind = .live)
    (hchild : ∀ p, (s'.table p).state.kind = .live ∨ (s'.table p).state.kind = .zombie →
      ((s.table p).state.kind = .live ∨ (s.table p).state.kind = .zombie) ∨
        ∃ q, (s.table p).parent = some q)
    (hlinked : ∀ p np, s'.thread p = .linked np → s.thread p = .linked np) : FamInv s' := by
  refine ⟨fun p q hq => ?_, fun p hp hk => ?_, hlive _ h.init, ?_, fun p => ?_, fun p np hth => ?_⟩
  · rw [hpar] at hq
    exact hlive q (h.parent p q hq)
  · rw [hpar]
    rcases hchild p hk with hk | hq
    · exact h.child p hp hk
    · exact hq
  · rw [hpar]
    exact h.initParent
  · rw [hpar]
    exact h.irrefl p
  · rw [hpar]
    exact h.linked p np (hlinked p np hth)

theorem of_kind (h : FamInv s) (hpar : ∀ p, (s'.table p).parent = (s.table p).parent)
    (hkind : ∀ p, (s'.table p).state.kind = (s.table p).state.kind)
    (hlinked : ∀ p np, s'.thread p = .linked np → s.thread p = .linked np) : FamInv s' :=
  h.of_parent hpar (fun p hp => (hkind p).trans hp) (fun p hp => .inl (hkind p ▸ hp)) hlinked

theorem linked_setThread {th : Thread} {np : Slot}
    (h : (s.setThread p th).thread q = .linked np) (hth : ∀ np, th ≠ .linked np) :
    s.thread q = .linked np := by
  have happly : (s.setThread p th).thread q = if q = p then th else s.thread q :=
    update_apply ..
  rw [happly] at h
  split at h
  · exact absurd h (hth np)
  · exact h

theorem of_slot (h : FamInv s) {np : Slot} (hpar : (s'.table np).parent = (s.table np).parent)
    (hother : ∀ q, q ≠ np → (s'.table q).parent = (s.table q).parent ∧
      (s'.table q).state = (s.table q).state) (hnot : (s.table np).state.kind ≠ .live)
    (hchild : (s'.table np).state.kind = .live ∨ (s'.table np).state.kind = .zombie →
      ∃ q, (s.table np).parent = some q)
    (hlinked : ∀ p np, s'.thread p = .linked np → s.thread p = .linked np) : FamInv s' := by
  refine h.of_parent (fun q => ?_) (fun q hq => ?_) (fun q hq => ?_) hlinked
  · rcases eq_or_ne q np with rfl | hne
    · exact hpar
    · exact (hother q hne).1
  · have hne : q ≠ np := by
      rintro rfl
      exact hnot hq
    rwa [(hother q hne).2]
  rcases eq_or_ne q np with rfl | hne
  · exact .inr (hchild hq)
  · rw [(hother q hne).2] at hq
    exact .inl hq

theorem of_setProc (h : FamInv s) {x : Proc} (htable : s'.table = (s.setProc p x).table)
    (hpar : x.parent = (s.table p).parent) (hkind : x.state.kind = (s.table p).state.kind)
    (hlinked : ∀ p np, s'.thread p = .linked np → s.thread p = .linked np) : FamInv s' := by
  refine h.of_kind (fun q => ?_) (fun q => ?_) hlinked <;> rw [htable] <;>
    rcases eq_or_ne q p with rfl | hne
  · rwa [table_setProc_self]
  · rw [table_setProc_of_ne x hne]
  · rwa [table_setProc_self]
  · rw [table_setProc_of_ne x hne]

theorem of_setProc_slot (h : FamInv s) {x : Proc} (htable : s'.table = (s.setProc p x).table)
    (hpar : x.parent = (s.table p).parent) (hnot : (s.table p).state.kind ≠ .live)
    (hchild : x.state.kind = .live ∨ x.state.kind = .zombie → ∃ q, (s.table p).parent = some q)
    (hlinked : ∀ p np, s'.thread p = .linked np → s.thread p = .linked np) : FamInv s' := by
  have hself : s'.table p = x := by rw [htable, table_setProc_self]
  refine h.of_slot (by rwa [hself]) (fun q hq => ?_) hnot (by rwa [hself]) hlinked
  rw [htable, table_setProc_of_ne x hq]
  exact ⟨rfl, rfl⟩

theorem exit (h : FamInv s) (hrun : (s.table p).state.kind = .live) (hp : p ≠ initproc)
    (hf : (s.thread p).forks = none) {t : Table} (he : Exits p s.table t)
    (htable : s'.table = t) (hthread : s'.thread = s.thread) : FamInv s' := by
  have hkind : ∀ q, q ≠ p → (t q).state.kind = (s.table q).state.kind :=
    fun q hq => (he.woken q hq).kind
  have hinit := (hkind initproc hp.symm).trans h.init
  refine ⟨fun r q hq => ?_, fun r hr hk => ?_, ?_, ?_, fun r hr => ?_, fun r np hth => ?_⟩
  · rw [htable] at hq ⊢
    rw [he.parent] at hq
    split at hq
    · cases hq
      exact hinit
    next hne =>
    have hqp : q ≠ p := by
      rintro rfl
      exact hne hq
    rw [hkind q hqp]
    exact h.parent r q hq
  · rw [htable] at hk ⊢
    have hk' : (s.table r).state.kind = .live ∨ (s.table r).state.kind = .zombie := by
      rcases eq_or_ne r p with rfl | hrp
      · exact .inl hrun
      · rwa [← hkind r hrp]
    rw [he.parent]
    split
    · exact ⟨initproc, rfl⟩
    · exact h.child r hr hk'
  · rw [htable]
    exact hinit
  · rw [htable, he.parent, h.initParent, if_neg nofun]
  · rw [htable, he.parent] at hr
    split at hr
    · next hpar =>
      cases hr
      rw [h.initParent] at hpar
      cases hpar
    · exact h.irrefl r hr
  · rw [hthread] at hth
    have hpar := h.linked r np hth
    have hne : r ≠ p := by
      rintro rfl
      rw [hth] at hf
      cases hf
    rw [htable, he.parent, if_neg, hpar]
    rw [hpar]
    exact fun hr => hne (Option.some.inj hr)

theorem reap (h : FamInv s) (hf : ForkInv s) (hz : (s.table q).state = .zombie)
    (htable : s'.table = (s.setProc q (s.table q).reaped).table)
    (hthread : s'.thread = (s.setThread p .user).thread) : FamInv s' := by
  have hself : s'.table q = (s.table q).reaped := by rw [htable, table_setProc_self]
  have hother : ∀ r, r ≠ q → s'.table r = s.table r := by
    intro r hr
    rw [htable, table_setProc_of_ne _ hr]
  have hlive : ∀ r, (s.table r).state.kind = .live → r ≠ q := by
    rintro r hr rfl
    rw [hz] at hr
    cases hr
  have hpar : ∀ r r', (s'.table r).parent = some r' → (s.table r).parent = some r' := by
    intro r r' hr
    rcases eq_or_ne r q with rfl | hne
    · rw [hself] at hr
      cases hr
    · rwa [hother r hne] at hr
  have hinit := hother initproc (hlive _ h.init)
  refine ⟨fun r r' hr => ?_, fun r hr hk => ?_, ?_, ?_, fun r hr => ?_, fun r np hth => ?_⟩
  · have hr' := h.parent r r' (hpar r r' hr)
    rw [hother r' (hlive r' hr')]
    exact hr'
  · have hne : r ≠ q := by
      rintro rfl
      rw [hself] at hk
      rcases hk with hk | hk <;> cases hk
    rw [hother r hne] at hk ⊢
    exact h.child r hr hk
  · rw [hinit]
    exact h.init
  · rw [hinit]
    exact h.initParent
  · exact h.irrefl r (hpar r r hr)
  rw [hthread] at hth
  have hth' := linked_setThread hth nofun
  have hne : np ≠ q := by
    rintro rfl
    exact nomatch (hf.embryo r np (by rw [hth']; rfl)).symm.trans hz
  rw [hother np hne]
  exact h.linked r np hth'

theorem link (h : FamInv s) (hf : ForkInv s) {np : Slot}
    (hlive : (s.table p).state.kind = .live) (hth : (s.thread p).forks = some np)
    (htable : s'.table = (s.setProc np { s.table np with parent := some p }).table)
    (hthread : s'.thread = (s.setThread p (.linked np)).thread) : FamInv s' := by
  have hembryo := hf.embryo p np hth
  have hself : s'.table np = { s.table np with parent := some p } := by
    rw [htable, table_setProc_self]
  have hother : ∀ r, r ≠ np → s'.table r = s.table r := by
    intro r hr
    rw [htable, table_setProc_of_ne _ hr]
  have hne : ∀ r, (s.table r).state.kind = .live → r ≠ np := by
    rintro r hr rfl
    rw [hembryo] at hr
    cases hr
  have hinit := hother initproc (hne _ h.init)
  have hkind : ∀ r, (s.table r).state.kind = .live → (s'.table r).state.kind = .live := by
    intro r hr
    rwa [hother r (hne r hr)]
  refine ⟨fun r r' hr => ?_, fun r hr hk => ?_, hkind _ h.init, ?_, fun r hr => ?_,
    fun r nr hthr => ?_⟩
  · rcases eq_or_ne r np with rfl | hrn
    · rw [hself] at hr
      cases hr
      exact hkind p hlive
    · rw [hother r hrn] at hr
      exact hkind r' (h.parent r r' hr)
  · rcases eq_or_ne r np with rfl | hrn
    · exact ⟨p, by rw [hself]⟩
    · rw [hother r hrn] at hk ⊢
      exact h.child r hr hk
  · rw [hinit]
    exact h.initParent
  · rcases eq_or_ne r np with rfl | hrn
    · rw [hself] at hr
      cases hr
      exact hne p hlive rfl
    · rw [hother r hrn] at hr
      exact h.irrefl r hr
  rw [hthread] at hthr
  have happly : (s.setThread p (.linked np)).thread r =
      if r = p then .linked np else s.thread r := update_apply ..
  rw [happly] at hthr
  split at hthr
  · next hrp =>
    cases hthr
    rw [hself, hrp]
  next hrp =>
  have hnr : nr ≠ np := by
    rintro rfl
    exact hrp (hf.once r p nr (by rw [hthr]; rfl) hth)
  rw [hother nr hnr]
  exact h.linked r nr hthr

theorem trans [DecidableEq C] (h : FamInv s) (hc : CpuInv s) (hf : ForkInv s)
    (ht : Trans s s') : FamInv s' := by
  have hrun : ∀ {c p}, (s.cpu c).proc = some p → (s.table p).state.kind = .live := by
    intro c p hon
    rw [hc.running c p hon]
    rfl
  have hsame : ∀ {p th}, th.forks = none → ∀ q np, (s.setThread p th).thread q = .linked np →
      s.thread q = .linked np := by
    intro p th hth q np hq
    refine linked_setThread hq ?_
    rintro np rfl
    cases hth
  cases ht with
  | ctl _ => exact h.of_kind (fun _ => rfl) (fun _ => rfl) fun _ _ => id
  | dispatch _ hr _ => exact h.of_setProc rfl rfl (by rw [hr]; rfl) fun _ _ => id
  | soft hw => exact h.of_kind (fun p => (hw p).2) (fun p => (hw p).1.kind) fun _ _ => id
  | yield hon => exact h.of_setProc rfl rfl (hrun hon).symm fun _ _ => id
  | sleep hon _ hs => exact h.of_setProc rfl rfl (hrun hon).symm (hsame hs.forks)
  | wake _ _ hth => exact h.of_setProc rfl rfl rfl (hsame hth)
  | exit hon hth hi => exact h.exit (hrun hon) hi hth (exitTable_spec hi s.table) rfl rfl
  | reap _ _ _ hz => exact h.reap hf hz rfl rfl
  | fail _ _ _ => exact h.of_kind (fun _ => rfl) (fun _ => rfl) (hsame rfl)
  | @alloc c p np t pid a k _ _ hu hnp hother =>
    have hpar : (t np).parent = (s.table np).parent := by rw [hnp]
    refine h.of_slot hpar (fun q hq => ?_) (by rw [hu]; exact nofun) (fun hk => ?_)
      fun q nq hq => linked_setThread (s := s) (p := p) hq nofun
    · change (t q).parent = _ ∧ (t q).state = _
      obtain ⟨b, hb⟩ := hother q hq
      rw [hb]
      exact ⟨rfl, rfl⟩
    · change (t np).state.kind = _ ∨ (t np).state.kind = _ at hk
      rw [hnp] at hk
      rcases hk with hk | hk <;> cases hk
  | @stack c p np _ hth =>
    refine h.of_kind (fun _ => rfl) (fun _ => rfl) fun q nq hq => ?_
    exact linked_setThread (linked_setThread hq nofun) nofun
  | link hon hth => exact h.link hf (hrun hon) (by rw [hth]; rfl) rfl rfl
  | @done c p np _ hth =>
    have hembryo := hf.embryo p np (by rw [hth]; rfl)
    refine h.of_setProc_slot rfl rfl (by rw [hembryo]; exact nofun) (fun _ => ?_) (hsame rfl)
    exact ⟨p, h.linked p np hth⟩
  | @free c p np _ hth _ =>
    have hembryo := hf.embryo p np hth
    refine h.of_setProc_slot rfl rfl (by rw [hembryo]; exact nofun) (fun hk => ?_) (hsame rfl)
    rcases hk with hk | hk <;> cases hk

end FamInv

/-! ### Sleeping in `wait` -/

namespace WaitInv

theorem of_sub (h : WaitInv s)
    (hsleep : ∀ p, s'.thread p = .waiting → (s'.table p).state = .sleeping →
      s.thread p = .waiting ∧ (s.table p).state = .sleeping ∧ (s'.table p).chan = (s.table p).chan)
    (hzombie : ∀ q p, (s'.table q).parent = some p → (s'.table q).state = .zombie →
      (s.table q).parent = some p ∧ (s.table q).state = .zombie) : WaitInv s' := by
  intro p hth hs
  obtain ⟨hth, hs, hchan⟩ := hsleep p hth hs
  obtain ⟨hproc, hno⟩ := h p hth hs
  refine ⟨hchan.trans hproc, fun q hq hz => ?_⟩
  obtain ⟨hq, hz⟩ := hzombie q p hq hz
  exact hno q hq hz

theorem waiting_setThread {th : Thread} (h : (s.setThread p th).thread q = .waiting) :
    q = p ∧ th = .waiting ∨ q ≠ p ∧ s.thread q = .waiting := by
  have happly : (s.setThread p th).thread q = if q = p then th else s.thread q :=
    update_apply ..
  rw [happly] at h
  split at h
  · next hq => exact .inl ⟨hq, h⟩
  · next hq => exact .inr ⟨hq, h⟩

theorem waiting_of_setThread {th : Thread} (hq : s'.thread q = .waiting)
    (hthread : s'.thread = (s.setThread p th).thread) (hth : th ≠ .waiting) :
    s.thread q = .waiting := by
  rw [hthread] at hq
  rcases waiting_setThread hq with ⟨-, hw⟩ | ⟨-, hw⟩
  · exact absurd hw hth
  · exact hw

theorem of_setProc (h : WaitInv s) {x : Proc} (htable : s'.table = (s.setProc p x).table)
    (hx : x.state ≠ .sleeping) (hz : x.state ≠ .zombie)
    (hthread : ∀ q, q ≠ p → s'.thread q = .waiting → s.thread q = .waiting) : WaitInv s' := by
  have hself : s'.table p = x := by rw [htable, table_setProc_self]
  have hother : ∀ q, q ≠ p → s'.table q = s.table q := by
    intro q hq
    rw [htable, table_setProc_of_ne x hq]
  refine h.of_sub (fun q hth hs => ?_) fun q r hq hq' => ?_
  · have hne : q ≠ p := by
      rintro rfl
      rw [hself] at hs
      exact hx hs
    rw [hother q hne] at hs ⊢
    exact ⟨hthread q hne hth, hs, rfl⟩
  have hne : q ≠ p := by
    rintro rfl
    rw [hself] at hq'
    exact hz hq'
  rw [hother q hne] at hq hq'
  exact ⟨hq, hq'⟩

theorem sleep (h : WaitInv s) {chan : Chan} {th : Thread} (hs : Sleeps s.table p chan th)
    (htable : s'.table =
      (s.setProc p { s.table p with chan := some chan, state := .sleeping }).table)
    (hthread : s'.thread = (s.setThread p th).thread) : WaitInv s' := by
  have hzombie : ∀ q r, (s'.table q).parent = some r → (s'.table q).state = .zombie →
      (s.table q).parent = some r ∧ (s.table q).state = .zombie := by
    intro q r hq hz
    have hne : q ≠ p := by
      rintro rfl
      rw [htable, table_setProc_self] at hz
      cases hz
    rw [htable, table_setProc_of_ne _ hne] at hq hz
    exact ⟨hq, hz⟩
  intro q hth hq
  rw [hthread] at hth
  rcases waiting_setThread hth with ⟨rfl, rfl⟩ | ⟨hne, hth⟩
  · obtain ⟨rfl, hno⟩ := hs
    refine ⟨by rw [htable, table_setProc_self], fun r hr hz => ?_⟩
    obtain ⟨hr, hz⟩ := hzombie r q hr hz
    exact hno r hr hz
  rw [htable, table_setProc_of_ne _ hne] at hq
  obtain ⟨hchan, hno⟩ := h q hth hq
  refine ⟨by rw [htable, table_setProc_of_ne _ hne, hchan], fun r hr hz => ?_⟩
  obtain ⟨hr, hz⟩ := hzombie r q hr hz
  exact hno r hr hz

theorem exit (h : WaitInv s) (hfam : FamInv s) {t : Table} (he : Exits p s.table t)
    (htable : s'.table = t) (hthread : s'.thread = s.thread) : WaitInv s' := by
  intro q hth hs
  rw [hthread] at hth
  rw [htable] at hs ⊢
  have hqp : q ≠ p := by
    rintro rfl
    exact nomatch he.zombie.symm.trans hs
  obtain ⟨hchan, hno⟩ := h q hth ((he.woken q hqp).sleeping hs)
  refine ⟨(he.woken q hqp).chan.trans hchan, fun r hr hz => ?_⟩
  rw [he.parent] at hr
  rcases eq_or_ne r p with rfl | hrp
  · -- the process that exits is not its own parent
    rw [if_neg (hfam.irrefl r)] at hr
    exact he.wakes q hr hs hchan
  have hz' : (s.table r).state = .zombie := by
    by_contra hne
    rcases (he.woken r hrp).state with hsame | ⟨-, hwoken⟩
    · exact hne (hsame.symm.trans hz)
    · exact nomatch hwoken.symm.trans hz
  split at hr
  · next hpar =>
    cases hr
    exact he.wakesInit r hpar hz' hs hchan
  · exact hno r hr hz'

theorem trans [DecidableEq C] (h : WaitInv s) (hc : CpuInv s) (hf : ForkInv s) (hfam : FamInv s)
    (ht : Trans s s') : WaitInv s' := by
  have hthread : ∀ {p th q}, q ≠ p → (s.setThread p th).thread q = .waiting →
      s.thread q = .waiting := by
    intro p th q hne hth
    rcases waiting_setThread hth with ⟨rfl, -⟩ | ⟨-, hth⟩
    · exact absurd rfl hne
    · exact hth
  cases ht with
  | ctl _ => exact h
  | dispatch _ _ _ | yield _ => exact h.of_setProc rfl nofun nofun fun _ _ => id
  | soft hw =>
    refine h.of_sub (fun p hth hs => ⟨hth, (hw p).1.sleeping hs, (hw p).1.chan⟩) fun q p hq hz => ?_
    refine ⟨(hw q).2.symm.trans hq, ?_⟩
    rcases (hw q).1.state with hsame | ⟨-, hwoken⟩
    · exact hsame.symm.trans hz
    · exact nomatch hwoken.symm.trans hz
  | sleep _ _ hs => exact h.sleep hs rfl rfl
  | @wake c p th hon _ _ =>
    have hrun := hc.running c p hon
    refine h.of_setProc rfl ?_ ?_ fun q hq => hthread hq
    · change (s.table p).state ≠ _
      rw [hrun]
      exact nofun
    · change (s.table p).state ≠ _
      rw [hrun]
      exact nofun
  | exit _ _ hi => exact h.exit hfam (exitTable_spec hi s.table) rfl rfl
  | reap _ _ _ _ | done _ _ | free _ _ _ =>
    exact h.of_setProc rfl nofun nofun fun q _ hq => waiting_of_setThread hq rfl nofun
  | fail _ _ _ =>
    exact h.of_sub (fun q hq hs => ⟨waiting_of_setThread hq rfl nofun, hs, rfl⟩)
      fun _ _ hq hz => ⟨hq, hz⟩
  | @alloc c p np t pid a k _ _ hu hnp hother =>
    have hne : ∀ q, (t q).state ≠ .embryo → ∃ a, t q = { s.table q with priority := a } := by
      intro q hq
      refine hother q ?_
      rintro rfl
      rw [hnp] at hq
      exact hq rfl
    refine h.of_sub (fun q hq hs => ⟨waiting_of_setThread hq rfl nofun, ?_⟩) fun q r hr hz => ?_
    · change (t q).state = _ at hs
      change _ ∧ (t q).chan = _
      obtain ⟨b, hb⟩ := hne q (by rw [hs]; exact nofun)
      rw [hb] at hs ⊢
      exact ⟨hs, rfl⟩
    change (t q).parent = _ at hr
    change (t q).state = _ at hz
    obtain ⟨b, hb⟩ := hne q (by rw [hz]; exact nofun)
    rw [hb] at hr hz
    exact ⟨hr, hz⟩
  | @stack c p np _ _ =>
    refine h.of_sub (fun q hq hs => ⟨?_, hs, rfl⟩) fun _ _ hq hz => ⟨hq, hz⟩
    have hq' := waiting_of_setThread (s := s.setThread np .user) hq rfl nofun
    exact waiting_of_setThread hq' rfl nofun
  | @link c p np _ hth =>
    have hembryo := hf.embryo p np (by rw [hth]; rfl)
    have hnot : ∀ x : ProcState, x ≠ .embryo → (s.table np).state ≠ x :=
      fun x hx hs => hx (hs.symm.trans hembryo)
    exact h.of_setProc rfl (hnot _ nofun) (hnot _ nofun)
      fun q _ hq => waiting_of_setThread hq rfl nofun

end WaitInv

/-! ### What has happened -/

/-- An event of another kind than `exit` and `wait`. -/
def Event.Quiet : Event C → Prop
  | .dispatched .. => True
  | .slept .. => True
  | _ => False

theorem unreaped_congr {t t' : Table} (hstate : (t' p).state = .zombie ↔ (t p).state = .zombie)
    (hpid : (t p).state = .zombie → (t' p).pid = (t p).pid) : unreaped t' p = unreaped t p := by
  unfold unreaped
  by_cases hz : (t p).state = .zombie
  · rw [if_pos hz, if_pos (hstate.mpr hz), hpid hz]
  · rw [if_neg hz, if_neg fun h => hz (hstate.mp h)]

theorem Woken.unreaped {t t' : Table} (h : Woken (t p) (t' p)) : unreaped t' p = unreaped t p := by
  refine unreaped_congr ?_ fun _ => h.pid
  rcases h.state with hsame | ⟨hs, hr⟩
  · rw [hsame]
  · rw [hs, hr]
    exact ⟨nofun, nofun⟩

theorem unreaped_setProc {x : Proc} (hp : (s.table p).state ≠ .zombie) (hx : x.state ≠ .zombie)
    (q : Slot) : unreaped (s.setProc p x).table q = unreaped s.table q := by
  rcases eq_or_ne q p with rfl | hne
  · refine unreaped_congr ?_ fun hz => absurd hz hp
    rw [table_setProc_self]
    exact iff_of_false hx hp
  · refine unreaped_congr ?_ fun _ => ?_ <;> rw [table_setProc_of_ne x hne]

namespace HistInv

theorem of_same (h : HistInv s) (hhist : s'.hist = s.hist)
    (hun : ∀ p, unreaped s'.table p = unreaped s.table p) : HistInv s' := by
  refine ⟨fun p => ?_, ?_, ?_⟩
  · rw [hhist, hun]
    exact h.exits p
  · rw [hhist]
    exact h.reaped
  · rw [hhist]
    exact h.failed

theorem of_quiet (h : HistInv s) {e : Event C} (hhist : s'.hist = e :: s.hist) (he : e.Quiet)
    (hun : ∀ p, unreaped s'.table p = unreaped s.table p) : HistInv s' := by
  refine ⟨fun p => ?_, fun p caller ret parent hm => ?_, fun p children killed hm => ?_⟩
  · have hlists : exitPids p s'.hist = exitPids p s.hist ∧
        reapPids p s'.hist = reapPids p s.hist := by
      rw [hhist]
      cases e <;> first | exact ⟨rfl, rfl⟩ | exact he.elim
    rw [hlists.1, hlists.2, hun]
    exact h.exits p
  · rw [hhist] at hm
    rcases mem_cons.mp hm with rfl | hm
    · exact he.elim
    · exact h.reaped p caller ret parent hm
  · rw [hhist] at hm
    rcases mem_cons.mp hm with rfl | hm
    · exact he.elim
    · exact h.failed p children killed hm

theorem exit (h : HistInv s) (hp : (s.table p).state ≠ .zombie) {t : Table}
    (he : Exits p s.table t) (htable : s'.table = t)
    (hhist : s'.hist = .exited p (s.table p).pid :: s.hist) : HistInv s' := by
  refine ⟨fun q => ?_, fun q caller ret parent hm => ?_, fun q children killed hm => ?_⟩
  · rw [hhist, htable]
    change (if p = q then _ :: exitPids q s.hist else exitPids q s.hist) =
      unreaped t q ++ reapPids q s.hist
    rcases eq_or_ne q p with rfl | hne
    · have hold := h.exits q
      rw [unreaped, if_neg hp, nil_append] at hold
      rw [if_pos rfl, hold, unreaped, if_pos he.zombie, he.pid]
      rfl
    · rw [if_neg hne.symm, (he.woken q hne).unreaped]
      exact h.exits q
  · rw [hhist] at hm
    exact h.reaped q caller ret parent ((mem_cons.mp hm).resolve_left nofun)
  · rw [hhist] at hm
    exact h.failed q children killed ((mem_cons.mp hm).resolve_left nofun)

theorem reap (h : HistInv s) (hpar : (s.table q).parent = some p) (hz : (s.table q).state = .zombie)
    (htable : s'.table = (s.setProc q (s.table q).reaped).table)
    (hhist : s'.hist = .reaped q p (s.table q).pid (s.table q).parent :: s.hist) : HistInv s' := by
  refine ⟨fun r => ?_, fun r caller ret parent hm => ?_, fun r children killed hm => ?_⟩
  · rw [hhist, htable]
    change exitPids r s.hist = unreaped _ r ++
      if q = r then _ :: reapPids r s.hist else reapPids r s.hist
    rcases eq_or_ne r q with rfl | hne
    · have hold := h.exits r
      rw [unreaped, if_pos hz] at hold
      rw [if_pos rfl, hold, unreaped, table_setProc_self]
      rfl
    rw [if_neg hne.symm, h.exits r]
    congr 1
    exact (unreaped_congr (by rw [table_setProc_of_ne _ hne])
      fun _ => by rw [table_setProc_of_ne _ hne]).symm
  · rw [hhist] at hm
    rcases mem_cons.mp hm with heq | hm
    · cases heq
      exact hpar
    · exact h.reaped r caller ret parent hm
  · rw [hhist] at hm
    exact h.failed r children killed ((mem_cons.mp hm).resolve_left nofun)

theorem fail (h : HistInv s) {children killed : Bool} (hfail : children = false ∨ killed = true)
    (htable : s'.table = s.table) (hhist : s'.hist = .waitFailed p children killed :: s.hist) :
    HistInv s' := by
  refine ⟨fun q => ?_, fun q caller ret parent hm => ?_, fun q children' killed' hm => ?_⟩
  · rw [hhist, htable]
    exact h.exits q
  · rw [hhist] at hm
    exact h.reaped q caller ret parent ((mem_cons.mp hm).resolve_left nofun)
  rw [hhist] at hm
  rcases mem_cons.mp hm with heq | hm
  · cases heq
    exact hfail
  · exact h.failed q children' killed' hm

theorem trans [DecidableEq C] (h : HistInv s) (hc : CpuInv s) (hf : ForkInv s) (ht : Trans s s') :
    HistInv s' := by
  have hnot : ∀ {x : ProcState} {p}, (s.table p).state = x → x ≠ .zombie →
      (s.table p).state ≠ .zombie := fun hp hx hr => hx (hp.symm.trans hr)
  have hrun : ∀ {c p}, (s.cpu c).proc = some p → (s.table p).state ≠ .zombie :=
    fun hon => hnot (hc.running _ _ hon) nofun
  have hembryo : ∀ {p np}, (s.thread p).forks = some np → (s.table np).state ≠ .zombie :=
    fun hp => hnot (hf.embryo _ _ hp) nofun
  cases ht with
  | ctl _ | stack _ _ => exact h.of_same rfl fun _ => rfl
  | dispatch _ hr _ => exact h.of_quiet rfl (by trivial) (unreaped_setProc (hnot hr nofun) nofun)
  | soft hw => exact h.of_same rfl fun p => (hw p).1.unreaped
  | yield hon => exact h.of_same rfl (unreaped_setProc (hrun hon) nofun)
  | sleep hon _ _ => exact h.of_quiet rfl (by trivial) (unreaped_setProc (hrun hon) nofun)
  | wake hon _ _ => exact h.of_same rfl (unreaped_setProc (hrun hon) (hrun hon))
  | exit hon _ hi => exact h.exit (hrun hon) (exitTable_spec hi s.table) rfl rfl
  | reap _ _ hpar hz => exact h.reap hpar hz rfl rfl
  | fail _ _ hfail => exact h.fail hfail rfl rfl
  | @alloc c p np t pid a k _ _ hu hnp hother =>
    refine h.of_same rfl fun q => ?_
    change unreaped t q = _
    rcases eq_or_ne q np with rfl | hne
    · refine unreaped_congr ?_ fun hz => absurd hz (hnot hu nofun)
      rw [hnp]
      exact iff_of_false nofun (hnot hu nofun)
    · obtain ⟨b, hb⟩ := hother q hne
      refine unreaped_congr ?_ fun _ => ?_ <;> rw [hb]
  | link _ hth =>
    have hz := hembryo (congrArg Thread.forks hth)
    exact h.of_same rfl (unreaped_setProc hz hz)
  | done _ hth => exact h.of_same rfl (unreaped_setProc (hembryo (congrArg Thread.forks hth)) nofun)
  | free _ hth _ => exact h.of_same rfl (unreaped_setProc (hembryo hth) nofun)

end HistInv

/-! ### Every run -/

variable [DecidableEq C]

end Xv6.Sched
