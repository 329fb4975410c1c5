import Xv6.Lib.Run

/-!
# Monitors

Code that runs under one spin lock and sleeps on channels. Any number of processes call it. A
process inside the critical section takes its steps one at a time; meanwhile others may call, wait
for the lock, or kill a process. Sleeping gives the lock up in the same step, and a process that has
been woken acquires the lock again before it goes on. A kill sets a flag and ends a sleep.

The code is a function from a program point and the shared data to the new data and what happens
next. Two rules say what has to be checked of the code, one step at a time, for facts that hold
in every interleaving.
-/

namespace Monitor

open Function

/-- What happens after a step of the code in the critical section. -/
inductive Effect (Pc C R : Type) where
  | goto (pc : Pc)
  | wakeup (c : C) (pc : Pc)
  /-- Release the lock and sleep; go on at `pc` when woken, with the lock. -/
  | sleep (c : C) (pc : Pc)
  /-- Release the lock and return. -/
  | leave (r : R)

/-- The code of a critical section. `entry` says at which points calls start; `act` is told whether
the process has been killed. -/
structure Code (D Pc C R : Type) where
  entry : Pc → Bool
  act : Bool → Pc → D → Option (D × Effect Pc C R)

/-- Where a process is. -/
inductive Phase (Pc R : Type) where
  /-- Outside; `r` is what its last call returned. -/
  | out (r : R)
  /-- About to acquire the lock, and then at `pc`. -/
  | wants (pc : Pc)
  | inside (pc : Pc)

/-- What the last call returned. -/
def Phase.returned {Pc R : Type} : Phase Pc R → Option R
  | .out r => some r
  | .wants _ => none
  | .inside _ => none

theorem Phase.eq_out {Pc R : Type} {ph : Phase Pc R} {r : R} (h : ph.returned = some r) :
    ph = .out r := by
  cases ph with
  | out => exact congrArg Phase.out (Option.some.inj h)
  | wants | inside => cases h

structure Proc (Pc C R : Type) where
  phase : Phase Pc R
  killed : Bool
  /-- The channel that the process sleeps on. -/
  chan : Option C

structure State (P D Pc C R : Type) where
  data : D
  lock : Option P
  proc : P → Proc Pc C R

inductive Action (P Pc : Type) where
  | call (p : P) (pc : Pc)
  | run (p : P)
  | kill (p : P)

section Step

variable {P D Pc C R : Type} [DecidableEq P] [DecidableEq C]

/-- Wake the processes that sleep on a channel. -/
def awaken (c : C) (procs : P → Proc Pc C R) (p : P) : Proc Pc C R :=
  if (procs p).chan = some c then { procs p with chan := none } else procs p

def moveTo (procs : P → Proc Pc C R) (p : P) (ph : Phase Pc R) : P → Proc Pc C R :=
  update procs p { procs p with phase := ph }

def fallAsleep (procs : P → Proc Pc C R) (p : P) (c : C) (pc : Pc) : P → Proc Pc C R :=
  update procs p { procs p with phase := .wants pc, chan := some c }

/-- Mark a process, and end its sleep. -/
def kill (procs : P → Proc Pc C R) (p : P) : P → Proc Pc C R :=
  update procs p { procs p with killed := true, chan := none }

/-- What a step of `p` in the critical section does to the state. -/
def perform (p : P) (d : D) (s : State P D Pc C R) : Effect Pc C R → State P D Pc C R
  | .goto pc => { s with data := d, proc := moveTo s.proc p (.inside pc) }
  | .wakeup c pc => { s with data := d, proc := moveTo (awaken c s.proc) p (.inside pc) }
  | .sleep c pc => { data := d, lock := none, proc := fallAsleep s.proc p c pc }
  | .leave r => { data := d, lock := none, proc := moveTo s.proc p (.out r) }

def step (m : Code D Pc C R) (s : State P D Pc C R) : Action P Pc → Option (State P D Pc C R)
  | .call p pc =>
    match (s.proc p).phase, m.entry pc with
    | .out _, true => some { s with proc := moveTo s.proc p (.wants pc) }
    | _, _ => none
  | .run p =>
    match (s.proc p).chan, (s.proc p).phase with
    | none, .wants pc =>
      if s.lock.isNone then some { s with lock := some p, proc := moveTo s.proc p (.inside pc) }
      else none
    | none, .inside pc =>
      (m.act (s.proc p).killed pc s.data).map fun x => perform p x.1 s x.2
    | _, _ => none
  | .kill p => some { s with proc := kill s.proc p }

/-- A condition on the program point of a process, if it is inside. -/
def Phase.Allows (f : Pc → Prop) : Phase Pc R → Prop
  | .out _ => True
  | .wants _ => True
  | .inside pc => f pc

instance (f : Pc → Prop) [∀ pc, Decidable (f pc)] (ph : Phase Pc R) : Decidable (ph.Allows f) := by
  unfold Phase.Allows
  split <;> infer_instance

/-- A condition on the steps in the critical section, as a condition on actions. -/
def Permits (ok : Bool → Pc → D → Prop) (s : State P D Pc C R) : Action P Pc → Prop
  | .call _ _ => True
  | .run p => (s.proc p).phase.Allows fun pc => ok (s.proc p).killed pc s.data
  | .kill _ => True

instance (ok : Bool → Pc → D → Prop) [∀ k pc d, Decidable (ok k pc d)] (s : State P D Pc C R)
    (a : Action P Pc) : Decidable (Permits ok s a) := by
  unfold Permits
  split <;> infer_instance

/-- Nobody has called yet. -/
structure Fresh (I : D → Prop) (s : State P D Pc C R) : Prop where
  data : I s.data
  lock : s.lock = none
  out : ∀ p, ∃ r, (s.proc p).phase = .out r
  awake : ∀ p, (s.proc p).chan = none

end Step

section Rules

variable {P D Pc C R : Type} [DecidableEq P] [DecidableEq C] {m : Code D Pc C R}
  {ok : Bool → Pc → D → Prop} {I : D → Prop} {K : Pc → D → Prop} {W : C → D → Prop}
  {owes : C → Pc → Prop} {s s' : State P D Pc C R} {init : State P D Pc C R → Prop}

/-! ### The cases of a step -/

/-- How a step may change the state. -/
inductive Trans (m : Code D Pc C R) (ok : Bool → Pc → D → Prop) (s : State P D Pc C R) :
    State P D Pc C R → Prop
  | call {p : P} {pc : Pc} {r : R} : (s.proc p).phase = .out r → m.entry pc = true →
      Trans m ok s { s with proc := moveTo s.proc p (.wants pc) }
  | acquire {p : P} {pc : Pc} : (s.proc p).phase = .wants pc → s.lock = none →
      Trans m ok s { s with lock := some p, proc := moveTo s.proc p (.inside pc) }
  | act {p : P} {pc : Pc} {d : D} {e : Effect Pc C R} : (s.proc p).phase = .inside pc →
      (s.proc p).chan = none → ok (s.proc p).killed pc s.data →
      m.act (s.proc p).killed pc s.data = some (d, e) → Trans m ok s (perform p d s e)
  | kill {p : P} : Trans m ok s { s with proc := Monitor.kill s.proc p }

theorem trans_of_step {a : Action P Pc} (hok : Permits ok s a) (h : step m s a = some s') :
    Trans m ok s s' := by
  cases a with
  | call p pc =>
    rw [step] at h
    split at h
    case h_1 r hph hentry =>
      cases h
      exact .call hph hentry
    case h_2 => cases h
  | run p =>
    rw [step] at h
    split at h
    case h_1 pc _ hph =>
      split at h
      case isTrue hl =>
        cases h
        exact .acquire hph (Option.isNone_iff_eq_none.mp hl)
      case isFalse => cases h
    case h_2 pc hch hph =>
      obtain ⟨⟨d, e⟩, hact, rfl⟩ := Option.map_eq_some_iff.mp h
      rw [Permits, hph] at hok
      exact .act hph hch hok hact
    case h_3 => cases h
  | kill p =>
    cases h
    exact .kill

/-! ### Phases and channels after a step -/

section Lemmas

omit [DecidableEq C]

theorem moveTo_self (procs : P → Proc Pc C R) (p : P) (ph : Phase Pc R) :
    (moveTo procs p ph p).phase = ph := by
  rw [moveTo, update_self]

variable {procs : P → Proc Pc C R}

theorem phase_moveTo_of_ne {p q : P} (h : q ≠ p) (ph : Phase Pc R) :
    (moveTo procs p ph q).phase = (procs q).phase := by
  rw [moveTo, update_of_ne h]

@[simp] theorem chan_moveTo (procs : P → Proc Pc C R) (p q : P) (ph : Phase Pc R) :
    (moveTo procs p ph q).chan = (procs q).chan := by
  rcases eq_or_ne q p with rfl | h
  · rw [moveTo, update_self]
  · rw [moveTo, update_of_ne h]

theorem phase_kill (procs : P → Proc Pc C R) (p q : P) :
    (kill procs p q).phase = (procs q).phase := by
  rcases eq_or_ne q p with rfl | h
  · rw [kill, update_self]
  · rw [kill, update_of_ne h]

theorem chan_kill {p q : P} {c : C}
    (h : (kill procs p q).chan = some c) : (procs q).chan = some c := by
  rcases eq_or_ne q p with rfl | hq
  · rw [kill, update_self] at h
    cases h
  · rwa [kill, update_of_ne hq] at h

theorem phase_fallAsleep (procs : P → Proc Pc C R) (p : P) (c : C) (pc : Pc) :
    (fallAsleep procs p c pc p).phase = .wants pc := by
  rw [fallAsleep, update_self]

theorem fallAsleep_of_ne {p q : P} (h : q ≠ p) (c : C) (pc : Pc) :
    fallAsleep procs p c pc q = procs q := by
  rw [fallAsleep, update_of_ne h]

end Lemmas

omit [DecidableEq P] in
@[simp] theorem phase_awaken (c : C) (procs : P → Proc Pc C R) (p : P) :
    (awaken c procs p).phase = (procs p).phase := by
  unfold awaken
  split <;> rfl

omit [DecidableEq P] in
theorem chan_awaken {c c' : C} {procs : P → Proc Pc C R} {p : P}
    (h : (awaken c procs p).chan = some c') : (procs p).chan = some c' ∧ c' ≠ c := by
  unfold awaken at h
  split at h
  · cases h
  · rename_i hne
    exact ⟨h, fun he => hne (he ▸ h)⟩

/-- The phase of the process that takes a step in the critical section. -/
def Effect.next : Effect Pc C R → Phase Pc R
  | .goto pc => .inside pc
  | .wakeup _ pc => .inside pc
  | .sleep _ pc => .wants pc
  | .leave r => .out r

@[simp] theorem data_perform (p : P) (d : D) (s : State P D Pc C R) (e : Effect Pc C R) :
    (perform p d s e).data = d := by
  cases e <;> rfl

theorem phase_perform_self (p : P) (d : D) (s : State P D Pc C R) (e : Effect Pc C R) :
    ((perform p d s e).proc p).phase = e.next := by
  cases e with
  | goto | wakeup | leave => exact moveTo_self _ p _
  | sleep c pc => exact phase_fallAsleep _ p c pc

theorem phase_perform_of_ne {p q : P} (h : q ≠ p) (d : D) (s : State P D Pc C R)
    (e : Effect Pc C R) : ((perform p d s e).proc q).phase = (s.proc q).phase := by
  cases e with
  | goto | leave => exact phase_moveTo_of_ne h _
  | wakeup c pc => exact (phase_moveTo_of_ne h _).trans (phase_awaken c s.proc q)
  | sleep c pc => exact congrArg Proc.phase (fallAsleep_of_ne h c pc)

/-! ### The invariant rule -/

/-- What is known when a step has been taken. -/
def Effect.After (I : D → Prop) (K : Pc → D → Prop) (d : D) : Effect Pc C R → Prop
  | .goto pc => K pc d
  | .wakeup _ pc => K pc d
  | .sleep _ pc => ∀ d', I d' → K pc d'
  | .leave _ => True

/-- The code keeps `I`, given that `K` holds at each program point. -/
structure Sound (m : Code D Pc C R) (ok : Bool → Pc → D → Prop) (I : D → Prop)
    (K : Pc → D → Prop) : Prop where
  entry : ∀ {pc d}, m.entry pc = true → I d → K pc d
  act : ∀ {k pc d d' e}, ok k pc d → I d → K pc d → m.act k pc d = some (d', e) →
    I d' ∧ e.After I K d'

/-- What is known of a process in some phase. -/
def Phase.Known (I : D → Prop) (K : Pc → D → Prop) (d : D) (holds : Prop) : Phase Pc R → Prop
  | .out _ => True
  | .wants pc => ∀ d', I d' → K pc d'
  | .inside pc => holds ∧ K pc d

/-- The invariant of a monitor: a process inside has the lock. -/
structure Inv (I : D → Prop) (K : Pc → D → Prop) (s : State P D Pc C R) : Prop where
  data : I s.data
  known : ∀ p, (s.proc p).phase.Known I K s.data (s.lock = some p)

omit [DecidableEq P] [DecidableEq C] in
theorem Inv.inside (h : Inv I K s) {p : P} {pc : Pc} (hp : (s.proc p).phase = .inside pc) :
    s.lock = some p ∧ K pc s.data := by
  have hk := h.known p
  rwa [hp] at hk

omit [DecidableEq P] [DecidableEq C] in
theorem Fresh.inv (h : Fresh I s) : Inv I K s where
  data := h.data
  known := by
    intro p
    obtain ⟨r, hr⟩ := h.out p
    rw [hr]
    trivial

omit [DecidableEq P] in
/-- A process inside is the only one: what is known of the others does not mention the data. -/
theorem Phase.Known.of_ne {p q : P} {d d' : D} {ph : Phase Pc R} {l l' : Option P} (hq : q ≠ p)
    (hl : l = some p) (h : ph.Known I K d (l = some q)) : ph.Known I K d' (l' = some q) := by
  cases ph with
  | out r => trivial
  | wants pc => exact h
  | inside pc => exact absurd (Option.some.inj (h.1.symm.trans hl)) hq

/-- **One step keeps the invariant.** -/
theorem Inv.trans (hm : Sound m ok I K) (hi : Inv I K s) (h : Trans m ok s s') : Inv I K s' := by
  cases h with
  | @call p pc r hp hentry =>
    refine ⟨hi.data, fun q => ?_⟩
    rcases eq_or_ne q p with rfl | hq
    · rw [moveTo_self]
      exact fun d hd => hm.entry hentry hd
    · rw [phase_moveTo_of_ne hq]
      exact hi.known q
  | @acquire p pc hp hl =>
    refine ⟨hi.data, fun q => ?_⟩
    rcases eq_or_ne q p with rfl | hq
    · have hk := hi.known q
      rw [hp] at hk
      rw [moveTo_self]
      exact ⟨rfl, hk s.data hi.data⟩
    rw [phase_moveTo_of_ne hq]
    have hk := hi.known q
    cases hph : (s.proc q).phase with
    | out r => trivial
    | wants pc' =>
      rw [hph] at hk
      exact hk
    | inside pc' => exact absurd (hl.symm.trans (hi.inside hph).1) nofun
  | @act p pc d e hp hch hok hact =>
    obtain ⟨hlock, hK⟩ := hi.inside hp
    obtain ⟨hI, hafter⟩ := hm.act hok hi.data hK hact
    refine ⟨(data_perform p d s e).symm ▸ hI, fun q => ?_⟩
    rcases eq_or_ne q p with rfl | hq
    · rw [phase_perform_self, data_perform]
      cases e with
      | goto pc' => exact ⟨hlock, hafter⟩
      | wakeup c pc' => exact ⟨hlock, hafter⟩
      | sleep c pc' => exact hafter
      | leave r => trivial
    · rw [phase_perform_of_ne hq]
      exact (hi.known q).of_ne hq hlock
  | @kill p =>
    refine ⟨hi.data, fun q => ?_⟩
    rw [phase_kill]
    exact hi.known q

/-- Nobody touches the data while a process is inside but the process itself. -/
theorem Inv.inside_step (hi : Inv I K s) {p : P} {pc : Pc} (hp : (s.proc p).phase = .inside pc)
    (h : Trans m ok s s') : s'.data = s.data ∧ (s'.proc p).phase = .inside pc ∨
      ∃ e, m.act (s.proc p).killed pc s.data = some (s'.data, e) ∧ (s'.proc p).phase = e.next := by
  cases h with
  | @call q pc' r hq _ =>
    have hne : p ≠ q := fun he => nomatch (he ▸ hp).symm.trans hq
    exact .inl ⟨rfl, (phase_moveTo_of_ne hne _).trans hp⟩
  | @acquire q pc' hq hl => exact nomatch hl.symm.trans (hi.inside hp).1
  | @act q pc' d e hq _ _ hact =>
    obtain rfl : q = p := Option.some.inj ((hi.inside hq).1.symm.trans (hi.inside hp).1)
    cases hq.symm.trans hp
    exact .inr ⟨e, (data_perform q d s e).symm ▸ hact, phase_perform_self q d s e⟩
  | @kill q => exact .inl ⟨rfl, (phase_kill s.proc q p).trans hp⟩

/-- The data changes only by a step of a process inside. -/
theorem Trans.data_eq (h : Trans m ok s s') (hs : ∀ p pc, (s.proc p).phase ≠ .inside pc) :
    s'.data = s.data := by
  cases h with
  | act hp => exact absurd hp (hs _ _)
  | call | acquire | kill => rfl

omit [DecidableEq P] [DecidableEq C] in
theorem permits_of_forall (hok : ∀ k pc d, ok k pc d) (s : State P D Pc C R) (a : Action P Pc) :
    Permits ok s a := by
  cases a with
  | call p pc => trivial
  | run p =>
    rw [Permits]
    cases (s.proc p).phase with
    | out r => trivial
    | wants pc => trivial
    | inside pc => exact hok _ _ _
  | kill p => trivial

/-- **Invariant rule for monitors.** -/
theorem Reachable.inv (hm : Sound m ok I K) (hinit : ∀ s, init s → Fresh I s)
    (h : Run.Reachable (step m) (Permits ok) init s) : Inv I K s :=
  h.invariant (fun s hs => (hinit s hs).inv)
    fun _ _ _ hi hok hs => hi.trans hm (trans_of_step hok hs)

/-! ### The wakeup rule -/

/-- The reason to sleep on `c` persists, or its end will be announced. -/
def Effect.Settled (W : C → D → Prop) (owes : C → Pc → Prop) (c : C) (d : D) :
    Effect Pc C R → Prop
  | .goto pc => W c d ∨ owes c pc
  | .wakeup c' pc => c' = c ∨ W c d ∨ owes c pc
  | .sleep _ _ => W c d
  | .leave _ => W c d

/-- `W c` is the reason to sleep on `c`. A process sleeps only with a reason, and one that ends the
reason owes a wakeup, which it gives before it leaves the lock. -/
structure Wakes (m : Code D Pc C R) (ok : Bool → Pc → D → Prop) (I : D → Prop)
    (K : Pc → D → Prop) (W : C → D → Prop) (owes : C → Pc → Prop) : Prop where
  sleep : ∀ {k pc d d' c pc'}, I d → K pc d → m.act k pc d = some (d', .sleep c pc') → W c d'
  act : ∀ {k pc d d' e} (c : C), ok k pc d → I d → K pc d → m.act k pc d = some (d', e) →
    W c d ∨ owes c pc → e.Settled W owes c d'

/-- Somebody inside owes a wakeup. -/
def Owed (owes : C → Pc → Prop) (s : State P D Pc C R) (c : C) : Prop :=
  ∃ p pc, (s.proc p).phase = .inside pc ∧ owes c pc

/-- A process sleeps with a reason, or somebody owes it a wakeup. -/
def Excused (W : C → D → Prop) (owes : C → Pc → Prop) (s : State P D Pc C R) : Prop :=
  ∀ p c, (s.proc p).chan = some c → W c s.data ∨ Owed owes s c

omit [DecidableEq P] [DecidableEq C] in
theorem Owed.of_phase {c : C} (h : Owed owes s c)
    (hs : ∀ q pc, (s.proc q).phase = .inside pc → (s'.proc q).phase = .inside pc) :
    Owed owes s' c := by
  obtain ⟨q, pc, hq, ho⟩ := h
  exact ⟨q, pc, hs q pc hq, ho⟩

/-- A sleeper after a step in the critical section slept before, or is the process that goes to
sleep; it has not been woken. -/
theorem chan_perform {p q : P} {d : D} {e : Effect Pc C R} {c : C}
    (h : ((perform p d s e).proc q).chan = some c) :
    (∃ pc, e = .sleep c pc) ∨ (s.proc q).chan = some c ∧ ∀ pc, e ≠ .wakeup c pc := by
  cases e with
  | goto | leave => exact .inr ⟨(chan_moveTo _ p q _).symm.trans h, nofun⟩
  | wakeup c' pc =>
    obtain ⟨hq, hne⟩ := chan_awaken ((chan_moveTo _ p q _).symm.trans h)
    exact .inr ⟨hq, fun pc' he => hne (by cases he; rfl)⟩
  | sleep c' pc =>
    rcases eq_or_ne q p with rfl | hq
    · simp only [perform, fallAsleep, update_self] at h
      cases h
      exact .inl ⟨pc, rfl⟩
    · exact .inr ⟨(congrArg Proc.chan (fallAsleep_of_ne hq c' pc)).symm.trans h, nofun⟩

/-- **One step keeps every sleeper excused.** -/
theorem Excused.trans (hw : Wakes m ok I K W owes) (hi : Inv I K s) (hx : Excused W owes s)
    (h : Trans m ok s s') : Excused W owes s' := by
  cases h with
  | @call p pc r hp hentry | @acquire p pc hp hl =>
    intro q c hq
    rw [chan_moveTo] at hq
    refine (hx q c hq).imp_right fun ho => ho.of_phase fun q' pc' hq' => ?_
    have hne : q' ≠ p := by
      rintro rfl
      exact nomatch hp.symm.trans hq'
    exact (phase_moveTo_of_ne hne _).trans hq'
  | @act p pc d e hp hch hok hact =>
    obtain ⟨hlock, hK⟩ := hi.inside hp
    intro q c hq
    rw [data_perform]
    rcases chan_perform hq with ⟨pc', rfl⟩ | ⟨hqc, hne⟩
    · exact .inl (hw.sleep hi.data hK hact)
    have hdebt : W c s.data ∨ owes c pc := by
      refine (hx q c hqc).imp_right fun ⟨p', pc', hp', ho⟩ => ?_
      have hpp : p' = p := Option.some.inj ((hi.inside hp').1.symm.trans hlock)
      subst hpp
      cases hp'.symm.trans hp
      exact ho
    have howed : ∀ {pc'}, e.next = .inside pc' → owes c pc' → Owed owes (perform p d s e) c :=
      fun he ho => ⟨p, _, (phase_perform_self p d s e).trans he, ho⟩
    have hset := hw.act c hok hi.data hK hact hdebt
    cases e with
    | goto pc' => exact hset.imp_right fun ho => howed rfl ho
    | wakeup c' pc' =>
      rcases hset with rfl | hset
      · exact absurd rfl (hne pc')
      · exact hset.imp_right fun ho => howed rfl ho
    | sleep c' pc' => exact .inl hset
    | leave r => exact .inl hset
  | @kill p =>
    intro q c hq
    exact (hx q c (chan_kill hq)).imp_right fun ho =>
      ho.of_phase fun q' pc' hq' => (phase_kill s.proc p q').trans hq'

/-- **Wakeup rule for monitors.** While the lock is free, a process sleeps only with a reason. -/
theorem Reachable.sleeper (hm : Sound m ok I K) (hw : Wakes m ok I K W owes)
    (hinit : ∀ s, init s → Fresh I s) (h : Run.Reachable (step m) (Permits ok) init s)
    (hfree : s.lock = none) {p : P} {c : C} (hp : (s.proc p).chan = some c) : W c s.data := by
  have hboth : Inv I K s ∧ Excused W owes s := by
    refine h.invariant (I := fun s => Inv I K s ∧ Excused W owes s)
      (fun s hs => ⟨(hinit s hs).inv, fun p c hc => ?_⟩)
      fun _ _ _ hi hok hs => ⟨hi.1.trans hm (trans_of_step hok hs),
        hi.2.trans hw hi.1 (trans_of_step hok hs)⟩
    exact nomatch ((hinit s hs).awake p).symm.trans hc
  rcases hboth.2 p c hp with hW | ⟨q, pc, hq, -⟩
  · exact hW
  · exact nomatch hfree.symm.trans (hboth.1.inside hq).1

end Rules

end Monitor
