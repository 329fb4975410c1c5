import Xv6.Pipe.Stream

/-!
# Wakeups of pipes

A reader sleeps while the pipe is empty and a writer while it is full. Whoever ends this has to wake
the sleepers before it gives the lock up. All exits of `piperead` and `pipeclose` do. `pipewrite`
wakes the readers when it has stored everything and when it goes to sleep itself, but not when it
finds the pipe full and returns -1, because it was killed or because the read end is closed. A
writer that has filled an empty pipe and is killed leaves the readers asleep.
-/

namespace Xv6.Pipe

open Monitor

def Reason : Chan → Shared → Prop
  | .nread, d => d.Empty ∧ d.writeopen = true
  | .nwrite, d => d.Full ∧ d.readopen = true

/-- The points at which a call still has to wake the sleepers on a channel. -/
def Owes : Chan → Pc → Prop
  | .nread, .wtest _ _ _ since => 0 < since
  | .nread, .wwake _ _ _ => True
  | .nread, .wdone _ _ => True
  | .nread, .cwake writable => writable = true
  | .nwrite, .rcopy _ bytes => bytes ≠ []
  | .nwrite, .rdone _ _ => True
  | .nwrite, .cwake writable => writable = false
  | _, _ => False

/-- A writer that finds the pipe full and has to give up, being killed or without a read end, has
stored nothing since it last acquired the lock. -/
def Spared (killed : Bool) : Pc → Shared → Prop
  | .wtest _ n i since, d =>
    i < n → d.Full → d.readopen = false ∨ killed = true → since = 0
  | _, _ => True

instance (killed : Bool) (pc : Pc) (d : Shared) : Decidable (Spared killed pc d) := by
  cases pc <;> unfold Spared <;> infer_instance

variable {d d' : Shared} {pc : Pc} {k : Bool} {e : Effect Pc Chan Result} {c : Chan}

theorem reason_of_sleep {pc' : Pc} (hk : Knows pc d) (h : body k d pc = (d', .sleep c pc')) :
    Reason c d' := by
  cases pc with
  | wsleep | rsleep =>
    cases h
    exact hk
  | wtest | rtest | rcopy | crelease =>
    rw [body] at h
    split_ifs at h <;> cases h
  | _ => cases h

theorem reason_closeEnd {writable : Bool} (hr : Reason c d) :
    Reason c (d.closeEnd writable) ∨ Owes c (.cwake writable) := by
  cases c <;> cases writable
  case nread.true => exact .inr rfl
  case nwrite.false => exact .inr rfl
  case nread.false => exact .inl hr
  case nwrite.true => exact .inl hr

theorem body_wakes (hok : Spared k pc d) (h : body k d pc = (d', e))
    (hr : Reason c d ∨ Owes c pc) : e.Settled Reason Owes c d' := by
  cases pc with
  | wtest addr n i since =>
    rw [body] at h
    split_ifs at h with hin hfull hstop <;> cases h
    · -- the early return: nothing was stored, so that no wakeup is owed
      have hzero := hok hin hfull hstop
      rcases hr with hr | ho
      · exact hr
      · cases c with
        | nread => exact absurd hzero (Nat.ne_of_gt ho)
        | nwrite => exact ho.elim
    · cases c with
      | nread => exact .inr trivial
      | nwrite => exact .inl (hr.resolve_right id)
    · cases c with
      | nread => exact .inr (Nat.succ_pos since)
      | nwrite => exact absurd (hr.resolve_right id).1 hfull
    · cases c with
      | nread => exact .inr trivial
      | nwrite => exact .inl (hr.resolve_right id)
  | wwake | wdone =>
    cases h
    cases c with
    | nread => exact .inl rfl
    | nwrite => exact .inr (.inl (hr.resolve_right id))
  | wsleep | wrelease | rsleep | rrelease =>
    cases h
    cases c <;> exact hr.resolve_right id
  | rtest n =>
    have hr : Reason c d := by cases c <;> exact hr.resolve_right id
    rw [body] at h
    split_ifs at h with hwait hkilled <;> cases h
    · exact hr
    · exact .inl hr
    · exact .inl hr
  | rcopy n bytes =>
    rw [body] at h
    split_ifs at h with hmore
    · cases h
      cases c with
      | nread => exact absurd (hr.resolve_right id).1 hmore.2
      | nwrite => exact .inr (by simp [Owes])
    cases h
    cases c with
    | nread => exact .inl (hr.resolve_right id)
    | nwrite => exact .inr trivial
  | rdone n bytes =>
    cases h
    cases c with
    | nread => exact .inr (.inl (hr.resolve_right id))
    | nwrite => exact .inl rfl
  | cmark writable =>
    have hr : Reason c d := by cases c <;> exact hr.resolve_right id
    cases h
    exact reason_closeEnd hr
  | cwake writable =>
    cases h
    rcases hr with hr | ho
    · exact .inr (.inl hr)
    · cases c with
      | nread => exact .inl (by rw [show writable = true from ho]; rfl)
      | nwrite => exact .inl (by rw [show writable = false from ho]; rfl)
  | crelease =>
    have hr : Reason c d := by cases c <;> exact hr.resolve_right id
    rw [body] at h
    split_ifs at h <;> cases h
    · cases c <;> exact hr
    · exact hr

theorem code_wakes : Wakes code Spared Fifo Knows Reason Owes where
  sleep := fun _ hk h => reason_of_sleep hk (body_of_act h)
  act := fun _ hok _ _ h hr => body_wakes hok (body_of_act h) hr

variable {P : Type} [DecidableEq P] {s : System P}

/-- **Pipes lose no wakeup** in runs in which a writer that gives up on a full pipe has stored
nothing since it acquired the lock: while `p->lock` is free, no process sleeps on `&p->nread` unless
the pipe is empty and its write end open, and none on `&p->nwrite` unless the pipe is full and its
read end open. -/
theorem no_lost_wakeup (h : Run.Reachable (step code) (Permits Spared) Start s)
    (hfree : s.lock = none) (p : P) : ((s.proc p).chan = some .nread →
        s.data.nread = s.data.nwrite ∧ s.data.writeopen = true) ∧ ((s.proc p).chan = some .nwrite →
        s.data.nwrite = s.data.nread + UInt32.ofNat PIPESIZE ∧ s.data.readopen = true) := by
  have hsleep : ∀ c, (s.proc p).chan = some c → Reason c s.data := fun c hc =>
    Reachable.sleeper (code_sound Spared) code_wakes (fun s hs => Start.fresh hs) h hfree hc
  exact ⟨hsleep .nread, hsleep .nwrite⟩

/-- The reader is asleep and the pipe is empty. -/
theorem no_lost_wakeup_reader : ∃ s : System Bool,
    Run.Reachable (step code) (Permits Spared) Start s ∧ (s.proc false).chan = some .nread ∧
      s.data.nread = s.data.nwrite := by
  have hstart : Run.Reachable (step code) (Permits Spared) Start (fresh : System Bool) :=
    .start start_fresh
  obtain ⟨s, hs, hq⟩ := hstart.exists_of_exec
    ([.call false (.rtest 2), .run false, .run false, .run false] : List (Action Bool Pc))
    (fun s : System Bool => decide (s.lock = none ∧ (s.proc false).chan = some .nread))
    (by decide +kernel)
  obtain ⟨hfree, hchan⟩ := of_decide_eq_true hq
  exact ⟨s, hs, hchan, ((no_lost_wakeup hs hfree false).1 hchan).1⟩

/-- A reader sleeps on the empty pipe. A writer with 600 bytes fills the pipe, is killed, and
returns. -/
def killedWriter : List (Action Bool Pc) :=
  [.call false (.rtest 1), .run false, .run false, .run false,
    .call true (.wtest (fun _ => 0) 600 0 0), .run true] ++
    List.replicate 512 (.run true) ++ [.kill true, .run true]

/-- **A lost wakeup.** The lock is free, the pipe is full, and the reader sleeps. -/
theorem killedWriter_lost : ∃ s : System Bool,
    Run.Reachable (step code) (fun _ _ => True) Start s ∧ s.lock = none ∧
      (s.proc false).chan = some .nread ∧ s.data.nread ≠ s.data.nwrite := by
  have hstart : Run.Reachable (step code) (fun _ _ => True) Start (fresh : System Bool) :=
    .start start_fresh
  obtain ⟨s, hs, hq⟩ := hstart.exists_of_exec killedWriter
    (fun s : System Bool => decide (s.lock = none ∧ (s.proc false).chan = some .nread ∧
      s.data.nread ≠ s.data.nwrite)) (by decide +kernel)
  exact ⟨s, hs, of_decide_eq_true hq⟩

end Xv6.Pipe
