import Xv6.Log.Invariant

/-!
# Group commit

What the log promises to the operations that use it, over every interleaving: a commit runs alone,
the header is exactly what has been logged since the last one, an operation's blocks go to the disk
together, and nobody sleeps in `begin_op` without a reason.
-/

namespace Xv6

open List

variable {P : Type} [DecidableEq P]

/-! ### Reading operations off the history -/

/-- `during` is what happened inside one operation of `p`. -/
def OneOp (p : P) (during : List (LogEvent P)) : Prop := .begin p ∉ during ∧ .finish p ∉ during

theorem openIn_append_of_oneOp {p : P} {x h : List (LogEvent P)} (hx : OneOp p x) :
    openIn (x ++ h) p = openIn h p := by
  induction x with
  | nil => rfl
  | cons e x ih =>
  obtain ⟨hb, hf⟩ := hx
  have ih := ih ⟨fun h => hb (mem_cons_of_mem _ h), fun h => hf (mem_cons_of_mem _ h)⟩
  cases e with
  | begin q =>
    have hpq : p ≠ q := fun hpq => hb (by rw [hpq]; exact mem_cons_self)
    rw [cons_append, openIn, if_neg hpq, ih]
  | finish q =>
    have hpq : p ≠ q := fun hpq => hf (by rw [hpq]; exact mem_cons_self)
    rw [cons_append, openIn, if_neg hpq, ih]
  | claim q b => exact ih
  | log q b => exact ih
  | commit bs => exact ih

omit [DecidableEq P] in
theorem mem_loggedSince_append {p : P} {b : ℕ} {x h : List (LogEvent P)}
    (hx : ∀ bs, .commit bs ∉ x) (hb : .log p b ∈ x ∨ b ∈ loggedSince h) :
    b ∈ loggedSince (x ++ h) := by
  induction x with
  | nil => exact hb.resolve_left not_mem_nil
  | cons e x ih =>
  have ih := ih fun bs hbs => hx bs (mem_cons_of_mem _ hbs)
  rw [mem_cons] at hb
  cases e with
  | log q c =>
    rw [cons_append, loggedSince, Finset.mem_insert]
    rcases hb with (hb | hb) | hb
    · cases hb
      exact .inl rfl
    · exact .inr (ih (.inl hb))
    · exact .inr (ih (.inr hb))
  | commit bs => exact absurd mem_cons_self (hx bs)
  | begin | claim | finish => exact ih (hb.imp_left fun h => h.resolve_left nofun)

theorem CommitsOk.of_append {post pre : List (LogEvent P)} {bs : List ℕ}
    (h : CommitsOk (post ++ .commit bs :: pre)) :
    (∀ p, openIn pre p = false) ∧ bs.Nodup ∧ bs.toFinset = loggedSince pre := by
  induction post with
  | nil => exact ⟨h.1, h.2.1, h.2.2.1⟩
  | cons e post ih =>
  cases e with
  | commit cs => exact ih h.2.2.2
  | begin q => exact ih h
  | claim q b => exact ih h
  | log q b => exact ih h
  | finish q => exact ih h

theorem CommitsOk.not_mem_of_oneOp {p : P} {after during before : List (LogEvent P)}
    (h : CommitsOk (after ++ .finish p :: (during ++ .begin p :: before)))
    (hop : OneOp p during) (bs : List ℕ) : .commit bs ∉ during := by
  intro hmem
  obtain ⟨x, y, rfl⟩ := append_of_mem hmem
  have hy : OneOp p y := ⟨fun hb => hop.1 (by simp [hb]), fun hf => hop.2 (by simp [hf])⟩
  have h' : CommitsOk ((after ++ .finish p :: x) ++ .commit bs :: (y ++ .begin p :: before)) := by
    simpa using h
  have hopen := (CommitsOk.of_append h').1 p
  rw [openIn_append_of_oneOp hy, openIn, if_pos rfl] at hopen
  cases hopen

theorem CommitsOk.mem_first_commit {p : P} {b : ℕ} {bs : List ℕ}
    {later between during before : List (LogEvent P)} (h : CommitsOk (later ++
      .commit bs :: (between ++ .finish p :: (during ++ .begin p :: before))))
    (hbetween : ∀ cs, .commit cs ∉ between) (hduring : ∀ cs, .commit cs ∉ during)
    (hb : .log p b ∈ during) : b ∈ bs := by
  obtain ⟨_, _, hbs⟩ := CommitsOk.of_append h
  have hmem : b ∈ loggedSince (between ++ .finish p :: (during ++ .begin p :: before)) := by
    refine mem_loggedSince_append (p := p) hbetween (.inr ?_)
    exact mem_loggedSince_append (p := p) hduring (.inl hb)
  rw [← hbs] at hmem
  exact mem_toFinset.mp hmem

/-! ### The protocol -/

variable [Fintype P] {size : ℕ} {s s' : LogState P} {a : LogAction P}

theorem LogInv.no_completion (hi : LogInv s) (hc : s.committing = true) (h : LogStep size s a s')
    (p : P) (b : ℕ) : s'.history ≠ .begin p :: s.history ∧ s'.history ≠ .log p b :: s.history := by
  cases h
  case beginAdmit q hpc hw =>
    have hwait : s.mustWait = true := by simp [mustWait_iff, hc]
    rw [hw] at hwait
    cases hwait
  case writeAppend q c hpc =>
    have hquiet := hi.commit.quiet hc q
    rw [hpc] at hquiet
    cases hquiet
  all_goals simp

/-- **The group-commit protocol**, in every state of every run, whatever the size of the log.

* While `log.committing` is set no operation is outstanding, and no `begin_op` or `log_write`
  completes.
* While it is clear, the in-memory header names each block logged since the last commit once.
* No commit falls inside an operation, and the first commit after its `end_op` wrote all its
  blocks.
* With `log.lock` free, whoever sleeps in `begin_op` has a reason to. -/
theorem group_commit (h : Run.Reachable (LogState.step size) (fun _ _ => True)
      (· = (LogState.init : LogState P)) s) :
    (s.committing = true → s.outstanding = 0 ∧ ∀ a s', s.step size a = some s' →
        ∀ p b, s'.history ≠ .begin p :: s.history ∧ s'.history ≠ .log p b :: s.history) ∧
      (s.committing = false → s.lh.Nodup ∧ s.lh.toFinset = loggedSince s.history) ∧
      (∀ p after during before,
        s.history = after ++ .finish p :: (during ++ .begin p :: before) → OneOp p during →
        (∀ bs, .commit bs ∉ during) ∧ ∀ later bs between, after = later ++ .commit bs :: between →
            (∀ cs, .commit cs ∉ between) → ∀ b, .log p b ∈ during → b ∈ bs) ∧
      (s.lock = none → ∀ p, s.pc p = .sleeping → s.committing = true ∨
        (s.lh.length : ℤ) + (s.outstanding + 1) * MAXOPBLOCKS > LOGSIZE) := by
  have hi := LogInv.reachable h
  refine ⟨fun hc => ⟨?_, fun a s' hs => ?_⟩, fun hc => ⟨hi.header.nodup, ?_⟩, ?_, ?_⟩
  · rw [hi.commit.outstanding, Nat.cast_eq_zero, Finset.card_eq_zero,
      Finset.eq_empty_iff_forall_notMem]
    intro p hp
    rw [LogState.mem_ops, hi.commit.quiet hc p] at hp
    cases hp
  · exact hi.no_completion hc (LogState.step_sound hs).2
  · refine hi.header.logged fun p hp => ?_
    rw [hi.commit.flag p (by rw [hp]; rfl)] at hc
    cases hc
  · intro p after during before heq hop
    have hcommits := hi.commits
    rw [heq] at hcommits
    have hduring := hcommits.not_mem_of_oneOp hop
    refine ⟨hduring, fun later bs between hafter hbetween b hb => ?_⟩
    rw [hafter, append_assoc, cons_append] at hcommits
    exact hcommits.mem_first_commit hbetween hduring hb
  intro hl p hp
  rcases hi.sleep.asleep p (.inr hp) with hw | ⟨q, hq⟩
  · exact mustWait_iff.mp hw
  -- a waker holds log.lock
  have hholds : (s.pc q).holdsLog = true := by
    revert hq
    cases s.pc q <;> simp [Pc.waking, Pc.holdsLog]
  have hlock := (hi.locks.log q).mp hholds
  rw [hl] at hlock
  cases hlock

/-- Process `0` logs block `7` and ends its operation while process `1` waits for the lock. -/
def lastOpEnds : List (LogAction (Fin 2)) :=
  let p : Fin 2 := ⟨0, Nat.two_pos⟩
  let q : Fin 2 := ⟨1, Nat.one_lt_two⟩
  [.beginOp p, .run p, .run p, .logWrite p 7, .run p, .run p, .run p, .run p, .beginOp q,
    .endOp p, .run p, .run p]

theorem group_commit_lastOpEnds : ∃ s : LogState (Fin 2),
    Run.Reachable (LogState.step LOGSIZE) (fun _ _ => True) (· = LogState.init) s ∧
      s.committing = true ∧ s.outstanding = 0 := by
  have h₀ : Run.Reachable (LogState.step LOGSIZE) (fun _ _ => True) (· = LogState.init)
      (LogState.init : LogState (Fin 2)) := .start rfl
  obtain ⟨s, hr, hc⟩ := h₀.exists_of_exec lastOpEnds (·.committing) (by decide)
  exact ⟨s, hr, hc, ((group_commit hr).1 hc).1⟩

end Xv6
