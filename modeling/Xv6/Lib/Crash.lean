import Mathlib.Data.Nat.Init
import Mathlib.Tactic.Common

/-!
# Programs that may lose power between two durable writes

A program works on a volatile state `σ`, lost when the power fails, and a durable state `δ`, which
survives. It is run with the number of durable writes it is allowed to perform: the write that
exceeds it is not performed and the run ends in a crash, leaving the durable state as it is. One
write is atomic; everything between two writes is invisible from outside.

Quantifying over the number of writes is quantifying over crash points, so a program is specified
by one triple: what holds when it finishes, how many writes that takes, and what the durable state
satisfies when the power fails after `k` of them.
-/

/-- How a run ends: with a result and some writes left over, or in a crash that only the durable
state survives. -/
inductive Outcome (σ δ α : Type) where
  | done (a : α) (v : σ) (d : δ) (left : ℕ)
  | crash (d : δ)

/-- What is on the durable medium when the run is over, however it ended. -/
def Outcome.durable {σ δ α : Type} : Outcome σ δ α → δ
  | .done _ _ d _ => d
  | .crash d => d

/-- A program, run from a volatile and a durable state with a number of writes to spend. -/
def CrashM (σ δ α : Type) : Type := σ → δ → ℕ → Outcome σ δ α

namespace CrashM

variable {σ δ α β : Type}

instance : Monad (CrashM σ δ) where
  pure a := fun v d k => .done a v d k
  bind p f := fun v d k =>
    match p v d k with
    | .done a v' d' k' => f a v' d' k'
    | .crash d' => .crash d'

/-- Read the volatile state. -/
def volatile : CrashM σ δ σ := fun v d k => .done v v d k

/-- Change the volatile state. -/
def modifyVolatile (f : σ → σ) : CrashM σ δ Unit := fun v d k => .done () (f v) d k

/-- Read the durable state. -/
def durable : CrashM σ δ δ := fun v d k => .done d v d k

/-- One atomic durable write, the only action at which the power can fail. -/
def write (f : δ → δ) : CrashM σ δ Unit := fun v d k =>
  match k with
  | 0 => .crash d
  | k + 1 => .done () v (f d) k

/-- `for (i = 0; i < n; i++) body(i)`. -/
def forUpTo (body : ℕ → CrashM σ δ Unit) : ℕ → CrashM σ δ Unit
  | 0 => pure ()
  | n + 1 => do
    forUpTo body n
    body n

theorem bind_apply (p : CrashM σ δ α) (f : α → CrashM σ δ β) (v : σ) (d : δ) (k : ℕ) :
    (p >>= f) v d k = match p v d k with
      | .done a v' d' k' => f a v' d' k'
      | .crash d' => .crash d' := rfl

/-! ### Triples -/

/-- From `P`, the program `p` performs exactly `m` writes. Given at least that many it finishes
with `Q`; given `k < m` it crashes, and the `k` writes performed leave a durable state with
`C k`. -/
def Triple (P : σ → δ → Prop) (p : CrashM σ δ α) (m : ℕ) (Q : α → σ → δ → Prop)
    (C : ℕ → δ → Prop) : Prop :=
  ∀ v d, P v d → ∀ k,
    (k < m → ∃ d', p v d k = .crash d' ∧ C k d') ∧
      (m ≤ k → ∃ a v' d', p v d k = .done a v' d' (k - m) ∧ Q a v' d')

variable {P P' : σ → δ → Prop} {Q Q' : α → σ → δ → Prop} {C C' : ℕ → δ → Prop} {m m' : ℕ}

variable {p : CrashM σ δ α}

theorem Triple.conseq (h : Triple P p m Q C) (hP : ∀ v d, P' v d → P v d)
    (hQ : ∀ a v d, Q a v d → Q' a v d) (hC : ∀ k < m, ∀ d, C k d → C' k d) :
    Triple P' p m Q' C' := by
  intro v d hp k
  obtain ⟨hcrash, hdone⟩ := h v d (hP v d hp) k
  refine ⟨fun hk => ?_, fun hk => ?_⟩
  · obtain ⟨d', he, hc⟩ := hcrash hk
    exact ⟨d', he, hC k hk d' hc⟩
  · obtain ⟨a, v', d', he, hq⟩ := hdone hk
    exact ⟨a, v', d', he, hQ a v' d' hq⟩

/-- Strengthening the precondition alone. -/
theorem Triple.pre (h : Triple P p m Q C) (hP : ∀ v d, P' v d → P v d) : Triple P' p m Q C :=
  h.conseq hP (fun _ _ _ hq => hq) fun _ _ _ hc => hc

theorem Triple.pure {a : α} : Triple (Q a) (Pure.pure a : CrashM σ δ α) 0 Q C :=
  fun v d hp k => ⟨fun hk => absurd hk (Nat.not_lt_zero k), fun _ => ⟨a, v, d, rfl, hp⟩⟩

theorem Triple.modifyVolatile {f : σ → σ} {Q : Unit → σ → δ → Prop} :
    Triple (fun v d => Q () (f v) d) (modifyVolatile f : CrashM σ δ Unit) 0 Q C :=
  fun v d hp k => ⟨fun hk => absurd hk (Nat.not_lt_zero k), fun _ => ⟨(), f v, d, rfl, hp⟩⟩

variable {Q : β → σ → δ → Prop}

/-- **Sequencing.** The second program starts after `m` writes, so its crash condition is the
whole program's shifted by `m`. -/
theorem Triple.bind {f : α → CrashM σ δ β} {R : α → σ → δ → Prop} (hp : Triple P p m R C)
    (hf : ∀ a, Triple (R a) (f a) m' Q fun k => C (m + k)) : Triple P (p >>= f) (m + m') Q C := by
  intro v d hP k
  rw [bind_apply]
  obtain ⟨hcrash, hdone⟩ := hp v d hP k
  rcases Nat.lt_or_ge k m with hk | hk
  · obtain ⟨d', he, hc⟩ := hcrash hk
    exact ⟨fun _ => ⟨d', by rw [he], hc⟩, fun h => absurd h (by omega)⟩
  obtain ⟨a, v', d', he, hR⟩ := hdone hk
  obtain ⟨hcrash', hdone'⟩ := hf a v' d' hR (k - m)
  rw [he]
  refine ⟨fun hlt => ?_, fun hle => ?_⟩
  · obtain ⟨d'', he', hc⟩ := hcrash' (by omega)
    exact ⟨d'', he', by rwa [Nat.add_sub_cancel' hk] at hc⟩
  · obtain ⟨b, v'', d'', he', hq⟩ := hdone' (by omega)
    exact ⟨b, v'', d'', by rw [Nat.sub_add_eq]; exact he', hq⟩

theorem Triple.bind_zero {f : α → CrashM σ δ β} {R : α → σ → δ → Prop}
    (hp : Triple P p 0 R C) (hf : ∀ a, Triple (R a) (f a) m Q C) : Triple P (p >>= f) m Q C := by
  have h : Triple P (p >>= f) (0 + m) Q C :=
    hp.bind fun a => by simpa only [Nat.zero_add] using hf a
  rwa [Nat.zero_add] at h

/-- Reading the volatile state: the rest is proved for every value the precondition allows. -/
theorem Triple.bind_volatile {f : σ → CrashM σ δ β}
    (hf : ∀ w, (∃ d, P w d) → Triple P (f w) m Q C) : Triple P (CrashM.volatile >>= f) m Q C :=
  fun v d hP k => hf v ⟨d, hP⟩ v d hP k

/-- **Counted loops.** One write per iteration and an invariant indexed by the iterations done: a
crash after `k` writes is a crash in iteration `k`. -/
theorem Triple.forUpTo {body : ℕ → CrashM σ δ Unit} {I : ℕ → σ → δ → Prop} {n : ℕ}
    (h : ∀ i < n, Triple (I i) (body i) 1 (fun _ => I (i + 1)) fun _ => C i) :
    Triple (I 0) (forUpTo body n) n (fun _ => I n) C := by
  induction n with
  | zero => exact Triple.pure (Q := fun _ => I 0)
  | succ n ih =>
  refine (ih fun i hi => h i (Nat.lt_succ_of_lt hi)).bind fun _ => ?_
  refine (h n (Nat.lt_succ_self n)).conseq (fun _ _ hi => hi) (fun _ _ _ hi => hi) ?_
  intro k hk d hc
  obtain rfl : k = 0 := by omega
  simpa using hc

/-! ### The volatile state of runs that finish -/

/-- A run from `P` that finishes leaves a volatile state with `Q`. -/
def Ends (P : σ → Prop) (p : CrashM σ δ α) (Q : σ → Prop) : Prop :=
  ∀ ⦃v d k a v' d' r⦄, P v → p v d k = .done a v' d' r → Q v'

section Ends

variable {P R : σ → Prop} {Q : σ → Prop}

theorem Ends.bind {f : α → CrashM σ δ β} (hp : Ends P p R) (hf : ∀ a, Ends R (f a) Q) :
    Ends P (p >>= f) Q := by
  intro v d k b v' d' r hP he
  rw [bind_apply] at he
  cases hr : p v d k with
  | done a v₁ d₁ k₁ =>
    rw [hr] at he
    exact hf a (hp hP hr) he
  | crash d₁ =>
    rw [hr] at he
    cases he

theorem Ends.bind_volatile {f : σ → CrashM σ δ β} (hf : ∀ w, P w → Ends (· = w) (f w) Q) :
    Ends P (CrashM.volatile >>= f) Q :=
  fun v _ _ _ _ _ _ hP he => hf v hP rfl he

theorem Ends.modifyVolatile {f : σ → σ} (h : ∀ v, P v → Q (f v)) :
    Ends P (modifyVolatile f : CrashM σ δ Unit) Q := by
  intro v d k a v' d' r hP he
  cases he
  exact h v hP

theorem Ends.forUpTo {body : ℕ → CrashM σ δ Unit} {I : ℕ → σ → Prop} {n : ℕ}
    (h : ∀ i < n, Ends (I i) (body i) (I (i + 1))) : Ends (I 0) (forUpTo body n) (I n) := by
  induction n with
  | zero =>
    intro v d k a v' d' r hP he
    cases he
    exact hP
  | succ n ih => exact (ih fun i hi => h i (by omega)).bind fun _ => h n (by omega)

end Ends

end CrashM
