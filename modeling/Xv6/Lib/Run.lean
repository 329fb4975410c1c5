import Mathlib.Data.Finset.Card
import Mathlib.Data.Fintype.Basic
import Mathlib.Data.Option.Basic
import Mathlib.Tactic.Common

/-!
# Runs of a transition system

A system is a partial step function: `step s a` is the state after action `a`, or `none` when `a`
cannot happen in `s`. A run is constrained by a predicate on the state before a step and the
action, which says which steps the environment is assumed to take; `True` gives all runs.
-/

namespace Run

open Function

variable {S A : Type}

/-- The states reached from `init` by steps that satisfy `ok`. -/
inductive Reachable (step : S → A → Option S) (ok : S → A → Prop) (init : S → Prop) : S → Prop
  | start {s : S} : init s → Reachable step ok init s
  | step {s s' : S} {a : A} : Reachable step ok init s → ok s a → step s a = some s' →
      Reachable step ok init s'

variable {step : S → A → Option S} {ok ok' : S → A → Prop} {init : S → Prop} {I : S → Prop}

/-- **Invariant rule.** The induction over runs, done once. -/
theorem Reachable.invariant {s : S} (h : Reachable step ok init s) (h₀ : ∀ s, init s → I s)
    (hstep : ∀ s a s', I s → ok s a → step s a = some s' → I s') : I s := by
  induction h with
  | start hi => exact h₀ _ hi
  | step _ hok hs ih => exact hstep _ _ _ ih hok hs

theorem Reachable.mono {s : S} (h : Reachable step ok init s)
    (hok : ∀ s a, Reachable step ok init s → ok s a → ok' s a) : Reachable step ok' init s := by
  induction h with
  | start hi => exact .start hi
  | step hr h₁ hs ih => exact .step ih (hok _ _ hr h₁) hs

/-- Perform a list of actions, stopping at the first that is not allowed or cannot happen. -/
def exec (step : S → A → Option S) (ok : S → A → Prop) [∀ s a, Decidable (ok s a)] :
    S → List A → Option S
  | s, [] => some s
  | s, a :: as => if ok s a then (step s a).bind fun s' => exec step ok s' as else none

theorem Reachable.of_exec [∀ s a, Decidable (ok s a)] {as : List A} :
    ∀ {s s' : S}, Reachable step ok init s → exec step ok s as = some s' →
      Reachable step ok init s' := by
  induction as with
  | nil =>
    intro s s' h he
    cases he
    exact h
  | cons a as ih =>
  intro s s' h he
  rw [exec] at he
  split at he
  case isTrue hok =>
    obtain ⟨t, ht, he'⟩ := Option.bind_eq_some_iff.mp he
    exact ih (h.step hok ht) he'
  case isFalse => cases he

/-- A computed run whose last state passes a test. -/
theorem Reachable.exists_of_exec [∀ s a, Decidable (ok s a)] {s : S} (as : List A) (q : S → Bool)
    (h : Reachable step ok init s) (hq : (exec step ok s as).any q = true) :
    ∃ s', Reachable step ok init s' ∧ q s' = true := by
  obtain ⟨s', he, hq⟩ := (Option.any_eq_true _ _).mp hq
  exact ⟨s', h.of_exec he, hq⟩

/-- The runs of a step relation, with their actions. -/
inductive Steps {T : Type} (r : T → A → T → Prop) : T → List A → T → Prop
  | nil {t : T} : Steps r t [] t
  | cons {t t' t'' : T} {a : A} {as : List A} : r t a t' → Steps r t' as t'' →
      Steps r t (a :: as) t''

/-- **Simulation rule.** If every step is matched by one of another system, so is every run. -/
theorem Steps.simulate {T T' : Type} {r : T → A → T → Prop} {r' : T' → A → T' → Prop}
    {R : T → T' → Prop} (h : ∀ {s t a s'}, R s t → r s a s' → ∃ t', r' t a t' ∧ R s' t')
    {as : List A} {s s' : T} {t : T'} (hs : Steps r s as s') (hR : R s t) :
    ∃ t', Steps r' t as t' ∧ R s' t' := by
  induction hs generalizing t with
  | nil => exact ⟨t, .nil, hR⟩
  | cons hstep _ ih =>
    obtain ⟨t₁, hr, hR₁⟩ := h hR hstep
    obtain ⟨t', hrs, hR'⟩ := ih hR₁
    exact ⟨t', .cons hr hrs, hR'⟩

/-! ### Counting parties

Invariants often say that a counter is the number of parties in some phase. A step moves one
party, and the count changes only if that party enters or leaves the phase. -/

section Parties

variable {P : Type} [Fintype P]

/-- The parties in a phase. -/
def parties (f : P → Bool) : Finset P := Finset.univ.filter fun p => f p = true

variable {f g : P → Bool}

@[simp] theorem mem_parties {p : P} : p ∈ parties f ↔ f p = true := by simp [parties]

theorem parties_congr (h : ∀ p, g p = f p) : parties g = parties f := by rw [funext h]

variable [DecidableEq P]

theorem card_parties_enter {p : P} (hp : f p = false) (hp' : g p = true)
    (h : ∀ q, q ≠ p → g q = f q) : (parties g).card = (parties f).card + 1 := by
  have hins : parties g = insert p (parties f) := by
    ext q
    rcases eq_or_ne q p with rfl | hq
    · simp [hp']
    · simp [h q hq, hq]
  rw [hins, Finset.card_insert_of_notMem (by simp [hp])]

theorem card_parties_leave {p : P} (hp : f p = true) (hp' : g p = false)
    (h : ∀ q, q ≠ p → g q = f q) : ((parties g).card : ℤ) = (parties f).card - 1 := by
  rw [card_parties_enter hp' hp fun q hq => (h q hq).symm]
  omega

/-- When one party moves, what it contributed to the count is exchanged. -/
theorem card_parties_update {Φ : Type} (f : Φ → Bool) (g : P → Φ) (p : P) (x : Φ) :
    (parties fun q => f (update g p x q)).card + (f (g p)).toNat =
      (parties fun q => f (g q)).card + (f x).toNat := by
  have hself : f (update g p x p) = f x := by rw [update_self]
  have hne : ∀ q, q ≠ p → f (update g p x q) = f (g q) := fun q hq => by
    rw [update_of_ne hq]
  cases hx : f x <;> cases hg : f (g p)
  · rw [parties_congr fun q => ?_]
    rcases eq_or_ne q p with rfl | hq
    · rw [hself, hx, hg]
    · exact hne q hq
  · rw [Bool.toNat_true, Bool.toNat_false]
    symm
    exact card_parties_enter (hself.trans hx) hg fun q hq => (hne q hq).symm
  · rw [Bool.toNat_true, Bool.toNat_false]
    exact card_parties_enter hg (hself.trans hx) hne
  rw [parties_congr fun q => ?_]
  rcases eq_or_ne q p with rfl | hq
  · rw [hself, hx, hg]
  · exact hne q hq

end Parties

end Run
