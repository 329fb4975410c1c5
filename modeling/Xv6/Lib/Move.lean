import Mathlib.Logic.Function.Basic
import Mathlib.Tactic.Common

/-!
# Moving a block, element by element

The elements `src 0, …, src (n - 1)` of a memory are copied to `dst 0, …, dst (n - 1)`, in this
order or in the opposite one. The two blocks may overlap. A copy is right if no element is written
before it is read; if the destination is the source shifted up by less than its length, copying
upwards repeats what lies between the two.
-/

namespace Move

open Function

variable {A α : Type} [DecidableEq A] (dst src : ℕ → A)

/-- Copy `n` elements, the first one first. -/
def up : ℕ → (A → α) → A → α
  | 0, m => m
  | n + 1, m => update (up n m) (dst n) (up n m (src n))

/-- Copy `n` elements, the last one first. -/
def down : ℕ → (A → α) → A → α
  | 0, m => m
  | n + 1, m => down n (update m (dst n) (m (src n)))

omit [DecidableEq A] in
/-- From `m` to `m'` a block was moved, and nothing else changed. -/
structure Moved (n : ℕ) (m m' : A → α) : Prop where
  copied : ∀ i < n, m' (dst i) = m (src i)
  kept : ∀ a, (∀ i < n, a ≠ dst i) → m' a = m a

variable {dst src} {n : ℕ} {m : A → α}

theorem up_kept : ∀ {n : ℕ} {a : A}, (∀ i < n, a ≠ dst i) → up dst src n m a = m a
  | 0, _, _ => rfl
  | n + 1, a, h => by
    rw [up, update_of_ne (h n n.lt_succ_self)]
    exact up_kept fun i hi => h i (Nat.lt_succ_of_lt hi)

theorem up_succ_first : ∀ n (m : A → α), up dst src (n + 1) m =
    up (fun i => dst (i + 1)) (fun i => src (i + 1)) n (update m (dst 0) (m (src 0)))
  | 0, _ => rfl
  | n + 1, m => by
    rw [up, up_succ_first n m]
    rfl

/-- An element that was copied stays, if the destinations differ. -/
theorem up_copied {n i : ℕ} (hinj : ∀ i j, i < j → j < n + 1 → dst i ≠ dst j) (hi : i < n) :
    up dst src (n + 1) m (dst i) = up dst src n m (dst i) :=
  update_of_ne (hinj i n hi n.lt_succ_self) ..

/-- Upwards, no element may lie where an earlier one went. -/
theorem up_moved (hinj : ∀ i j, i < j → j < n → dst i ≠ dst j)
    (hread : ∀ i j, i < j → j < n → src j ≠ dst i) : Moved dst src n m (up dst src n m) := by
  refine ⟨?_, fun a h => up_kept h⟩
  induction n with
  | zero => exact fun i hi => absurd hi i.not_lt_zero
  | succ n ih =>
  intro i hi
  rcases Nat.lt_succ_iff_lt_or_eq.mp hi with hlt | rfl
  · rw [up_copied hinj hlt]
    exact ih (fun i j hij hj => hinj i j hij (Nat.lt_succ_of_lt hj))
      (fun i j hij hj => hread i j hij (Nat.lt_succ_of_lt hj)) i hlt
  · rw [up, update_self]
    exact up_kept fun j hj => hread j i hj i.lt_succ_self

theorem down_kept : ∀ {n : ℕ} {m : A → α} {a : A}, (∀ i < n, a ≠ dst i) → down dst src n m a = m a
  | 0, _, _, _ => rfl
  | n + 1, m, a, h => by
    rw [down, down_kept fun i hi => h i (Nat.lt_succ_of_lt hi), update_of_ne (h n n.lt_succ_self)]

/-- Downwards, no element may lie where a later one went. -/
theorem down_moved (hinj : ∀ i j, i < j → j < n → dst i ≠ dst j)
    (hread : ∀ i j, i < j → j < n → src i ≠ dst j) : Moved dst src n m (down dst src n m) := by
  refine ⟨?_, fun a h => down_kept h⟩
  induction n generalizing m with
  | zero => exact fun i hi => absurd hi i.not_lt_zero
  | succ n ih =>
  intro i hi
  rw [down]
  rcases Nat.lt_succ_iff_lt_or_eq.mp hi with hlt | rfl
  · rw [ih (fun i j hij hj => hinj i j hij (Nat.lt_succ_of_lt hj))
      (fun i j hij hj => hread i j hij (Nat.lt_succ_of_lt hj)) i hlt]
    exact update_of_ne (hread i n hlt n.lt_succ_self) ..
  · rw [down_kept fun j hj => (hinj j i hj i.lt_succ_self).symm, update_self]

/-- **Upwards to a block that starts `k` elements after the source**, the first `k` elements are
repeated. -/
theorem up_periodic {k : ℕ} (hk : 0 < k) (hinj : ∀ i j, i < j → j < n → dst i ≠ dst j)
    (hshift : ∀ i, i + k < n → src (i + k) = dst i)
    (hfirst : ∀ i j, i < k → j < n → src i ≠ dst j) :
    ∀ i < n, up dst src n m (dst i) = m (src (i % k)) := by
  induction n with
  | zero => exact fun i hi => absurd hi i.not_lt_zero
  | succ n ih =>
  have ih := ih (fun i j hij hj => hinj i j hij (Nat.lt_succ_of_lt hj))
    (fun i hi => hshift i (Nat.lt_succ_of_lt hi))
    (fun i j hi hj => hfirst i j hi (Nat.lt_succ_of_lt hj))
  intro i hi
  rcases Nat.lt_succ_iff_lt_or_eq.mp hi with hlt | rfl
  · rw [up_copied hinj hlt, ih i hlt]
  rw [up, update_self]
  rcases Nat.lt_or_ge i k with hik | hik
  · rw [Nat.mod_eq_of_lt hik]
    exact up_kept fun j hj => hfirst i j hik (Nat.lt_succ_of_lt hj)
  · -- what is read was written `k` rounds ago
    obtain ⟨j, rfl⟩ := Nat.exists_eq_add_of_le' hik
    rw [hshift j hi, ih j (by omega), Nat.add_mod_right]

end Move
