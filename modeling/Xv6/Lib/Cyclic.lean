import Mathlib.Data.List.Nodup
import Mathlib.Logic.Function.Basic
import Mathlib.Tactic.Common

/-!
# Circular singly linked lists

Every node has a pointer to the next, and following the pointers leads back to where one started. A
circular list has no first node: it can be read from any of its nodes, and a node is taken out or
put in behind the node that it is read from.
-/

namespace Cyclic

open Function List

variable {B : Type} {next : B → B} {a b x y z : B} {l l₁ l₂ : List B}

/-- From `a` the pointers lead along the nodes of `l` to `b`. -/
def Seg (next : B → B) : B → List B → B → Prop
  | a, [], b => next a = b
  | a, x :: l, b => next a = x ∧ Seg next x l b

theorem seg_append : Seg next a (l₁ ++ x :: l₂) b ↔ Seg next a l₁ x ∧ Seg next x l₂ b := by
  induction l₁ generalizing a with
  | nil => rfl
  | cons y l₁ ih => simp only [cons_append, Seg, ih, and_assoc]

theorem Seg.congr {next' : B → B} (h : Seg next a l b) (he : ∀ u ∈ a :: l, next' u = next u) :
    Seg next' a l b := by
  induction l generalizing a with
  | nil => exact (he a (by simp)).trans h
  | cons x l ih =>
    exact ⟨(he a (by simp)).trans h.1, ih h.2 fun u hu => he u (mem_cons_of_mem a hu)⟩

theorem Seg.next_mem (h : Seg next a l b) : ∀ u ∈ a :: l, next u ∈ l ++ [b] := by
  induction l generalizing a with
  | nil =>
    intro u hu
    rw [mem_singleton.mp hu, h]
    exact mem_singleton_self b
  | cons x l ih =>
  intro u hu
  rcases mem_cons.mp hu with rfl | hu
  · rw [h.1]
    exact mem_cons_self
  · exact mem_cons_of_mem x (ih h.2 u hu)

/-- **A circular list can be read from any node.** -/
theorem Seg.rotate (h : Seg next a l a) (hz : z ∈ a :: l) :
    ∃ l', Seg next z l' z ∧ (z :: l').Perm (a :: l) := by
  rcases mem_cons.mp hz with rfl | hz
  · exact ⟨l, h, .refl _⟩
  obtain ⟨l₁, l₂, rfl⟩ := append_of_mem hz
  obtain ⟨h₁, h₂⟩ := seg_append.mp h
  refine ⟨l₂ ++ a :: l₁, seg_append.mpr ⟨h₂, h₁⟩, ?_⟩
  have hperm : ((z :: l₂) ++ (a :: l₁)).Perm ((a :: l₁) ++ (z :: l₂)) := perm_append_comm
  simpa using hperm

section Update

variable [DecidableEq B]

theorem Seg.insert (h : Seg next z l b) (hz : z ∉ l) (hy : y ∉ z :: l) :
    Seg (update (update next y (next z)) z y) z (y :: l) b := by
  have hyz : y ≠ z := fun he => hy (he ▸ mem_cons_self)
  refine ⟨update_self .., ?_⟩
  have hnext : update (update next y (next z)) z y y = next z := by
    rw [update_of_ne hyz, update_self]
  cases l with
  | nil => exact hnext.trans h
  | cons x l =>
  refine ⟨hnext.trans h.1, h.2.congr fun u hu => ?_⟩
  have huz : u ≠ z := fun he => hz (he ▸ hu)
  have huy : u ≠ y := fun he => hy (mem_cons_of_mem z (he ▸ hu))
  rw [update_of_ne huz, update_of_ne huy]

theorem Seg.bypass (h : Seg next z (y :: l) b) (hz : z ∉ l) :
    Seg (update next z (next y)) z l b := by
  cases l with
  | nil => exact (update_self ..).trans h.2
  | cons x l =>
  refine ⟨(update_self ..).trans h.2.1, h.2.2.congr fun u hu => ?_⟩
  have hne : u ≠ z := fun he => hz (he ▸ hu)
  exact update_of_ne hne ..

end Update

/-! ### Searching -/

variable {stop : B → Prop} [DecidablePred stop]

/-- Follow the pointers to a node that passes; the number bounds the nodes looked at. -/
def search (next : B → B) (stop : B → Prop) [DecidablePred stop] : ℕ → B → Option B
  | 0, _ => none
  | k + 1, a => if stop a then some a else search next stop k (next a)

theorem search_mono {k k' : ℕ} (h : search next stop k a = some x) (hk : k ≤ k') :
    search next stop k' a = some x := by
  induction k generalizing a k' with
  | zero => cases h
  | succ k ih =>
  obtain ⟨k', rfl⟩ := Nat.exists_eq_succ_of_ne_zero (Nat.ne_zero_of_lt hk)
  rw [search] at h ⊢
  split at h
  case isTrue hs => rw [if_pos hs, h]
  case isFalse hs => rw [if_neg hs, ih h (Nat.le_of_succ_le_succ hk)]

/-- **The search ends** at a node that passes, if there is one. -/
theorem Seg.exists_search (h : Seg next a l b) (hx : ∃ x ∈ a :: l, stop x) :
    ∀ k, l.length < k → ∃ x ∈ a :: l, stop x ∧ search next stop k a = some x := by
  induction l generalizing a with
  | nil =>
    intro k hk
    obtain ⟨x, hmem, hstop⟩ := hx
    obtain rfl := mem_singleton.mp hmem
    obtain ⟨k, rfl⟩ := Nat.exists_eq_succ_of_ne_zero (Nat.ne_zero_of_lt hk)
    exact ⟨x, hmem, hstop, if_pos hstop⟩
  | cons c l ih =>
  intro k hk
  obtain ⟨k, rfl⟩ := Nat.exists_eq_succ_of_ne_zero (Nat.ne_zero_of_lt hk)
  by_cases hstop : stop a
  · exact ⟨a, mem_cons_self, hstop, if_pos hstop⟩
  obtain ⟨x, hmem, hsx⟩ := hx
  have hmem' : x ∈ c :: l := by
    rcases mem_cons.mp hmem with rfl | hm
    · exact absurd hsx hstop
    · exact hm
  obtain ⟨y, hy, hsy, hrun⟩ := ih h.2 ⟨x, hmem', hsx⟩ k (Nat.lt_of_succ_lt_succ hk)
  refine ⟨y, mem_cons_of_mem a hy, hsy, ?_⟩
  rw [search, if_neg hstop, h.1]
  exact hrun

end Cyclic
