import Mathlib.Logic.Function.Basic
import Mathlib.Tactic.Common

/-!
# Exclusive ownership

Slots that each hold the number of a resource or `0`, and a mark on every resource in use. A state
is *owned* when no resource is in two slots, every resource in a slot is marked, and every marked
resource of the managed area is in some slot: no sharing and no leak.

Taking an unmarked resource into an empty slot, and giving one up, keep it so.
-/

namespace Ownership

open Function

variable {S : Type}

/-- The slots own exactly the marked resources of the area, one slot each. -/
structure Owned (slot : S → ℕ) (used : ℕ → Bool) (area : ℕ → Prop) : Prop where
  /-- No resource is in two slots. -/
  inj : ∀ a b, slot a ≠ 0 → slot a = slot b → a = b
  /-- What is in a slot is in the area and marked. -/
  sound : ∀ a, slot a ≠ 0 → area (slot a) ∧ used (slot a) = true
  /-- What is marked is in a slot. -/
  complete : ∀ r, r ≠ 0 → area r → used r = true → ∃ a, slot a = r

variable {slot : S → ℕ} {used : ℕ → Bool} {area : ℕ → Prop}

/-- An unmarked resource is in no slot. -/
theorem Owned.ne_of_unused {r : ℕ} (h : Owned slot used area) (hr : r ≠ 0)
    (hu : used r = false) (a : S) : slot a ≠ r := by
  rintro rfl
  have hused := (h.sound a hr).2
  rw [hu] at hused
  cases hused

variable [DecidableEq S]

/-- **Taking a resource.** -/
theorem Owned.alloc {a : S} {r : ℕ} (h : Owned slot used area) (ha : slot a = 0) (hr : r ≠ 0)
    (harea : area r) (hu : used r = false) : Owned (update slot a r) (update used r true) area := by
  have hne := h.ne_of_unused hr hu
  refine ⟨fun b c hb hbc => ?_, fun b hb => ?_, fun q hq hqa hmark => ?_⟩
  · by_cases hba : b = a <;> by_cases hca : c = a
    · rw [hba, hca]
    · rw [hba, update_self, update_of_ne hca] at hbc
      exact absurd hbc.symm (hne c)
    · rw [hca, update_self, update_of_ne hba] at hbc
      exact absurd hbc (hne b)
    · rw [update_of_ne hba] at hb hbc
      rw [update_of_ne hca] at hbc
      exact h.inj b c hb hbc
  · rcases eq_or_ne b a with rfl | hba
    · rw [update_self]
      exact ⟨harea, update_self ..⟩
    · rw [update_of_ne hba] at hb ⊢
      rw [update_of_ne (hne b)]
      exact h.sound b hb
  · rcases eq_or_ne q r with rfl | hqr
    · exact ⟨a, update_self ..⟩
    rw [update_of_ne hqr] at hmark
    obtain ⟨b, rfl⟩ := h.complete q hq hqa hmark
    have hba : b ≠ a := fun hba => hq (hba ▸ ha)
    exact ⟨b, update_of_ne hba ..⟩

/-- **Giving one up.** -/
theorem Owned.free {a : S} (h : Owned slot used area) (ha : slot a ≠ 0) :
    Owned (update slot a 0) (update used (slot a) false) area := by
  have hother : ∀ b, b ≠ a → slot b ≠ 0 → slot b ≠ slot a := fun b hba hb hbc =>
    hba (h.inj b a hb hbc)
  refine ⟨fun b c hb hbc => ?_, fun b hb => ?_, fun q hq hqa hmark => ?_⟩
  · rcases eq_or_ne b a with rfl | hba
    · exact absurd (update_self ..) hb
    rw [update_of_ne hba] at hb hbc
    rcases eq_or_ne c a with rfl | hca
    · rw [update_self] at hbc
      exact absurd hbc hb
    · rw [update_of_ne hca] at hbc
      exact h.inj b c hb hbc
  · rcases eq_or_ne b a with rfl | hba
    · exact absurd (update_self ..) hb
    rw [update_of_ne hba] at hb ⊢
    rw [update_of_ne (hother b hba hb)]
    exact h.sound b hb
  · rcases eq_or_ne q (slot a) with rfl | hqr
    · rw [update_self] at hmark
      cases hmark
    rw [update_of_ne hqr] at hmark
    obtain ⟨b, rfl⟩ := h.complete q hq hqa hmark
    have hba : b ≠ a := fun hba => hqr (by rw [hba])
    exact ⟨b, update_of_ne hba ..⟩

end Ownership
