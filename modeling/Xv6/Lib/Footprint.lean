import Mathlib.Algebra.BigOperators.Group.Finset.Basic
import Mathlib.Algebra.Group.Pi.Basic
import Mathlib.Algebra.Order.BigOperators.Group.Finset
import Mathlib.Tactic.Common

/-!
# Ownership by counting

A heap is a set of resources, each with contents, some of them free. A footprint says how often
somebody owns each resource. A program moves resources between the free list and a footprint: it
neither makes nor loses any, and it leaves alone the contents of what was neither free nor owned.

Two footprints that are together sole do not overlap, so a move within one keeps the contents of the
other. A footprint that is read off the contents of its own resources (a linked structure) is then
unchanged, whatever happens elsewhere. This is the frame rule, with counts in place of disjointness.
-/

namespace Footprint

/-- Resources, how often each is free, and their contents. -/
structure Heap (σ ι γ : Type) where
  free : σ → ι → ℕ
  content : σ → ι → γ

/-- One resource. -/
def only {ι : Type} [DecidableEq ι] (x : ι) : ι → ℕ := fun y => if y = x then 1 else 0

theorem only_self {ι : Type} [DecidableEq ι] (x : ι) : only x x = 1 := if_pos rfl

theorem only_of_ne {ι : Type} [DecidableEq ι] {x y : ι} (h : y ≠ x) : only x y = 0 := if_neg h

namespace Heap

variable {σ ι γ : Type} (H : Heap σ ι γ)

/-- From `s` to `s'`, a program that owns `O` comes to own `O'`. -/
structure Moves (s : σ) (O : ι → ℕ) (s' : σ) (O' : ι → ℕ) : Prop where
  conserve : ∀ x, H.free s' x + O' x = H.free s x + O x
  frame : ∀ x, H.free s x + O x = 0 → H.content s' x = H.content s x

/-- Nothing is owned twice, or owned and free. -/
def Sole (s : σ) (O : ι → ℕ) : Prop := ∀ x, H.free s x + O x ≤ 1

/-- A footprint that depends on nothing but the contents of what is in it. -/
def IsLocal (F : σ → ι → ℕ) : Prop :=
  ∀ s s', (∀ x, F s x ≠ 0 → H.content s' x = H.content s x) → F s' = F s

variable {H} {s s' s'' : σ} {O O' O'' R : ι → ℕ}

theorem Moves.refl (s : σ) (O : ι → ℕ) : H.Moves s O s O := ⟨fun _ => rfl, fun _ _ => rfl⟩

theorem Moves.trans (h : H.Moves s O s' O') (h' : H.Moves s' O' s'' O'') : H.Moves s O s'' O'' where
  conserve x := (h'.conserve x).trans (h.conserve x)
  frame x hx := (h'.frame x ((h.conserve x).trans hx)).trans (h.frame x hx)

/-- The program owns something else as well. -/
theorem Moves.add (h : H.Moves s O s' O') (R : ι → ℕ) : H.Moves s (O + R) s' (O' + R) where
  conserve x := by
    have := h.conserve x
    simp only [Pi.add_apply]
    omega
  frame x hx := by
    simp only [Pi.add_apply] at hx
    exact h.frame x (by omega)

theorem Sole.moves (hs : H.Sole s O) (h : H.Moves s O s' O') : H.Sole s' O' :=
  fun x => Nat.le_trans (Nat.le_of_eq (h.conserve x)) (hs x)

theorem Sole.left (hs : H.Sole s (O + R)) : H.Sole s O := by
  intro x
  have := hs x
  simp only [Pi.add_apply] at this
  omega

/-- What somebody else owns keeps its contents. -/
theorem Moves.content_eq (h : H.Moves s O s' O') (hs : H.Sole s (O + R)) {x : ι} (hx : R x ≠ 0) :
    H.content s' x = H.content s x := by
  refine h.frame x ?_
  have := hs x
  simp only [Pi.add_apply] at this
  omega

/-- **The frame rule.** -/
theorem Moves.local_eq {F : σ → ι → ℕ} (h : H.Moves s O s' O') (hF : H.IsLocal F)
    (hs : H.Sole s (O + F s)) : F s' = F s :=
  hF s s' fun _ hx => h.content_eq hs hx

end Heap

end Footprint

/-! ### Sums over a table

Reference counts are sums over a table: how many entries point here. When one entry of the table
changes, the sum changes by the difference of that entry's contributions. -/

namespace Tally

open Function Finset

variable {ι α : Type} {s : Finset ι} {g : α → ℕ} {h : ι → α} {a : ι}

/-- The sum of `g` over the entries `s` of the table `h`. -/
def tally (s : Finset ι) (g : α → ℕ) (h : ι → α) : ℕ := ∑ x ∈ s, g (h x)

theorem le_tally (ha : a ∈ s) : g (h a) ≤ tally s g h :=
  single_le_sum (f := fun x => g (h x)) (fun _ _ => Nat.zero_le _) ha

theorem add_le_tally {b : ι} (ha : a ∈ s) (hb : b ∈ s) (hne : a ≠ b) :
    g (h a) + g (h b) ≤ tally s g h := by
  classical
  calc g (h a) + g (h b) = ∑ x ∈ {a, b}, g (h x) :=
      (sum_pair (f := fun x => g (h x)) hne).symm
    _ ≤ tally s g h := sum_le_sum_of_subset fun x hx => by
      rcases mem_insert.mp hx with rfl | hx
      · exact ha
      · rwa [mem_singleton.mp hx]

theorem exists_of_tally_ne_zero (hne : tally s g h ≠ 0) : ∃ x ∈ s, g (h x) ≠ 0 :=
  exists_ne_zero_of_sum_ne_zero hne

theorem tally_eq_zero (hz : ∀ x ∈ s, g (h x) = 0) : tally s g h = 0 := sum_eq_zero hz

theorem tally_congr {g' : α → ℕ} {h' : ι → α} (heq : ∀ x ∈ s, g (h x) = g' (h' x)) :
    tally s g h = tally s g' h' := sum_congr rfl heq

variable [DecidableEq ι]

/-- **One entry changes.** -/
theorem tally_update (ha : a ∈ s) (b : α) :
    tally s g (update h a b) + g (h a) = tally s g h + g b := by
  have hrest : ∑ x ∈ s.erase a, g (update h a b x) = ∑ x ∈ s.erase a, g (h x) :=
    sum_congr rfl fun x hx => by rw [update_of_ne (ne_of_mem_erase hx)]
  unfold tally
  rw [← add_sum_erase s _ ha, ← add_sum_erase s (fun x => g (h x)) ha, hrest, update_self]
  omega

theorem tally_update_eq (ha : a ∈ s) {b : α} (hb : g b = g (h a)) :
    tally s g (update h a b) = tally s g h := by
  have := tally_update (g := g) (h := h) ha b
  omega

end Tally
