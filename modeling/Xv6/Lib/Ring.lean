import Mathlib.Data.Nat.ModEq
import Mathlib.Logic.Function.Basic
import Mathlib.Tactic.Common

/-!
# Ring buffers with wrapping counters

A ring buffer of `N` cells is read and written at two 32-bit counters that only count up and wrap;
the cell of a counter is its value modulo `N`. When `N` divides `2 ^ 32`, the cells of consecutive
counters are consecutive also where a counter wraps, and when `N` is smaller than `2 ^ 32`, a full
buffer is told from an empty one by the counters.
-/

namespace Ring

open Function List

/-- The sizes for which the cells of wrapping counters follow one another. -/
class Size (N : ℕ) : Prop where
  dvd : N ∣ 2 ^ 32
  lt : N < 2 ^ 32

variable {N : ℕ} [NeZero N] {α : Type}

/-- The cell of a counter. -/
def cell (N : ℕ) [NeZero N] (c : UInt32) : Fin N := Fin.ofNat N c.toNat

/-- The cells from counter `r` to counter `w` hold the queue `q`. -/
structure Holds (buf : Fin N → α) (r w : UInt32) (q : List α) : Prop where
  length_le : q.length ≤ N
  write_eq : w = r + UInt32.ofNat q.length
  get : ∀ i (h : i < q.length), buf (cell N (r + UInt32.ofNat i)) = q[i]

theorem Holds.nil (buf : Fin N → α) (r : UInt32) : Holds buf r r [] where
  length_le := Nat.zero_le N
  write_eq := by simp
  get := fun _ h => absurd h (Nat.not_lt_zero _)

theorem add_left_inj_of_lt {r : UInt32} {m n : ℕ} (hm : m < 2 ^ 32) (hn : n < 2 ^ 32)
    (h : r + UInt32.ofNat m = r + UInt32.ofNat n) : m = n := by
  have h' := congrArg UInt32.toNat ((UInt32.add_right_inj r).mp h)
  rwa [UInt32.toNat_ofNat_of_lt' hm, UInt32.toNat_ofNat_of_lt' hn] at h'

variable [Size N] {buf : Fin N → α} {r w : UInt32} {q : List α} {c : α}

theorem val_cell_add (r : UInt32) (i : ℕ) :
    (cell N (r + UInt32.ofNat i)).val = (r.toNat + i) % N := by
  have hdvd : N ∣ 2 ^ 32 := Size.dvd
  simp only [cell, Fin.val_ofNat, UInt32.toNat_add, UInt32.toNat_ofNat']
  rw [Nat.mod_mod_of_dvd _ hdvd, Nat.add_mod, Nat.mod_mod_of_dvd _ hdvd, ← Nat.add_mod]

theorem cell_add_inj {i j : ℕ} (hi : i < N) (hj : j < N)
    (h : cell N (r + UInt32.ofNat i) = cell N (r + UInt32.ofNat j)) : i = j := by
  have hval := congrArg Fin.val h
  rw [val_cell_add, val_cell_add] at hval
  exact (Nat.ModEq.add_left_cancel' r.toNat hval).eq_of_lt_of_lt hi hj

theorem Holds.length_lt (h : Holds buf r w q) : q.length < 2 ^ 32 :=
  Nat.lt_of_le_of_lt h.length_le Size.lt

theorem Holds.empty_iff (h : Holds buf r w q) : r = w ↔ q = [] := by
  constructor
  · intro hrw
    have hlen : r + UInt32.ofNat 0 = r + UInt32.ofNat q.length := by
      rw [← h.write_eq, ← hrw]
      simp
    exact length_eq_zero_iff.mp (add_left_inj_of_lt (by decide) h.length_lt hlen).symm
  · rintro rfl
    simpa using h.write_eq.symm

theorem Holds.full_iff (h : Holds buf r w q) : w = r + UInt32.ofNat N ↔ q.length = N := by
  constructor
  · intro hw
    exact add_left_inj_of_lt h.length_lt Size.lt (h.write_eq.symm.trans hw)
  · intro hlen
    rw [h.write_eq, hlen]

theorem toNat_add_sub {n : ℕ} (hn : n < 2 ^ 32) (r : UInt32) :
    (r + UInt32.ofNat n - r).toNat = n := by
  rw [UInt32.add_comm, UInt32.add_sub_cancel, UInt32.toNat_ofNat_of_lt' hn]

/-- The distance of the counters is the length of the queue. -/
theorem Holds.toNat_sub (h : Holds buf r w q) : (w - r).toNat = q.length := by
  rw [h.write_eq]
  exact toNat_add_sub h.length_lt r

/-- **Writing.** A cell of a buffer that is not full takes a new value at the write counter. -/
theorem Holds.push (h : Holds buf r w q) (hlen : q.length < N) (c : α) :
    Holds (update buf (cell N w) c) r (w + 1) (q ++ [c]) where
  length_le := by
    rw [length_append]
    exact hlen
  write_eq := by
    rw [h.write_eq, length_append, length_singleton, UInt32.ofNat_add, UInt32.add_assoc]
    rfl
  get := by
    intro i hi
    rw [length_append, length_singleton] at hi
    rcases Nat.lt_succ_iff_lt_or_eq.mp hi with hlt | rfl
    · have hne : cell N (r + UInt32.ofNat i) ≠ cell N w := fun he =>
        hlt.ne (cell_add_inj (hlt.trans hlen) hlen (he.trans (congrArg (cell N) h.write_eq)))
      rw [update_of_ne hne, getElem_append_left hlt]
      exact h.get i hlt
    · rw [← h.write_eq, update_self, getElem_concat_length rfl]

omit [Size N] in
/-- **Reading.** The cell of the read counter holds the first value. -/
theorem Holds.pop (h : Holds buf r w (c :: q)) : buf (cell N r) = c ∧ Holds buf (r + 1) w q := by
  refine ⟨by simpa using h.get 0 (Nat.zero_lt_succ _), ?_, ?_, fun i hi => ?_⟩
  · exact Nat.le_of_succ_le h.length_le
  · rw [h.write_eq, length_cons, UInt32.ofNat_add, UInt32.add_assoc, UInt32.add_comm 1]
    rfl
  · have hget := h.get (i + 1) (Nat.succ_lt_succ hi)
    rw [UInt32.ofNat_add, UInt32.add_comm (UInt32.ofNat i), ← UInt32.add_assoc] at hget
    exact hget

omit [Size N] in
/-- The cell before the write counter holds the last value, and the write counter may go back. -/
theorem Holds.pop_last (h : Holds buf r w (q ++ [c])) :
    buf (cell N (w - 1)) = c ∧ Holds buf r (w - 1) q := by
  have hlen : (q ++ [c]).length = q.length + 1 := length_append
  have hw : w - 1 = r + UInt32.ofNat q.length := by
    rw [h.write_eq, hlen, UInt32.ofNat_add, ← UInt32.add_assoc]
    exact UInt32.add_sub_cancel _ 1
  refine ⟨?_, ?_, hw, fun i hi => ?_⟩
  · have hget := h.get q.length (by rw [hlen]; exact Nat.lt_succ_self _)
    rwa [← hw, getElem_concat_length rfl] at hget
  · exact Nat.le_of_succ_le (Nat.le_trans (Nat.le_of_eq hlen.symm) h.length_le)
  · have hget := h.get i (by rw [hlen]; exact Nat.lt_succ_of_lt hi)
    rwa [getElem_append_left hi] at hget

end Ring
