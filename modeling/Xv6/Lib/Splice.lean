import Mathlib.Data.List.Basic

/-!
# Reading and overwriting a range of a list

`slice` is a range of a list, cut off at its end; `splice` replaces a range by another list, and
extends the list if the range reaches past its end. Both are determined position by position.
-/

namespace Splice

open List

variable {α : Type}

/-- `n` elements from position `off`, or as many as there are. -/
def slice (xs : List α) (off n : ℕ) : List α := (xs.drop off).take n

/-- Overwrite from position `off`. -/
def splice (xs : List α) (off : ℕ) (ys : List α) : List α :=
  xs.take off ++ ys ++ xs.drop (off + ys.length)

theorem getElem?_slice (xs : List α) (off n k : ℕ) :
    (slice xs off n)[k]? = if k < n then xs[off + k]? else none := by
  rw [slice, getElem?_take]
  simp only [getElem?_drop]

variable {xs ys : List α}

theorem getElem?_splice {off : ℕ} (h : off ≤ xs.length) (k : ℕ) : (splice xs off ys)[k]? =
      if k < off then xs[k]? else if k < off + ys.length then ys[k - off]? else xs[k]? := by
  have hlen : (xs.take off).length = off := length_take_of_le h
  unfold splice
  by_cases h₁ : k < off
  · rw [if_pos h₁, append_assoc, getElem?_append_left (by omega), getElem?_take_of_lt h₁]
  rw [if_neg h₁]
  by_cases h₂ : k < off + ys.length
  · rw [if_pos h₂, append_assoc, getElem?_append_right (by omega), hlen,
      getElem?_append_left (by omega)]
  rw [if_neg h₂, getElem?_append_right (by simp; omega), getElem?_drop]
  congr 1
  simp only [length_append, hlen]
  omega

theorem length_splice {off : ℕ} (h : off ≤ xs.length) :
    (splice xs off ys).length = max xs.length (off + ys.length) := by
  simp only [splice, length_append, length_take_of_le h, length_drop]
  omega

theorem slice_splice_self {off : ℕ} (h : off ≤ xs.length) :
    slice (splice xs off ys) off ys.length = ys := by
  refine ext_getElem? fun k => ?_
  rw [getElem?_slice]
  by_cases hk : k < ys.length
  · rw [if_pos hk, getElem?_splice h, if_neg (by omega), if_pos (by omega), Nat.add_sub_cancel_left]
  · rw [if_neg hk, getElem?_eq_none (by omega)]

theorem slice_splice_of_disjoint {off off' n : ℕ} (h : off ≤ xs.length)
    (hd : off' + n ≤ off ∨ off + ys.length ≤ off') :
    slice (splice xs off ys) off' n = slice xs off' n := by
  refine ext_getElem? fun k => ?_
  rw [getElem?_slice, getElem?_slice]
  by_cases hk : k < n
  · rw [if_pos hk, if_pos hk, getElem?_splice h]
    rcases hd with hd | hd
    · rw [if_pos (by omega)]
    · rw [if_neg (by omega), if_neg (by omega)]
  · rw [if_neg hk, if_neg hk]

/-! ### Lists given by a function -/

theorem slice_map_range (f : ℕ → α) (size off n : ℕ) : slice ((range size).map f) off n =
      (range (min n (size - off))).map fun k => f (off + k) := by
  refine ext_getElem? fun k => ?_
  rw [getElem?_slice]
  simp only [getElem?_map]
  by_cases hk : k < min n (size - off)
  · rw [if_pos (by omega), getElem?_range (by omega), getElem?_range hk]
    rfl
  have hright : (range (min n (size - off)))[k]? = none :=
    getElem?_eq_none (by rw [length_range]; omega)
  rw [hright]
  split
  · rw [getElem?_eq_none (by rw [length_range]; omega)]
    rfl
  · rfl

/-- A file whose bytes are replaced on a range and kept elsewhere. -/
theorem splice_map_range {f g src : ℕ → α} {size size' off n : ℕ} (hoff : off ≤ size)
    (hsize : size' = max size (off + n))
    (hg : ∀ k, g k = if off ≤ k ∧ k < off + n then src (k - off) else f k) :
    (range size').map g = splice ((range size).map f) off ((range n).map src) := by
  refine ext_getElem? fun k => ?_
  rw [getElem?_splice (by simpa using hoff)]
  simp only [getElem?_map, length_map, length_range]
  by_cases hk : k < size'
  · rw [getElem?_range hk, Option.map_some, hg]
    by_cases h₁ : k < off
    · rw [if_pos h₁, if_neg (by omega), getElem?_range (by omega)]
      rfl
    rw [if_neg h₁]
    by_cases h₂ : k < off + n
    · rw [if_pos h₂, if_pos ⟨by omega, h₂⟩, getElem?_range (by omega)]
      rfl
    · rw [if_neg h₂, if_neg (by omega), getElem?_range (by omega)]
      rfl
  · rw [getElem?_eq_none (by simpa using hk), if_neg (by omega), if_neg (by omega),
      getElem?_eq_none (by simp; omega)]
    rfl

end Splice
