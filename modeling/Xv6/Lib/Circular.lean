import Mathlib.Data.List.Nodup
import Mathlib.Data.List.Perm.Basic
import Mathlib.Logic.Function.Basic
import Mathlib.Tactic.Common

/-!
# Circular doubly linked lists

A circular list with a sentinel: the nodes are `some x` for the elements and `none` for the
sentinel, and two maps give the node after a node and the node before it. An element is taken out of
the list and put in after the sentinel by the usual assignments to the two maps.
-/

namespace Circular

open Function List

variable {α : Type}

/-- The pointers of all nodes; `none` is the sentinel. -/
structure Links (α : Type) where
  next : Option α → Option α
  prev : Option α → Option α

namespace Links

variable [DecidableEq α] (k : Links α)

/-- `x->next = y` -/
def setNext (x y : Option α) : Links α := { k with next := update k.next x y }

/-- `x->prev = y` -/
def setPrev (x y : Option α) : Links α := { k with prev := update k.prev x y }

/-- `b->next->prev = b->prev; b->prev->next = b->next` -/
def unlink (b : Option α) : Links α :=
  let k := k.setPrev (k.next b) (k.prev b)
  k.setNext (k.prev b) (k.next b)

/-- `b->next = head.next; b->prev = head; head.next->prev = b; head.next = b` -/
def pushFront (b : Option α) : Links α :=
  let k := k.setNext b (k.next none)
  let k := k.setPrev b none
  let k := k.setPrev (k.next none) b
  k.setNext none b

/-- The sentinel alone. -/
def empty : Links α := ⟨fun _ => none, fun _ => none⟩

end Links

variable {k k' : Links α} {a b c x : Option α} {l l₁ l₂ : List (Option α)}

/-- `next` leads from `a` along `l` to `b`, and `prev` back. -/
def Path (k : Links α) : Option α → List (Option α) → Option α → Prop
  | a, [], b => k.next a = b ∧ k.prev b = a
  | a, x :: l, b => (k.next a = x ∧ k.prev x = a) ∧ Path k x l b

theorem Path.congr (h : Path k a l b) (hn : ∀ u ∈ a :: l, k'.next u = k.next u)
    (hp : ∀ v ∈ l ++ [b], k'.prev v = k.prev v) : Path k' a l b := by
  induction l generalizing a with
  | nil => exact ⟨(hn a (by simp)).trans h.1, (hp b (by simp)).trans h.2⟩
  | cons x l ih =>
  refine ⟨⟨(hn a (by simp)).trans h.1.1, (hp x (by simp)).trans h.1.2⟩, ih h.2 ?_ ?_⟩
  · exact fun u hu => hn u (mem_cons_of_mem a hu)
  · exact fun v hv => hp v (mem_cons_of_mem x hv)

theorem path_append : Path k a (l₁ ++ x :: l₂) b ↔ Path k a l₁ x ∧ Path k x l₂ b := by
  induction l₁ generalizing a with
  | nil => rfl
  | cons y l₁ ih => simp only [cons_append, Path, ih, and_assoc]

theorem Path.next_mem (h : Path k a l b) : k.next a ∈ l ++ [b] := by
  cases l with
  | nil => simp [h.1]
  | cons x l => simp [h.1.1]

theorem Path.prev_mem (h : Path k a l b) : k.prev b ∈ a :: l := by
  induction l generalizing a with
  | nil => simp [h.2]
  | cons x l ih => exact mem_cons_of_mem a (ih h.2)

/-- Read backwards, a path is a path for the maps exchanged. -/
theorem Path.reverse (h : Path k a l b) : Path ⟨k.prev, k.next⟩ b l.reverse a := by
  induction l generalizing a with
  | nil => exact ⟨h.2, h.1⟩
  | cons x l ih =>
    rw [reverse_cons, path_append]
    exact ⟨ih h.2, h.1.2, h.1.1⟩

theorem Path.prev_next (h : Path k a l b) : ∀ u ∈ a :: l, k.prev (k.next u) = u := by
  induction l generalizing a with
  | nil =>
    intro u hu
    rw [mem_singleton.mp hu, h.1, h.2]
  | cons x l ih =>
  intro u hu
  rcases mem_cons.mp hu with rfl | hu
  · rw [h.1.1, h.1.2]
  · exact ih h.2 u hu

/-! ### Taking out and putting in -/

variable [DecidableEq α]

/-- The pointers after `b` has been taken out. -/
def Links.without (k : Links α) (b : Option α) : Links α where
  next := update k.next (k.prev b) (k.next b)
  prev := update k.prev (k.next b) (k.prev b)

theorem unlink_eq (hb : b ≠ k.next b) : k.unlink b = k.without b := by
  have hprev : update k.prev (k.next b) (k.prev b) b = k.prev b :=
    update_of_ne hb _ _
  simp only [Links.unlink, Links.setPrev, Links.setNext, Links.without, hprev]

/-- Taking a node out of a path. -/
theorem Path.without (h : Path k a (l₁ ++ b :: l₂) c) (hn : (a :: (l₁ ++ b :: l₂)).Nodup)
    (hp : ((l₁ ++ b :: l₂) ++ [c]).Nodup) : Path (k.without b) a (l₁ ++ l₂) c := by
  induction l₁ generalizing a with
  | nil =>
    obtain ⟨⟨hab, hba⟩, h₂⟩ := h
    have hnext : (k.without b).next a = k.next b := by
      simp only [Links.without, hba, update_self]
    have hprev : (k.without b).prev (k.next b) = a := by
      simp only [Links.without, hba, update_self]
    cases l₂ with
    | nil =>
      rw [h₂.1] at hnext hprev
      exact ⟨hnext, hprev⟩
    | cons y m =>
    rw [h₂.1.1] at hnext hprev
    refine ⟨⟨hnext, hprev⟩, h₂.2.congr (fun u hu => ?_) fun v hv => ?_⟩
    · have hua : u ≠ k.prev b := by
        rw [hba]
        rintro rfl
        exact (nodup_cons.mp hn).1 (mem_append_right [] (mem_cons_of_mem b hu))
      exact update_of_ne hua _ _
    have hvy : v ≠ k.next b := by
      rw [h₂.1.1]
      rintro rfl
      exact (nodup_cons.mp (nodup_cons.mp hp).2).1 hv
    exact update_of_ne hvy _ _
  | cons z m ih =>
    obtain ⟨h₁, h₂⟩ := path_append.mp h.2
    have haz : a ≠ k.prev b := by
      intro he
      have hmem : a ∈ z :: m := he ▸ h₁.prev_mem
      exact (nodup_cons.mp hn).1 (mem_append_left _ hmem)
    have hzy : z ≠ k.next b := by
      intro he
      have hmem : z ∈ l₂ ++ [c] := he ▸ h₂.next_mem
      refine (nodup_cons.mp hp).1 (mem_append.mpr ?_)
      exact (mem_append.mp hmem).imp_left fun hm =>
        mem_append_right m (mem_cons_of_mem b hm)
    refine ⟨⟨?_, ?_⟩, ih h.2 (nodup_cons.mp hn).2 (nodup_cons.mp hp).2⟩
    · exact (update_of_ne haz _ _).trans h.1.1
    · exact (update_of_ne hzy _ _).trans h.1.2

theorem Path.pushFront (h : Path k none l none) (hb : b ∉ none :: l) (hl : (none :: l).Nodup) :
    Path (k.pushFront b) none (b :: l) none := by
  have hbn : b ≠ none := fun he => hb (he ▸ mem_cons_self)
  have hbl : b ≠ k.next none := by
    intro he
    have hmem := he ▸ h.next_mem
    exact hb (by simpa [or_comm] using hmem)
  have heq : k.pushFront b = ⟨update (update k.next b (k.next none)) none b,
        update (update k.prev b none) (k.next none) b⟩ := by
    simp only [Links.pushFront, Links.setPrev, Links.setNext, update_of_ne hbn.symm]
  have hnext : (k.pushFront b).next b = k.next none := by
    simp only [heq, update_of_ne hbn, update_self]
  have hprev : (k.pushFront b).prev (k.next none) = b := by
    simp only [heq, update_self]
  refine ⟨⟨?_, ?_⟩, ?_⟩
  · simp only [heq, update_self]
  · simp only [heq, update_of_ne hbl, update_self]
  cases l with
  | nil =>
    rw [h.1] at hnext hprev
    exact ⟨hnext, hprev⟩
  | cons z m =>
  rw [h.1.1] at hnext hprev
  refine ⟨⟨hnext, hprev⟩, h.2.congr (fun u hu => ?_) fun v hv => ?_⟩
  · have hub : u ≠ b := fun he => hb (mem_cons_of_mem none (he ▸ hu))
    have hun : u ≠ none := fun he => (nodup_cons.mp hl).1 (he ▸ hu)
    simp only [heq, update_of_ne hun, update_of_ne hub]
  have hvb : v ≠ b := by
    rintro rfl
    rcases mem_append.mp hv with hv | hv
    · exact hb (mem_cons_of_mem none (mem_cons_of_mem z hv))
    · exact hbn (mem_singleton.mp hv)
  have hvz : v ≠ k.next none := by
    rw [h.1.1]
    rintro rfl
    rcases mem_append.mp hv with hv | hv
    · exact (nodup_cons.mp (nodup_cons.mp hl).2).1 hv
    · rw [mem_singleton.mp hv] at hl
      exact (nodup_cons.mp hl).1 mem_cons_self
  simp only [heq, update_of_ne hvz, update_of_ne hvb]

/-! ### The whole list -/

variable {xs ys : List α} {y : α}

/-- The list, from the sentinel on, has the elements `xs`, each once. -/
structure Ring (k : Links α) (xs : List α) : Prop where
  path : Path k none (xs.map some) none
  nodup : xs.Nodup

omit [DecidableEq α] in
theorem nodup_sentinel (h : xs.Nodup) : (none :: xs.map some).Nodup :=
  nodup_cons.mpr ⟨by simp, h.map fun _ _ => Option.some.inj⟩

omit [DecidableEq α] in
theorem ring_empty : Ring (Links.empty : Links α) [] := ⟨⟨rfl, rfl⟩, nodup_nil⟩

theorem Ring.pushFront (h : Ring k xs) (hy : y ∉ xs) : Ring (k.pushFront (some y)) (y :: xs) where
  path := h.path.pushFront (by simpa using hy) (nodup_sentinel h.nodup)
  nodup := nodup_cons.mpr ⟨hy, h.nodup⟩

theorem Ring.foldl_pushFront (h : Ring k xs) (hy : (ys.reverse ++ xs).Nodup) :
    Ring (ys.foldl (fun k y => k.pushFront (some y)) k) (ys.reverse ++ xs) := by
  induction ys generalizing k xs with
  | nil => exact h
  | cons y ys ih =>
    rw [reverse_cons, append_assoc, singleton_append] at hy ⊢
    exact ih (h.pushFront (nodup_cons.mp (nodup_append.mp hy).2.1).1) hy

theorem Ring.unlink (h : Ring k (xs ++ y :: ys)) : Ring (k.unlink (some y)) (xs ++ ys) := by
  have hpath := h.path
  have hn := nodup_sentinel h.nodup
  rw [map_append, map_cons] at hpath hn
  have hp : ((xs.map some ++ some y :: ys.map some) ++ [none]).Nodup :=
    (perm_append_singleton none _).nodup_iff.mpr hn
  have hne : some y ≠ k.next (some y) := by
    intro he
    have hmem : some y ∈ ys.map some ++ [none] := he ▸ (path_append.mp hpath).2.next_mem
    rw [append_assoc] at hp
    exact (nodup_cons.mp (nodup_append.mp hp).2.1).1 hmem
  refine ⟨?_, ?_⟩
  · rw [unlink_eq hne, map_append]
    exact hpath.without hn hp
  · exact h.nodup.sublist ((sublist_cons_self y ys).append_left xs)

theorem Ring.moveToFront (h : Ring k xs) (hy : y ∈ xs) :
    Ring ((k.unlink (some y)).pushFront (some y)) (y :: xs.erase y) := by
  obtain ⟨as, bs, hya, rfl, herase⟩ := exists_erase_eq hy
  rw [herase]
  refine h.unlink.pushFront fun hmem => ?_
  have hnot := (nodup_cons.mp (nodup_middle.mp h.nodup)).1
  exact hnot hmem

omit [DecidableEq α] in
theorem Ring.prev_next (h : Ring k xs) (hall : ∀ y, y ∈ xs) (x : Option α) :
    k.prev (k.next x) = x := by
  refine h.path.prev_next x ?_
  cases x with
  | none => exact mem_cons_self
  | some y => exact mem_cons_of_mem none (mem_map_of_mem (hall y))

omit [DecidableEq α] in
theorem Ring.next_prev (h : Ring k xs) (hall : ∀ y, y ∈ xs) (x : Option α) :
    k.next (k.prev x) = x := by
  refine h.path.reverse.prev_next x ?_
  cases x with
  | none => exact mem_cons_self
  | some y =>
    exact mem_cons_of_mem none (mem_reverse.mpr (mem_map_of_mem (hall y)))

/-! ### Searching -/

/-- Follow `f` from a node to the first element that passes the test, or to the sentinel. The first
argument bounds the number of steps. -/
def walk (f : Option α → Option α) (test : α → Bool) : ℕ → Option α → Option α
  | 0, _ => none
  | _ + 1, none => none
  | n + 1, some x => if test x then some x else walk f test n (f (some x))

omit [DecidableEq α] in
theorem Path.walk {test : α → Bool} {n : ℕ} (h : Path k a (xs.map some) none)
    (hn : xs.length < n) : walk k.next test n (k.next a) = xs.find? test := by
  induction xs generalizing a n with
  | nil =>
    obtain ⟨m, rfl⟩ := Nat.exists_eq_add_of_lt hn
    rw [h.1]
    rfl
  | cons x xs ih =>
  cases n with
  | zero => exact absurd hn (Nat.not_lt_zero _)
  | succ n =>
  have hx : k.next a = some x := h.1.1
  rw [hx, Circular.walk, find?_cons]
  cases htest : test x with
  | true => rfl
  | false => exact ih h.2 (Nat.lt_of_succ_lt_succ hn)

omit [DecidableEq α] in
theorem Ring.walk_next {test : α → Bool} {n : ℕ} (h : Ring k xs) (hn : xs.length < n) :
    walk k.next test n (k.next none) = xs.find? test := h.path.walk hn

omit [DecidableEq α] in
theorem Ring.walk_prev {test : α → Bool} {n : ℕ} (h : Ring k xs) (hn : xs.length < n) :
    walk k.prev test n (k.prev none) = xs.reverse.find? test := by
  have hpath := h.path.reverse
  rw [← map_reverse] at hpath
  exact hpath.walk (by rwa [length_reverse])

end Circular
