import Mathlib.Logic.Function.Basic
import Mathlib.Tactic.Common

/-!
# Singly linked lists

A list threaded through the nodes themselves: every node has a pointer to the next, and one pointer
is the head. `Chain next h l` says that from pointer `h` the nodes are those of `l`.
-/

namespace Linked

open Function

variable {B : Type} {next : B → Option B} {h : Option B} {l : List B} {a b : B}

/-- From pointer `h` on, the nodes are those of the list, and then there is none. -/
def Chain (next : B → Option B) : Option B → List B → Prop
  | none, [] => True
  | some a, b :: l => a = b ∧ Chain next (next a) l
  | _, _ => False

theorem chain_nil : Chain next h [] ↔ h = none := by
  cases h with
  | none => exact iff_of_true trivial rfl
  | some a => exact iff_of_false (fun hc => hc) nofun

theorem chain_cons : Chain next h (b :: l) ↔ h = some b ∧ Chain next (next b) l := by
  cases h with
  | none => exact iff_of_false (fun hc => hc) fun hc => absurd hc.1 nofun
  | some a =>
  constructor
  · rintro ⟨rfl, hl⟩
    exact ⟨rfl, hl⟩
  · rintro ⟨heq, hl⟩
    obtain rfl := Option.some.inj heq
    exact ⟨rfl, hl⟩

theorem Chain.head_eq (hc : Chain next h l) : h = l.head? := by
  cases l with
  | nil => exact chain_nil.mp hc
  | cons b l => exact (chain_cons.mp hc).1

section Update

variable [DecidableEq B]

theorem Chain.update {x : Option B} (hc : Chain next h l) (ha : a ∉ l) :
    Chain (update next a x) h l := by
  induction l generalizing h with
  | nil => exact chain_nil.mpr (chain_nil.mp hc)
  | cons b l ih =>
  obtain ⟨hh, hl⟩ := chain_cons.mp hc
  have hne : b ≠ a := fun heq => ha (heq ▸ List.mem_cons_self)
  refine chain_cons.mpr ⟨hh, ?_⟩
  rw [update_of_ne hne]
  exact ih hl fun hm => ha (List.mem_cons_of_mem b hm)

/-- **A node is put at the end.** -/
theorem Chain.append (hc : Chain next h (l ++ [a])) (hn : (l ++ [a]).Nodup) (hb : b ∉ l ++ [a])
    (hnone : next b = none) : Chain (Function.update next a (some b)) h (l ++ [a] ++ [b]) := by
  induction l generalizing h with
  | nil =>
    obtain ⟨hh, -⟩ := chain_cons.mp hc
    have hne : b ≠ a := fun heq => hb (heq ▸ List.mem_singleton_self a)
    refine chain_cons.mpr ⟨hh, ?_⟩
    rw [update_self]
    refine chain_cons.mpr ⟨rfl, ?_⟩
    rw [update_of_ne hne]
    exact chain_nil.mpr hnone
  | cons c l ih =>
  obtain ⟨hh, hl⟩ := chain_cons.mp hc
  obtain ⟨hcl, hn'⟩ := List.nodup_cons.mp hn
  have hne : c ≠ a := by
    rintro rfl
    exact hcl (List.mem_append_right l (List.mem_singleton_self c))
  refine chain_cons.mpr ⟨hh, ?_⟩
  rw [update_of_ne hne]
  exact ih hl hn' fun hm => hb (List.mem_cons_of_mem c hm)

end Update

/-- Follow the pointers to the last node. The first argument bounds the number of steps. -/
def findLast (next : B → Option B) : ℕ → B → B
  | 0, b => b
  | n + 1, b =>
    match next b with
    | none => b
    | some c => findLast next n c

/-- **The walk ends at the last node.** -/
theorem findLast_eq {n : ℕ} (hc : Chain next (some b) (l ++ [a])) (hn : l.length ≤ n) :
    findLast next n b = a := by
  induction l generalizing b n with
  | nil =>
    obtain ⟨heq, hnone⟩ := chain_cons.mp hc
    obtain rfl := Option.some.inj heq
    cases n with
    | zero => rfl
    | succ n => rw [findLast, chain_nil.mp hnone]
  | cons c l ih =>
  obtain ⟨heq, hl⟩ := chain_cons.mp hc
  obtain rfl := Option.some.inj heq
  cases n with
  | zero => exact absurd hn (Nat.not_succ_le_zero _)
  | succ n =>
  rw [findLast]
  cases hnext : next b with
  | none =>
    rw [hnext] at hl
    exact absurd hl.head_eq.symm (by simp)
  | some c =>
    rw [hnext] at hl
    exact ih hl (Nat.le_of_succ_le_succ hn)

end Linked
