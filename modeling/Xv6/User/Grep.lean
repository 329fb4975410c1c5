import Mathlib.Data.List.Basic
import Mathlib.Tactic.Common

/-!
# `grep`

`grep.c`. The matcher is three functions that call each other: `match` tries every start,
`matchhere` takes one item of the pattern from the front, and `matchstar` tries every length for a
starred one.
A pattern is read from the left. A star belongs to the character before it, whatever that is, and
`$` is an anchor where nothing is behind it.

`grep` reads into a buffer and looks for newlines. A line that is not complete is moved to the
front, to be continued by the next read, unless there was no newline at all: then it is dropped.

Patterns and texts are the bytes before their zeroes.
-/

namespace Xv6.Grep

open List

/-- `'^'` -/
def caret : UInt8 := 94

/-- `'$'` -/
def dollar : UInt8 := 36

/-- `'*'` -/
def star : UInt8 := 42

/-- `'.'` -/
def dot : UInt8 := 46

/-- `'\n'` -/
def newline : UInt8 := 10

/-! ### The matcher -/

mutual

/-- Search for `re` at the beginning of `text`. -/
def matchhere (re text : List UInt8) : Bool :=
  match re with
  | [] => true
  | c :: re =>
    if re.headD 0 = star then matchstar c re.tail text
    else if c = dollar ∧ re = [] then text = []
    else
      match text with
      | [] => false
      | t :: text => if c = dot ∨ c = t then matchhere re text else false
termination_by (re.length, text.length, 0)
decreasing_by
  · simp only [length_cons, length_tail]
    exact Prod.Lex.left _ _ (by omega)
  · exact Prod.Lex.left _ _ (Nat.lt_succ_self _)

/-- Search for `c*re` at the beginning of `text`. -/
def matchstar (c : UInt8) (re text : List UInt8) : Bool :=
  if matchhere re text then true
  else
    match text with
    | [] => false
    | t :: text => if t = c ∨ c = dot then matchstar c re text else false
termination_by (re.length, text.length, 1)
decreasing_by
  · exact Prod.Lex.right _ (Prod.Lex.right _ Nat.one_pos)
  · exact Prod.Lex.right _ (Prod.Lex.left _ _ (Nat.lt_succ_self _))

end

/-- The loop of `match`, which must look at the empty string. -/
def matchLoop (re : List UInt8) : List UInt8 → Bool
  | [] => matchhere re []
  | t :: text => if matchhere re (t :: text) then true else matchLoop re text

/-- `match` -/
def matchRe (re text : List UInt8) : Bool :=
  if re.headD 0 = caret then matchhere re.tail text else matchLoop re text

/-! ### What a pattern stands for -/

inductive Item where
  | one (c : UInt8)
  | many (c : UInt8)
  deriving DecidableEq

/-- The items of a pattern without its `^`, and whether it ends with an anchor. -/
def items : List UInt8 → List Item × Bool
  | [] => ([], false)
  | [c] => if c = dollar then ([], true) else ([.one c], false)
  | c :: d :: re =>
    if d = star then (.many c :: (items re).1, (items re).2)
    else (.one c :: (items (d :: re)).1, (items (d :: re)).2)

structure Regex where
  anchored : Bool
  items : List Item
  atEnd : Bool

def parse (re : List UInt8) : Regex :=
  if re.headD 0 = caret then ⟨true, (items re.tail).1, (items re.tail).2⟩
  else ⟨false, (items re).1, (items re).2⟩

def Stands (c t : UInt8) : Prop := c = dot ∨ c = t

inductive Item.Matches : Item → List UInt8 → Prop
  | one {c t : UInt8} (h : Stands c t) : Matches (.one c) [t]
  | many {c : UInt8} {s : List UInt8} (h : ∀ t ∈ s, Stands c t) : Matches (.many c) s

/-- A concatenation of strings that match the items in order. -/
def Concat (is : List Item) (s : List UInt8) : Prop :=
  ∃ ss : List (List UInt8), List.Forall₂ Item.Matches is ss ∧ s = ss.flatten

/-- Some part of the text is such a concatenation, where the anchors allow it. -/
def Regex.Matches (r : Regex) (text : List UInt8) : Prop :=
  ∃ pre s post, text = pre ++ s ++ post ∧ Concat r.items s ∧
    (r.anchored = true → pre = []) ∧ (r.atEnd = true → post = [])

def Item.render : Item → List UInt8
  | .one c => [c]
  | .many c => [c, star]

def Regex.render (r : Regex) : List UInt8 :=
  (if r.anchored then [caret] else []) ++ r.items.flatMap Item.render ++
    if r.atEnd then [dollar] else []

theorem render_items (re : List UInt8) :
    (items re).1.flatMap Item.render ++ (if (items re).2 then [dollar] else []) = re := by
  induction re using items.induct with
  | case1 => rfl
  | case2 => rfl
  | case3 c hc =>
    rw [items, if_neg hc]
    rfl
  | case4 c re ih =>
    rw [items, if_pos rfl, flatMap_cons, append_assoc, ih]
    rfl
  | case5 c d re hd ih =>
    rw [items, if_neg hd, flatMap_cons, append_assoc, ih]
    rfl

theorem render_parse (re : List UInt8) : (parse re).render = re := by
  unfold parse Regex.render
  split
  · next h =>
    cases re with
    | nil => cases h
    | cons c re =>
      rw [append_assoc, render_items, show c = caret from h]
      rfl
  · rw [append_assoc, render_items]
    rfl

/-! ### The matcher against its specification -/

variable {c : UInt8} {re text : List UInt8} {is : List Item} {s : List UInt8}

theorem concat_nil : Concat [] s ↔ s = [] := by
  constructor
  · rintro ⟨ss, hss, rfl⟩
    cases hss
    rfl
  · rintro rfl
    exact ⟨[], .nil, rfl⟩

theorem concat_cons {i : Item} :
    Concat (i :: is) s ↔ ∃ a b, s = a ++ b ∧ i.Matches a ∧ Concat is b := by
  constructor
  · rintro ⟨ss, hss, rfl⟩
    cases hss with
    | cons ha hrest => exact ⟨_, _, rfl, ha, _, hrest, rfl⟩
  · rintro ⟨a, _, rfl, ha, ss, hss, rfl⟩
    exact ⟨a :: ss, .cons ha hss, rfl⟩

/-- The items, and then the anchor, match at the beginning of the text. -/
def Here (r : List Item × Bool) (text : List UInt8) : Prop :=
  ∃ s post, text = s ++ post ∧ Concat r.1 s ∧ (r.2 = true → post = [])

theorem here_one {e : Bool} : Here (.one c :: is, e) text ↔
    ∃ t rest, text = t :: rest ∧ Stands c t ∧ Here (is, e) rest := by
  constructor
  · rintro ⟨s, post, rfl, hs, he⟩
    obtain ⟨a, b, rfl, ha, hb⟩ := concat_cons.mp hs
    cases ha with
    | one ht => exact ⟨_, b ++ post, rfl, ht, b, post, rfl, hb, he⟩
  · rintro ⟨t, _, rfl, ht, b, post, rfl, hb, he⟩
    exact ⟨t :: b, post, rfl, concat_cons.mpr ⟨[t], b, rfl, .one ht, hb⟩, he⟩

theorem here_many {e : Bool} : Here (.many c :: is, e) text ↔
    ∃ a rest, text = a ++ rest ∧ (∀ t ∈ a, Stands c t) ∧ Here (is, e) rest := by
  constructor
  · rintro ⟨s, post, rfl, hs, he⟩
    obtain ⟨a, b, rfl, ha, hb⟩ := concat_cons.mp hs
    cases ha with
    | many ht => exact ⟨a, b ++ post, append_assoc .., ht, b, post, rfl, hb, he⟩
  · rintro ⟨a, _, rfl, ht, b, post, rfl, hb, he⟩
    exact ⟨a ++ b, post, (append_assoc ..).symm, concat_cons.mpr ⟨a, b, rfl, .many ht, hb⟩, he⟩

theorem matchstar_iff (c : UInt8) (re text : List UInt8) : matchstar c re text = true ↔
    ∃ a rest, text = a ++ rest ∧ (∀ t ∈ a, Stands c t) ∧ matchhere re rest = true := by
  induction text with
  | nil =>
    rw [matchstar]
    constructor
    · intro h
      split at h
      · next hm => exact ⟨[], [], rfl, fun _ ht => absurd ht not_mem_nil, hm⟩
      · cases h
    · rintro ⟨a, rest, h, -, hm⟩
      obtain ⟨-, rfl⟩ := append_eq_nil_iff.mp h.symm
      rw [if_pos hm]
  | cons x text ih =>
  rw [matchstar]
  by_cases hm : matchhere re (x :: text) = true
  · rw [if_pos hm]
    exact iff_of_true rfl ⟨[], _, rfl, fun _ ht => absurd ht not_mem_nil, hm⟩
  rw [if_neg hm]
  have hor : (x = c ∨ c = dot) ↔ Stands c x := or_comm.trans (or_congr_right eq_comm)
  constructor
  · intro h
    split at h
    · next hx =>
      obtain ⟨a, rest, rfl, ha, hrest⟩ := ih.mp h
      exact ⟨x :: a, rest, rfl, forall_mem_cons.mpr ⟨hor.mp hx, ha⟩, hrest⟩
    · cases h
  rintro ⟨a, rest, h, ha, hrest⟩
  cases a with
  | nil => exact absurd (by rwa [h]) hm
  | cons y a =>
  obtain ⟨rfl, rfl⟩ := cons.inj h
  obtain ⟨hy, ha⟩ := forall_mem_cons.mp ha
  rw [if_pos (hor.mpr hy)]
  exact ih.mpr ⟨a, rest, rfl, ha, hrest⟩

theorem matchhere_nil (text : List UInt8) : matchhere [] text = true := by
  rw [matchhere.eq_def]

theorem matchhere_star (c : UInt8) (re text : List UInt8) :
    matchhere (c :: star :: re) text = matchstar c re text := by
  rw [matchhere.eq_def]
  exact if_pos rfl

theorem matchhere_dollar (text : List UInt8) : matchhere [dollar] text = true ↔ text = [] := by
  rw [matchhere.eq_def]
  dsimp only
  rw [if_neg (by decide), if_pos ⟨rfl, rfl⟩, decide_eq_true_iff]

theorem matchhere_one (hstar : re.headD 0 ≠ star) (hend : ¬ (c = dollar ∧ re = [])) :
    matchhere (c :: re) text = true ↔
      ∃ t rest, text = t :: rest ∧ Stands c t ∧ matchhere re rest = true := by
  rw [matchhere.eq_def]
  dsimp only
  rw [if_neg hstar, if_neg hend]
  cases text with
  | nil =>
    refine iff_of_false Bool.false_ne_true ?_
    rintro ⟨t, rest, h, -⟩
    cases h
  | cons x text =>
  change (if c = dot ∨ c = x then matchhere re text else false) = true ↔ _
  constructor
  · intro h
    split at h
    · next hx => exact ⟨x, text, rfl, hx, h⟩
    · cases h
  · rintro ⟨t, rest, h, ht, hrest⟩
    obtain ⟨rfl, rfl⟩ := cons.inj h
    exact (if_pos ht).trans hrest

theorem items_one (hstar : re.headD 0 ≠ star) (hend : ¬ (c = dollar ∧ re = [])) :
    items (c :: re) = (.one c :: (items re).1, (items re).2) := by
  cases re with
  | nil => exact if_neg fun hc => hend ⟨hc, rfl⟩
  | cons d re => exact if_neg hstar

theorem matchhere_iff (re text : List UInt8) : matchhere re text = true ↔ Here (items re) text := by
  induction re using items.induct generalizing text with
  | case1 =>
    refine iff_of_true (matchhere_nil text) ⟨[], text, rfl, concat_nil.mpr rfl, fun h => ?_⟩
    cases h
  | case2 =>
    rw [matchhere_dollar, items, if_pos rfl]
    constructor
    · rintro rfl
      exact ⟨[], [], rfl, concat_nil.mpr rfl, fun _ => rfl⟩
    · rintro ⟨s, post, rfl, hs, he⟩
      rw [concat_nil.mp hs, he rfl]
      rfl
  | case3 c hc =>
    have hstar : ([] : List UInt8).headD 0 ≠ star := by decide
    have hend : ¬ (c = dollar ∧ ([] : List UInt8) = []) := fun h => hc h.1
    rw [matchhere_one hstar hend, items_one hstar hend, here_one]
    refine exists_congr fun t => exists_congr fun rest => and_congr_right fun _ =>
      and_congr_right fun _ => ?_
    refine iff_of_true (matchhere_nil rest) ⟨[], rest, rfl, concat_nil.mpr rfl, fun h => ?_⟩
    cases h
  | case4 c re ih =>
    rw [matchhere_star, matchstar_iff, items, if_pos rfl, here_many]
    simp only [ih]
  | case5 c d re hd ih =>
    have hd : (d :: re).headD 0 ≠ star := hd
    have hend : ¬ (c = dollar ∧ d :: re = []) := fun h => cons_ne_nil _ _ h.2
    rw [matchhere_one hd hend, items_one hd hend, here_one]
    simp only [ih]

theorem matchLoop_iff (re text : List UInt8) :
    matchLoop re text = true ↔ ∃ pre rest, text = pre ++ rest ∧ matchhere re rest = true := by
  induction text with
  | nil =>
    rw [matchLoop]
    constructor
    · exact fun h => ⟨[], [], rfl, h⟩
    · rintro ⟨pre, rest, h, hm⟩
      obtain ⟨-, rfl⟩ := append_eq_nil_iff.mp h.symm
      exact hm
  | cons x text ih =>
  rw [matchLoop]
  constructor
  · intro h
    split at h
    · next hm => exact ⟨[], _, rfl, hm⟩
    · obtain ⟨pre, rest, rfl, hm⟩ := ih.mp h
      exact ⟨x :: pre, rest, rfl, hm⟩
  rintro ⟨pre, rest, h, hm⟩
  split
  · rfl
  next hno =>
  cases pre with
  | nil => exact absurd (by rwa [h]) hno
  | cons y pre =>
    obtain ⟨rfl, rfl⟩ := cons.inj h
    exact ih.mpr ⟨pre, rest, rfl, hm⟩

/-- **The matcher** returns, and it returns 1 exactly if the pattern, as it is read, matches a part
of the text. -/
theorem matchRe_iff (re text : List UInt8) :
    (parse re).render = re ∧ (matchRe re text = true ↔ (parse re).Matches text) := by
  refine ⟨render_parse re, ?_⟩
  unfold matchRe parse
  split
  · rw [matchhere_iff]
    constructor
    · rintro ⟨s, post, rfl, hs, he⟩
      exact ⟨[], s, post, rfl, hs, fun _ => rfl, he⟩
    rintro ⟨pre, s, post, rfl, hs, hpre, he⟩
    refine ⟨s, post, ?_, hs, he⟩
    rw [hpre rfl]
    rfl
  rw [matchLoop_iff]
  constructor
  · rintro ⟨pre, rest, rfl, hm⟩
    obtain ⟨s, post, rfl, hs, he⟩ := (matchhere_iff re rest).mp hm
    refine ⟨pre, s, post, (append_assoc ..).symm, hs, fun h => ?_, he⟩
    cases h
  · rintro ⟨pre, s, post, rfl, hs, -, he⟩
    exact ⟨pre, s ++ post, append_assoc .., (matchhere_iff re _).mpr ⟨s, post, rfl, hs, he⟩⟩

/-! ### Reading lines -/

/-- `sizeof(buf)` -/
def bufSize : ℕ := 1024

/-- `strchr`, as an offset. -/
def strchr (c : UInt8) : List UInt8 → Option ℕ
  | [] => none
  | x :: s => if x = 0 then none else if x = c then some 0 else (strchr c s).map (· + 1)

/-- The inner loop, with a bound on its rounds: the lines that `p` stands at in turn, and the bytes
from the last `p` on. -/
def scan : ℕ → List UInt8 → List (List UInt8) × List UInt8
  | 0, p => ([], p)
  | fuel + 1, p =>
    match strchr newline p with
    | none => ([], p)
    | some q => (p.take q :: (scan fuel (p.drop (q + 1))).1, (scan fuel (p.drop (q + 1))).2)

/-- What stays in the buffer: nothing where `p == buf`, and else the bytes from `p` on. -/
def left (buf : List UInt8) : List UInt8 :=
  if (scan buf.length buf).1 = [] then [] else (scan buf.length buf).2

/-- `if(match(pattern, p)) write(1, p, q+1 - p);` for one line after the other. -/
def writes (pattern : List UInt8) (lines : List (List UInt8)) : List UInt8 :=
  lines.flatMap fun p => if matchRe pattern p then p ++ [newline] else []

/-- What `grep` writes, where `m` is in the buffer and `read` delivers the pieces, and then nothing
more. -/
def grep (pattern : List UInt8) : List UInt8 → List (List UInt8) → List UInt8
  | _, [] => []
  | m, piece :: pieces =>
    writes pattern (scan (m ++ piece).length (m ++ piece)).1 ++
      grep pattern (left (m ++ piece)) pieces

/-- The pieces are not empty, and not longer than what `read` is asked for. -/
def Delivers : List UInt8 → List (List UInt8) → Prop
  | _, [] => True
  | m, piece :: pieces =>
    piece ≠ [] ∧ piece.length ≤ bufSize - m.length - 1 ∧ Delivers (left (m ++ piece)) pieces

structure GoodLine (l : List UInt8) : Prop where
  not_nul : 0 ∉ l
  not_newline : newline ∉ l
  length_lt : l.length < 1023

def textOf (lines : List (List UInt8)) : List UInt8 := lines.flatMap (· ++ [newline])

variable {l m : List UInt8} {lines ls pieces : List (List UInt8)} {pattern : List UInt8}

theorem textOf_cons (l : List UInt8) (lines : List (List UInt8)) :
    textOf (l :: lines) = l ++ newline :: textOf lines := by
  simp [textOf]

theorem textOf_append (ls lines : List (List UInt8)) :
    textOf (ls ++ lines) = textOf ls ++ textOf lines := flatMap_append

theorem writes_eq (pattern : List UInt8) (lines : List (List UInt8)) :
    writes pattern lines = textOf (lines.filter (matchRe pattern)) := by
  induction lines with
  | nil => rfl
  | cons l lines ih =>
  rw [writes, flatMap_cons, filter_cons]
  split
  · rw [textOf_cons, ← ih, append_assoc]
    rfl
  · exact ih

/-! ### One round -/

theorem strchr_eq_none (hnul : 0 ∉ l) (h : strchr newline l = none) : newline ∉ l := by
  induction l with
  | nil => exact not_mem_nil
  | cons x l ih =>
  rw [mem_cons, not_or] at hnul
  rw [strchr, if_neg (Ne.symm hnul.1)] at h
  split at h
  · cases h
  next hx =>
  rw [mem_cons, not_or]
  exact ⟨Ne.symm hx, ih hnul.2 (Option.map_eq_none_iff.mp h)⟩

theorem strchr_eq_some {q : ℕ} (h : strchr newline l = some q) :
    l = l.take q ++ newline :: l.drop (q + 1) ∧ newline ∉ l.take q := by
  induction l generalizing q with
  | nil => cases h
  | cons x l ih =>
  rw [strchr] at h
  split at h
  · cases h
  split at h
  · next hx =>
    cases h
    rw [hx]
    exact ⟨rfl, not_mem_nil⟩
  next hx =>
  obtain ⟨k, hk, rfl⟩ := Option.map_eq_some_iff.mp h
  obtain ⟨hl, hnot⟩ := ih hk
  rw [take_succ_cons, drop_succ_cons, cons_append, ← hl, mem_cons, not_or]
  exact ⟨rfl, Ne.symm hx, hnot⟩

structure Splits (l : List UInt8) (r : List (List UInt8) × List UInt8) : Prop where
  eq : l = textOf r.1 ++ r.2
  lines : ∀ x ∈ r.1, newline ∉ x
  rest : newline ∉ r.2

theorem splits_scan {fuel : ℕ} (hnul : 0 ∉ l) (hfuel : l.length ≤ fuel) :
    Splits l (scan fuel l) := by
  induction fuel generalizing l with
  | zero =>
    obtain rfl := length_eq_zero_iff.mp (Nat.le_zero.mp hfuel)
    exact ⟨rfl, fun _ hx => absurd hx not_mem_nil, not_mem_nil⟩
  | succ fuel ih =>
  rw [scan]
  cases hq : strchr newline l with
  | none => exact ⟨rfl, fun _ hx => absurd hx not_mem_nil, strchr_eq_none hnul hq⟩
  | some q =>
  obtain ⟨hl, hnot⟩ := strchr_eq_some hq
  have hlen := congrArg length hl
  rw [length_append, length_cons] at hlen
  obtain ⟨heq, hlines, hrest⟩ := ih (l := l.drop (q + 1))
    (fun h => hnul (mem_of_mem_drop h)) (by omega)
  refine ⟨?_, forall_mem_cons.mpr ⟨hnot, hlines⟩, hrest⟩
  rw [textOf_cons, append_assoc, cons_append, ← heq]
  exact hl

theorem newline_mem_textOf (h : lines ≠ []) : newline ∈ textOf lines := by
  cases lines with
  | nil => exact absurd rfl h
  | cons l lines =>
    rw [textOf_cons]
    exact mem_append_right _ mem_cons_self

theorem lines_of_textOf {rest : List UInt8} (hls : ∀ x ∈ ls, newline ∉ x)
    (hlines : ∀ x ∈ lines, newline ∉ x) (h : textOf ls ++ rest = textOf lines) :
    ∃ lines', lines = ls ++ lines' ∧ rest = textOf lines' := by
  induction ls generalizing lines with
  | nil => exact ⟨lines, rfl, h⟩
  | cons x ls ih =>
  obtain ⟨hx, hls⟩ := forall_mem_cons.mp hls
  cases lines with
  | nil =>
    rw [textOf_cons] at h
    simp [textOf] at h
  | cons y lines =>
  obtain ⟨hy, hlines⟩ := forall_mem_cons.mp hlines
  rw [textOf_cons, textOf_cons, append_assoc, cons_append] at h
  have hfirst : ∀ (a b : List UInt8), newline ∉ a →
      (a ++ newline :: b).takeWhile (· ≠ newline) = a ∧
      (a ++ newline :: b).dropWhile (· ≠ newline) = newline :: b := by
    intro a b ha
    have hall : ∀ t ∈ a, decide (t ≠ newline) = true :=
      fun t ht => decide_eq_true fun heq => ha (heq ▸ ht)
    refine ⟨?_, ?_⟩
    · rw [takeWhile_append_of_pos hall, takeWhile_cons_of_neg (by simp), append_nil]
    · rw [dropWhile_append_of_pos hall, dropWhile_cons_of_neg (by simp)]
  have hxy : x = y := by
    rw [← (hfirst x _ hx).1, h, (hfirst y _ hy).1]
  have hrest := congrArg (dropWhile (· ≠ newline)) h
  rw [(hfirst x _ hx).2, (hfirst y _ hy).2] at hrest
  obtain ⟨lines', rfl, hrest'⟩ := ih hls hlines (cons.inj hrest).2
  exact ⟨lines', by rw [hxy]; rfl, hrest'⟩

/-! ### Whole runs -/

theorem left_of_lines (h : (scan l.length l).1 ≠ []) : left l = (scan l.length l).2 := if_neg h

theorem left_of_no_line (h : (scan l.length l).1 = []) : left l = [] := if_pos h

theorem grep_right (hm : newline ∉ m) (hnul : ∀ x ∈ m ++ pieces.flatten, x ≠ 0)
    (hlines : ∀ x ∈ lines, newline ∉ x) (hpieces : ∀ piece ∈ pieces, newline ∈ piece)
    (h : m ++ pieces.flatten = textOf lines) :
    grep pattern m pieces = textOf (lines.filter (matchRe pattern)) := by
  induction pieces generalizing m lines with
  | nil =>
    rw [flatten_nil, append_nil] at h
    cases lines with
    | nil => rfl
    | cons l lines => exact absurd (h ▸ newline_mem_textOf (cons_ne_nil _ _)) hm
  | cons piece pieces ih =>
  obtain ⟨hpiece, hpieces⟩ := forall_mem_cons.mp hpieces
  rw [flatten_cons, ← append_assoc] at h hnul
  obtain ⟨heq, hls, hrest⟩ := splits_scan (l := m ++ piece)
    (fun h₀ => hnul 0 (mem_append_left _ h₀) rfl) (Nat.le_refl _)
  have hsome : (scan (m ++ piece).length (m ++ piece)).1 ≠ [] := by
    intro hnil
    rw [hnil] at heq
    have hmem : newline ∈ m ++ piece := mem_append_right _ hpiece
    rw [heq] at hmem
    exact hrest hmem
  rw [grep, writes_eq, left_of_lines hsome]
  generalize scan (m ++ piece).length (m ++ piece) = r at *
  rw [heq, append_assoc] at h
  rw [heq, append_assoc] at hnul
  obtain ⟨lines', rfl, hlines'⟩ := lines_of_textOf hls hlines h
  rw [ih hrest (fun x hx => hnul x (mem_append_right _ hx))
    (fun x hx => hlines x (mem_append_right _ hx)) hpieces hlines', filter_append,
    textOf_append]

theorem matchRe_nil (text : List UInt8) : matchRe [] text = true := by
  refine (if_neg (by decide)).trans ?_
  exact (matchLoop_iff [] text).mpr ⟨[], text, rfl, matchhere_nil text⟩

theorem filter_matchRe_nil (lines : List (List UInt8)) : lines.filter (matchRe []) = lines :=
  filter_eq_self.mpr fun l _ => matchRe_nil l

theorem length_grep (hm : newline ∉ m) (hnul : ∀ x ∈ m ++ pieces.flatten, x ≠ 0)
    (hne : ∀ piece ∈ pieces, piece ≠ []) :
    (grep [] m pieces).length ≤ (m ++ pieces.flatten).length ∧
      ((∃ piece ∈ pieces, newline ∉ piece) →
        (grep [] m pieces).length < (m ++ pieces.flatten).length) := by
  induction pieces generalizing m with
  | nil =>
    refine ⟨Nat.zero_le _, ?_⟩
    rintro ⟨piece, hp, -⟩
    cases hp
  | cons piece pieces ih =>
  obtain ⟨hpiece, hne⟩ := forall_mem_cons.mp hne
  rw [flatten_cons, ← append_assoc] at hnul ⊢
  obtain ⟨heq, hls, hrest⟩ := splits_scan (l := m ++ piece)
    (fun h₀ => hnul 0 (mem_append_left _ h₀) rfl) (Nat.le_refl _)
  have hlen : 0 < piece.length := length_pos_iff.mpr hpiece
  rw [grep, writes_eq, filter_matchRe_nil]
  by_cases hsome : (scan (m ++ piece).length (m ++ piece)).1 = []
  · -- all of the buffer is dropped
    have hle := (ih (m := []) not_mem_nil (fun x hx => hnul x (mem_append_right _ hx)) hne).1
    rw [left_of_no_line hsome, hsome]
    simp only [textOf, flatMap_nil, nil_append, length_append] at hle ⊢
    omega
  rw [left_of_lines hsome]
  generalize scan (m ++ piece).length (m ++ piece) = r at *
  have hboth := congrArg length heq
  obtain ⟨hle, hlt⟩ := ih hrest (fun x hx => by
    refine hnul x ?_
    rw [heq, append_assoc]
    exact mem_append_right _ hx) hne
  simp only [length_append] at hboth hle hlt ⊢
  refine ⟨by omega, ?_⟩
  rintro ⟨p, hp, hno⟩
  rcases mem_cons.mp hp with rfl | hp
  · -- a buffer without newlines has no lines
    refine absurd (newline_mem_textOf hsome) fun hmem => ?_
    have hin : newline ∈ m ++ p := by
      rw [heq]
      exact mem_append_left _ hmem
    exact (mem_append.mp hin).elim hm hno
  · have := hlt ⟨p, hp, hno⟩
    omega

theorem Delivers.ne_nil (h : Delivers m pieces) : ∀ piece ∈ pieces, piece ≠ [] := by
  induction pieces generalizing m with
  | nil => exact fun _ hp => absurd hp not_mem_nil
  | cons piece pieces ih => exact forall_mem_cons.mpr ⟨h.1, ih h.2.2⟩

theorem ne_zero_of_mem_textOf (h : ∀ l ∈ lines, GoodLine l) : ∀ x ∈ textOf lines, x ≠ 0 := by
  rintro x hx rfl
  obtain ⟨l, hl, hmem⟩ := mem_flatMap.mp hx
  rcases mem_append.mp hmem with hmem | hmem
  · exact (h l hl).not_nul hmem
  · exact absurd (mem_singleton.mp hmem) (by decide)

/-- **How the input is split.** `grep` writes the right lines, whatever the pattern, exactly if
every piece that `read` delivers has a newline in it. -/
theorem grep_right_iff (hlines : ∀ l ∈ lines, GoodLine l) (hread : pieces.flatten = textOf lines)
    (hdel : Delivers [] pieces) :
    (∀ pattern, grep pattern [] pieces = textOf (lines.filter (matchRe pattern))) ↔
      ∀ piece ∈ pieces, newline ∈ piece := by
  have hnul : ∀ x ∈ [] ++ pieces.flatten, x ≠ 0 := by
    rw [nil_append, hread]
    exact ne_zero_of_mem_textOf hlines
  constructor
  · intro h
    by_contra hno
    simp only [not_forall] at hno
    obtain ⟨piece, hp, hnot⟩ := hno
    have hlt := (length_grep not_mem_nil hnul hdel.ne_nil).2 ⟨piece, hp, hnot⟩
    rw [h [], filter_matchRe_nil, nil_append, hread] at hlt
    exact Nat.lt_irrefl _ hlt
  · intro h pattern
    exact grep_right not_mem_nil hnul (fun x hx => (hlines x hx).not_newline) h hread

theorem goodLine_ab : GoodLine [97, 98] := ⟨by decide, by decide, by decide⟩

/-- The lines `ab` and `cc`, in two pieces that meet inside the second line, and the pattern `b`. -/
theorem grep_right_iff_ab : grep [98] [] [[97, 98, 10, 99], [99, 10]] =
    textOf ([[97, 98], [99, 99]].filter (matchRe [98])) := by
  have hlines : ∀ l ∈ [[97, 98], [99, 99]], GoodLine l :=
    forall_mem_cons.mpr ⟨goodLine_ab, forall_mem_singleton.mpr ⟨by decide, by decide, by decide⟩⟩
  have hdel : Delivers [] [[97, 98, 10, 99], [99, 10]] :=
    ⟨cons_ne_nil _ _, by decide, cons_ne_nil _ _, by decide, trivial⟩
  exact (grep_right_iff hlines (by rfl) hdel).mpr (by decide) [98]

/-- The line `ab` in two pieces, with a pattern that matches everything: `b` is written. -/
theorem grep_drops : GoodLine [97, 98] ∧ Delivers [] [[97], [98, 10]] ∧
    [[97], [98, 10]].flatten = textOf [[97, 98]] ∧ grep [] [] [[97], [98, 10]] = [98, 10] ∧
    grep [] [] [[97], [98, 10]] ≠ textOf ([[97, 98]].filter (matchRe [])) := by
  have hout : grep [] [] [[97], [98, 10]] = [98, 10] := by
    simp only [grep, writes_eq, filter_matchRe_nil]
    decide
  refine ⟨goodLine_ab, ⟨cons_ne_nil _ _, by decide, cons_ne_nil _ _, by decide, trivial⟩,
    rfl, hout, ?_⟩
  rw [hout, filter_matchRe_nil]
  decide

end Xv6.Grep
