import Mathlib.Algebra.GroupWithZero.Nat
import Mathlib.Data.Fintype.Card
import Mathlib.Data.List.FinRange
import Mathlib.Data.List.Sort
import Xv6.Lib.Circular
import Xv6.Lib.Run

/-!
# The buffer cache

`bio.c`. The buffers are on a circular list, the most recently released first. `bget` looks for the
block along the list, and if it is not there, takes the first buffer from the other end that nobody
refers to and that is not dirty. A process is in `bget` until it has the lock of the buffer, and
then waits for the disk if the buffer is not valid; `brelse` gives the lock up before it decreases
the count. Processes interleave between these steps. `log_write` is here what it does to the
buffer: it sets `B_DIRTY`, which keeps the buffer in the cache.

The state records when each buffer was last released, which here means left without a reference;
buffers that never were are in the order in which `binit` linked them.
-/

namespace Xv6.Bio

open Circular Run Function List Option

def NBUF : ℕ := 30

instance : NeZero NBUF := ⟨by decide⟩

def ROOTDEV : UInt32 := 1

structure Buf where
  dev : UInt32
  blockno : UInt32
  valid : Bool
  dirty : Bool
  refcnt : ℕ
  deriving DecidableEq

def Buf.Caches (x : Buf) (dev blockno : UInt32) : Prop := x.dev = dev ∧ x.blockno = blockno

def Buf.Unused (x : Buf) : Prop := x.refcnt = 0 ∧ x.dirty = false

instance (x : Buf) (dev blockno : UInt32) : Decidable (x.Caches dev blockno) :=
  inferInstanceAs (Decidable (_ ∧ _))

instance (x : Buf) : Decidable x.Unused := inferInstanceAs (Decidable (_ ∧ _))

/-- What a process does with a buffer, beside holding locks. -/
inductive Phase where
  | idle
  /-- In `bget`, waiting for the lock. -/
  | gets (b : Fin NBUF)
  /-- In `iderw`. -/
  | io (b : Fin NBUF)
  /-- In `brelse`, after `releasesleep`. -/
  | puts (b : Fin NBUF)
  deriving DecidableEq

structure State (P : Type) where
  links : Links (Fin NBUF)
  buf : Fin NBUF → Buf
  lock : Fin NBUF → Option P
  phase : P → Phase
  released : Fin NBUF → ℕ
  clock : ℕ

inductive Action (P : Type) where
  | bread (p : P) (blockno : UInt32)
  | acquire (p : P)
  | iodone (p : P)
  | bwrite (p : P) (b : Fin NBUF)
  | logWrite (p : P) (b : Fin NBUF)
  | brelse (p : P) (b : Fin NBUF)
  | put (p : P)

section Model

variable {P : Type} [DecidableEq P] (s : State P)

/-- The list that `binit` makes. -/
def binit : Links (Fin NBUF) :=
  (finRange NBUF).foldl (fun k b => k.pushFront (some b)) .empty

/-- The first loop of `bget`. -/
def lookup (dev blockno : UInt32) : Option (Fin NBUF) :=
  walk s.links.next (fun b => decide ((s.buf b).Caches dev blockno)) (NBUF + 1) (s.links.next none)

/-- The second loop of `bget`. -/
def victim : Option (Fin NBUF) :=
  walk s.links.prev (fun b => decide (s.buf b).Unused) (NBUF + 1) (s.links.prev none)

/-- `bget` up to `acquiresleep`: the buffer and what is now in it; none is a panic. -/
def bget (dev blockno : UInt32) : Option (Fin NBUF × Buf) :=
  match lookup s dev blockno with
  | some b => some (b, { s.buf b with refcnt := (s.buf b).refcnt + 1 })
  | none => (victim s).map fun b =>
      (b, { dev := dev, blockno := blockno, valid := false, dirty := false, refcnt := 1 })

def State.setPhase (p : P) (ph : Phase) : State P :=
  { s with phase := update s.phase p ph }

def State.setBuf (b : Fin NBUF) (x : Buf) : State P :=
  { s with buf := update s.buf b x }

def State.setLock (b : Fin NBUF) (o : Option P) : State P :=
  { s with lock := update s.lock b o }

def State.release (b : Fin NBUF) : State P :=
  { s with
    links := (s.links.unlink (some b)).pushFront (some b)
    released := update s.released b s.clock
    clock := s.clock + 1 }

/-- The end of `brelse`. -/
def put (b : Fin NBUF) : State P :=
  if (s.buf b).refcnt - 1 = 0 then
    (s.setBuf b { s.buf b with refcnt := (s.buf b).refcnt - 1 }).release b
  else s.setBuf b { s.buf b with refcnt := (s.buf b).refcnt - 1 }

def step : Action P → Option (State P)
  | .bread p blockno =>
    if s.phase p = .idle then
      (bget s ROOTDEV blockno).map fun x => (s.setBuf x.1 x.2).setPhase p (.gets x.1)
    else none
  | .acquire p =>
    match s.phase p with
    | .gets b =>
      if s.lock b = none then
        some ((s.setLock b (some p)).setPhase p (if (s.buf b).valid then .idle else .io b))
      else none
    | _ => none
  | .iodone p =>
    match s.phase p with
    | .io b => some ((s.setBuf b { s.buf b with valid := true, dirty := false }).setPhase p .idle)
    | _ => none
  | .bwrite p b =>
    if s.phase p = .idle ∧ s.lock b = some p then
      some ((s.setBuf b { s.buf b with dirty := true }).setPhase p (.io b))
    else none
  | .logWrite p b =>
    if s.phase p = .idle ∧ s.lock b = some p then
      some (s.setBuf b { s.buf b with dirty := true })
    else none
  | .brelse p b =>
    if s.phase p = .idle ∧ s.lock b = some p then
      some ((s.setLock b none).setPhase p (.puts b))
    else none
  | .put p =>
    match s.phase p with
    | .puts b => some ((put s b).setPhase p .idle)
    | _ => none

/-- After `binit`. -/
def boot : State P where
  links := binit
  buf := fun _ => { dev := 0, blockno := 0, valid := false, dirty := false, refcnt := 0 }
  lock := fun _ => none
  phase := fun _ => .idle
  released := fun b => b.val
  clock := NBUF

/-- A process is between taking its reference and having the lock, or between giving the lock up and
dropping its reference. -/
def Refers (b : Fin NBUF) : Phase → Bool
  | .idle => false
  | .gets b' => b' = b
  | .io _ => false
  | .puts b' => b' = b

variable [Fintype P]

def users (b : Fin NBUF) : ℕ :=
  (parties fun p => Refers b (s.phase p)).card + (s.lock b).isSome.toNat

/-- The list of the buffers, the most recently released first. -/
structure Order (l : List (Fin NBUF)) : Prop where
  ring : Ring s.links l
  mem : ∀ b, b ∈ l
  sorted : l.Pairwise fun b b' => s.released b' < s.released b
  clock : ∀ b, s.released b < s.clock

structure Inv : Prop where
  order : ∃ l, Order s l
  unique : ∀ b b' blockno, (s.buf b).Caches ROOTDEV blockno → (s.buf b').Caches ROOTDEV blockno →
    b = b'
  refcnt : ∀ b, (s.buf b).refcnt = users s b

end Model

variable {P : Type} {s s' : State P} {l : List (Fin NBUF)} {b : Fin NBUF}
  {dev blockno : UInt32} {p : P}

/-! ### The two loops -/

theorem Order.length_lt (h : Order s l) : l.length < NBUF + 1 := by
  have hcard := List.Nodup.length_le_card h.ring.nodup
  rw [Fintype.card_fin] at hcard
  exact Nat.lt_succ_of_le hcard

theorem Order.lookup_eq (h : Order s l) :
    lookup s dev blockno = l.find? fun b => decide ((s.buf b).Caches dev blockno) :=
  h.ring.walk_next h.length_lt

theorem Order.victim_eq (h : Order s l) :
    victim s = l.reverse.find? fun b => decide (s.buf b).Unused :=
  h.ring.walk_prev h.length_lt

theorem Order.caches_of_lookup (h : Order s l) (hb : lookup s dev blockno = some b) :
    (s.buf b).Caches dev blockno := by
  rw [h.lookup_eq] at hb
  have hc := find?_some hb
  exact of_decide_eq_true hc

theorem Order.not_caches_of_lookup (h : Order s l) (hn : lookup s dev blockno = none)
    (b : Fin NBUF) : ¬ (s.buf b).Caches dev blockno := by
  rw [h.lookup_eq, find?_eq_none] at hn
  exact fun hc => hn b (h.mem b) (decide_eq_true hc)

theorem Order.victim_spec (h : Order s l) (hb : victim s = some b) :
    (s.buf b).Unused ∧ ∀ b', (s.buf b').Unused → s.released b ≤ s.released b' := by
  rw [h.victim_eq, find?_eq_some_iff_append] at hb
  obtain ⟨hunused, as, bs, hl, has⟩ := hb
  refine ⟨of_decide_eq_true hunused, fun b' hb' => ?_⟩
  have hmem : b' ∈ as ++ b :: bs := hl ▸ mem_reverse.mpr (h.mem b')
  have hsorted := pairwise_reverse.mpr h.sorted
  rw [hl] at hsorted
  rcases mem_append.mp hmem with hmem | hmem
  · have hnot := has b' hmem
    rw [decide_eq_true hb'] at hnot
    cases hnot
  · rcases mem_cons.mp hmem with rfl | hmem
    · exact Nat.le_refl _
    · exact Nat.le_of_lt (rel_of_pairwise_cons (pairwise_append.mp hsorted).2.1 hmem)

/-! ### The order -/

theorem Order.congr (h : Order s l) (hlinks : s'.links = s.links) (hrel : s'.released = s.released)
    (hclock : s'.clock = s.clock) : Order s' l where
  ring := hlinks ▸ h.ring
  mem := h.mem
  sorted := hrel ▸ h.sorted
  clock := by
    rw [hrel, hclock]
    exact h.clock

theorem Order.release (h : Order s l) (b : Fin NBUF) : Order (s.release b) (b :: l.erase b) where
  ring := h.ring.moveToFront (h.mem b)
  mem := by
    intro c
    rcases eq_or_ne c b with rfl | hc
    · exact mem_cons_self
    · exact mem_cons_of_mem b ((mem_erase_of_ne hc).mpr (h.mem c))
  sorted := by
    have hself : (s.release b).released b = s.clock := update_self ..
    have hne : ∀ c ∈ l.erase b, (s.release b).released c = s.released c := fun c hc =>
      update_of_ne ((List.Nodup.mem_erase_iff h.ring.nodup).mp hc).1 ..
    refine pairwise_cons.mpr ⟨fun c hc => ?_, ?_⟩
    · rw [hself, hne c hc]
      exact h.clock c
    · refine (h.sorted.sublist erase_sublist).imp_of_mem fun hc hc' hlt => ?_
      rwa [hne _ hc, hne _ hc']
  clock := by
    intro c
    rcases eq_or_ne c b with rfl | hc
    · simp only [State.release, update_self]
      exact Nat.lt_succ_self _
    · simp only [State.release, update_of_ne hc]
      exact Nat.lt_succ_of_lt (h.clock c)

theorem order_boot : Order (boot : State P) (finRange NBUF).reverse where
  ring := by
    have hring : Ring (Links.empty : Links (Fin NBUF)) [] := ring_empty
    have hnodup : ((finRange NBUF).reverse ++ []).Nodup := by
      rw [append_nil]
      exact nodup_reverse.mpr (nodup_finRange NBUF)
    have hfold := hring.foldl_pushFront hnodup
    rwa [append_nil] at hfold
  mem := fun b => mem_reverse.mpr (mem_finRange b)
  sorted := pairwise_reverse.mpr (sortedLT_finRange NBUF).pairwise
  clock := fun b => b.isLt

theorem Order.put (h : Order s l) (b : Fin NBUF) : ∃ l', Order (put s b) l' := by
  unfold Bio.put
  split_ifs
  · have hset : ∀ x, Order (s.setBuf b x) l := fun _ => h.congr rfl rfl rfl
    exact ⟨_, (hset _).release b⟩
  · exact ⟨l, h.congr rfl rfl rfl⟩

/-! ### Which block a buffer is for -/

def Buf.Same (x y : Buf) : Prop := x.dev = y.dev ∧ x.blockno = y.blockno

theorem same_setBuf {x : Buf} (h : x.Same (s.buf b)) (c : Fin NBUF) :
    ((s.setBuf b x).buf c).Same (s.buf c) := by
  rcases eq_or_ne c b with rfl | hc
  · simpa only [State.setBuf, update_self] using h
  · simp only [State.setBuf, update_of_ne hc]
    exact ⟨rfl, rfl⟩

theorem same_put (s : State P) (b c : Fin NBUF) : ((put s b).buf c).Same (s.buf c) := by
  have hsame : Buf.Same { s.buf b with refcnt := (s.buf b).refcnt - 1 } (s.buf b) := ⟨rfl, rfl⟩
  unfold put
  split_ifs
  · exact same_setBuf hsame c
  · exact same_setBuf hsame c

/-- What `bget` does to a buffer that is for another block. -/
inductive Got (s : State P) (blockno : UInt32) (b : Fin NBUF) : Buf → Prop
  | hit : (s.buf b).Caches ROOTDEV blockno →
      Got s blockno b { s.buf b with refcnt := (s.buf b).refcnt + 1 }
  | miss : (∀ c, ¬ (s.buf c).Caches ROOTDEV blockno) → (s.buf b).Unused →
      (∀ c, (s.buf c).Unused → s.released b ≤ s.released c) →
      Got s blockno b
        { dev := ROOTDEV, blockno := blockno, valid := false, dirty := false, refcnt := 1 }

theorem Got.of_not_caches {x : Buf} (h : Got s blockno b x)
    (hnew : ∀ c, ¬ (s.buf c).Caches ROOTDEV blockno) : x.Caches ROOTDEV blockno ∧ (s.buf b).Unused ∧
      ∀ c, (s.buf c).Unused → s.released b ≤ s.released c := by
  cases h with
  | hit hb => exact absurd hb (hnew b)
  | miss _ hunused hleast => exact ⟨⟨rfl, rfl⟩, hunused, hleast⟩

theorem Order.got (h : Order s l) {x : Fin NBUF × Buf} (hx : bget s ROOTDEV blockno = some x) :
    Got s blockno x.1 x.2 := by
  unfold bget at hx
  split at hx
  case h_1 b hb =>
    cases hx
    exact .hit (h.caches_of_lookup hb)
  case h_2 hn =>
  obtain ⟨b, hb, rfl⟩ := map_eq_some_iff.mp hx
  obtain ⟨hunused, hleast⟩ := h.victim_spec hb
  exact .miss (h.not_caches_of_lookup hn) hunused hleast

variable [DecidableEq P]

inductive Trans (s : State P) : State P → Prop
  | bread {p : P} {blockno : UInt32} {b : Fin NBUF} {x : Buf} : s.phase p = .idle →
      Got s blockno b x → Trans s ((s.setBuf b x).setPhase p (.gets b))
  | acquire {p : P} {b : Fin NBUF} {ph : Phase} : s.phase p = .gets b → s.lock b = none →
      (∀ c, Refers c ph = false) → Trans s ((s.setLock b (some p)).setPhase p ph)
  | flags {p : P} {b : Fin NBUF} {x : Buf} {ph : Phase} : x.Same (s.buf b) →
      x.refcnt = (s.buf b).refcnt → (∀ c, Refers c (s.phase p) = false) →
      (∀ c, Refers c ph = false) → Trans s ((s.setBuf b x).setPhase p ph)
  | brelse {p : P} {b : Fin NBUF} : s.phase p = .idle → s.lock b = some p →
      Trans s ((s.setLock b none).setPhase p (.puts b))
  | put {p : P} {b : Fin NBUF} : s.phase p = .puts b → Trans s ((put s b).setPhase p .idle)

theorem trans_of_step (h : Order s l) {a : Action P} (hs : step s a = some s') : Trans s s' := by
  cases a with
  | bread p blockno =>
    rw [step] at hs
    split_ifs at hs with hp
    obtain ⟨x, hx, rfl⟩ := map_eq_some_iff.mp hs
    exact .bread hp (h.got hx)
  | acquire p =>
    rw [step] at hs
    split at hs
    case h_1 b hp =>
      split at hs
      case isTrue hl =>
        cases hs
        exact .acquire hp hl fun c => by split <;> rfl
      case isFalse => cases hs
    case h_2 => cases hs
  | iodone p =>
    rw [step] at hs
    split at hs
    case h_1 b hp =>
      cases hs
      exact .flags ⟨rfl, rfl⟩ rfl (fun c => by rw [hp]; rfl) fun c => rfl
    case h_2 => cases hs
  | bwrite p b =>
    rw [step] at hs
    split_ifs at hs with hp
    cases hs
    exact .flags ⟨rfl, rfl⟩ rfl (fun c => by rw [hp.1]; rfl) fun c => rfl
  | logWrite p b =>
    rw [step] at hs
    split_ifs at hs with hp
    cases hs
    have hidle : s.setBuf b { s.buf b with dirty := true } =
        (s.setBuf b { s.buf b with dirty := true }).setPhase p .idle := by
      rw [State.setPhase, ← hp.1]
      simp only [State.setBuf, update_eq_self]
    rw [hidle]
    exact .flags ⟨rfl, rfl⟩ rfl (fun c => by rw [hp.1]; rfl) fun c => rfl
  | brelse p b =>
    rw [step] at hs
    split_ifs at hs with hp
    cases hs
    exact .brelse hp.1 hp.2
  | put p =>
    rw [step] at hs
    split at hs
    case h_1 b hp =>
      cases hs
      exact .put hp
    case h_2 => cases hs

/-! ### Users -/

variable [Fintype P]

theorem users_setPhase (s : State P) (p : P) (ph : Phase) (c : Fin NBUF) :
    users (s.setPhase p ph) c + (Refers c (s.phase p)).toNat = users s c + (Refers c ph).toNat := by
  have hcard := card_parties_update (Refers c) s.phase p ph
  simp only [users, State.setPhase]
  omega

omit [DecidableEq P] in
theorem users_setBuf (s : State P) (b c : Fin NBUF) (x : Buf) :
    users (s.setBuf b x) c = users s c := rfl

omit [DecidableEq P] in
theorem users_setLock_of_ne {b c : Fin NBUF} (hc : c ≠ b) (s : State P) (o : Option P) :
    users (s.setLock b o) c = users s c := by
  simp only [users, State.setLock, update_of_ne hc]

omit [DecidableEq P] in
theorem users_setLock (s : State P) (b : Fin NBUF) (o : Option P) :
    users (s.setLock b o) b + (s.lock b).isSome.toNat = users s b + o.isSome.toNat := by
  simp only [users, State.setLock, update_self]
  omega

/-! ### The invariant -/

omit [DecidableEq P] [Fintype P] in
theorem unique_of_same
    (h : ∀ b b' blockno, (s.buf b).Caches ROOTDEV blockno → (s.buf b').Caches ROOTDEV blockno →
      b = b') (hsame : ∀ c, (s'.buf c).Same (s.buf c)) (b b' : Fin NBUF) (blockno : UInt32)
    (hb : (s'.buf b).Caches ROOTDEV blockno) (hb' : (s'.buf b').Caches ROOTDEV blockno) : b = b' :=
  h b b' blockno ⟨(hsame b).1.symm.trans hb.1, (hsame b).2.symm.trans hb.2⟩
    ⟨(hsame b').1.symm.trans hb'.1, (hsame b').2.symm.trans hb'.2⟩

omit [DecidableEq P] in
theorem inv_boot : Inv (boot : State P) where
  order := ⟨_, order_boot⟩
  unique := fun b b' blockno hb => absurd hb.1 (show (0 : UInt32) ≠ ROOTDEV by decide)
  refcnt := by
    intro b
    have hnone : (parties fun p => Refers b ((boot : State P).phase p)) = ∅ :=
      Finset.eq_empty_iff_forall_notMem.mpr fun p hp => nomatch mem_parties.mp hp
    rw [users, hnone]
    rfl

omit [DecidableEq P] in
theorem Got.unique (hi : Inv s) {x : Buf} (hg : Got s blockno b x) (c c' : Fin NBUF)
    (n : UInt32) (hc : ((s.setBuf b x).buf c).Caches ROOTDEV n)
    (hc' : ((s.setBuf b x).buf c').Caches ROOTDEV n) : c = c' := by
  cases hg with
  | hit hb =>
    have hsame : Buf.Same { s.buf b with refcnt := (s.buf b).refcnt + 1 } (s.buf b) := ⟨rfl, rfl⟩
    exact unique_of_same hi.unique (same_setBuf hsame) c c' n hc hc'
  | miss hnew hunused hleast =>
  simp only [State.setBuf] at hc hc'
  by_cases hcb : c = b <;> by_cases hcb' : c' = b
  · rw [hcb, hcb']
  · subst hcb
    rw [update_self] at hc
    rw [update_of_ne hcb'] at hc'
    have hn : blockno = n := hc.2
    exact absurd (hn ▸ hc') (hnew c')
  · subst hcb'
    rw [update_self] at hc'
    rw [update_of_ne hcb] at hc
    have hn : blockno = n := hc'.2
    exact absurd (hn ▸ hc) (hnew c)
  · rw [update_of_ne hcb] at hc
    rw [update_of_ne hcb'] at hc'
    exact hi.unique c c' n hc hc'

omit [DecidableEq P] [Fintype P] in
theorem Got.refcnt {x : Buf} (hg : Got s blockno b x) : x.refcnt = (s.buf b).refcnt + 1 := by
  cases hg with
  | hit hb => rfl
  | miss hnew hunused hleast => rw [hunused.1]

omit [DecidableEq P] [Fintype P] in
theorem refcnt_setBuf (s : State P) (b c : Fin NBUF) (x : Buf) :
    ((s.setBuf b x).buf c).refcnt = if c = b then x.refcnt else (s.buf c).refcnt := by
  by_cases hc : c = b
  · subst hc
    simp only [State.setBuf, update_self, if_true]
  · simp only [State.setBuf, update_of_ne hc, if_neg hc]

omit [DecidableEq P] [Fintype P] in
theorem refcnt_put (s : State P) (b c : Fin NBUF) :
    ((put s b).buf c).refcnt = if c = b then (s.buf b).refcnt - 1 else (s.buf c).refcnt := by
  unfold put
  split_ifs with hz hc hc
  · exact (refcnt_setBuf s b c _).trans (if_pos hc)
  · exact (refcnt_setBuf s b c _).trans (if_neg hc)
  · exact (refcnt_setBuf s b c _).trans (if_pos hc)
  · exact (refcnt_setBuf s b c _).trans (if_neg hc)

omit [DecidableEq P] in
theorem users_put (s : State P) (b c : Fin NBUF) : users (put s b) c = users s c := by
  unfold put
  split_ifs <;> rfl

theorem refcnt_trans (h : ∀ b, (s.buf b).refcnt = users s b) (ht : Trans s s') (c : Fin NBUF) :
    (s'.buf c).refcnt = users s' c := by
  have hc := h c
  cases ht with
  | @bread p blockno b x hp hg =>
    have hphase := users_setPhase (s.setBuf b x) p (.gets b) c
    have hbuf := refcnt_setBuf s b c x
    have hx := hg.refcnt
    change ((s.setBuf b x).buf c).refcnt = _
    rw [show (s.setBuf b x).phase p = .idle from hp, users_setBuf] at hphase
    by_cases hcb : c = b
    · subst hcb
      simp only [Refers, decide_true, Bool.toNat_true, Bool.toNat_false, if_true] at hphase hbuf
      omega
    · simp only [Refers, Ne.symm hcb, decide_false, Bool.toNat_false, if_neg hcb] at hphase hbuf
      omega
  | @acquire p b ph hp hl hph =>
    have hphase := users_setPhase (s.setLock b (some p)) p ph c
    change (s.buf c).refcnt = _
    rw [show (s.setLock b (some p)).phase p = .gets b from hp, hph c] at hphase
    by_cases hcb : c = b
    · subst hcb
      have hlock := users_setLock s c (some p)
      rw [hl] at hlock
      simp only [Refers, decide_true, Bool.toNat_true, Bool.toNat_false, isSome_none,
        isSome_some] at hphase hlock
      omega
    · rw [users_setLock_of_ne hcb] at hphase
      simp only [Refers, Ne.symm hcb, decide_false, Bool.toNat_false] at hphase
      omega
  | @flags p b x ph hsame href hp hph =>
    have hphase := users_setPhase (s.setBuf b x) p ph c
    have hbuf := refcnt_setBuf s b c x
    change ((s.setBuf b x).buf c).refcnt = _
    rw [hph c, show Refers c ((s.setBuf b x).phase p) = false from hp c, users_setBuf] at hphase
    by_cases hcb : c = b
    · subst hcb
      rw [if_pos rfl] at hbuf
      omega
    · rw [if_neg hcb] at hbuf
      omega
  | @brelse p b hp hl =>
    have hphase := users_setPhase (s.setLock b none) p (.puts b) c
    change (s.buf c).refcnt = _
    rw [show (s.setLock b none).phase p = .idle from hp] at hphase
    by_cases hcb : c = b
    · subst hcb
      have hlock := users_setLock s c none
      rw [hl] at hlock
      simp only [Refers, decide_true, Bool.toNat_true, Bool.toNat_false, isSome_none,
        isSome_some] at hphase hlock
      omega
    · rw [users_setLock_of_ne hcb] at hphase
      simp only [Refers, Ne.symm hcb, decide_false, Bool.toNat_false] at hphase
      omega
  | @put p b hp =>
    have hphase := users_setPhase (Bio.put s b) p .idle c
    have hbuf := refcnt_put s b c
    have hput : (Bio.put s b).phase p = .puts b := by
      rw [← hp]
      unfold Bio.put
      split_ifs <;> rfl
    change ((Bio.put s b).buf c).refcnt = _
    rw [hput, users_put] at hphase
    by_cases hcb : c = b
    · subst hcb
      simp only [Refers, decide_true, Bool.toNat_true, Bool.toNat_false, if_true] at hphase hbuf
      omega
    · simp only [Refers, Ne.symm hcb, decide_false, Bool.toNat_false, if_neg hcb] at hphase hbuf
      omega

theorem Inv.trans (hi : Inv s) (ht : Trans s s') : Inv s' := by
  obtain ⟨l, hl⟩ := hi.order
  refine ⟨?_, ?_, refcnt_trans hi.refcnt ht⟩
  · cases ht with
    | bread | acquire | flags | brelse => exact ⟨l, hl.congr rfl rfl rfl⟩
    | put =>
      obtain ⟨l', hl'⟩ := hl.put _
      exact ⟨l', hl'.congr rfl rfl rfl⟩
  · cases ht with
    | bread hp hg => exact hg.unique hi
    | acquire => exact hi.unique
    | flags hsame => exact unique_of_same hi.unique (same_setBuf hsame)
    | brelse => exact hi.unique
    | put => exact unique_of_same hi.unique (same_put s _)

omit [Fintype P] in
theorem same_of_trans (ht : Trans s s') (hb : 0 < (s.buf b).refcnt ∨ (s.buf b).dirty = true) :
    (s'.buf b).Same (s.buf b) := by
  cases ht with
  | @bread p blockno c x hp hg =>
    cases hg with
    | hit =>
      have hsame : Buf.Same { s.buf c with refcnt := (s.buf c).refcnt + 1 } (s.buf c) := ⟨rfl, rfl⟩
      exact same_setBuf hsame b
    | miss hnew hunused hleast =>
    have hne : b ≠ c := by
      rintro rfl
      rcases hb with hb | hb
      · exact absurd hunused.1 (Nat.ne_of_gt hb)
      · exact nomatch hb.symm.trans hunused.2
    simp only [State.setBuf, State.setPhase, update_of_ne hne]
    exact ⟨rfl, rfl⟩
  | acquire => exact ⟨rfl, rfl⟩
  | flags hsame => exact same_setBuf hsame b
  | brelse => exact ⟨rfl, rfl⟩
  | put => exact same_put s _ b

/-- **The buffer cache.** In every interleaving of `bread`, `bwrite`, `log_write` and `brelse`: the
`next` links visit every buffer once and return to the head, and the `prev` links are their inverse;
no two buffers are for the same block; `refcnt` is the number of processes that use a buffer; a
buffer with `refcnt > 0` or `B_DIRTY` set is not re-assigned; and a block that is not cached is
given an unused buffer, of these the least recently released. -/
theorem cache_sound (h : Reachable step (fun _ _ => True) (· = boot) s) :
    (∃ l, Ring s.links l ∧ ∀ b, b ∈ l) ∧
      (∀ x, s.links.prev (s.links.next x) = x ∧ s.links.next (s.links.prev x) = x) ∧
      (∀ b b' blockno, (s.buf b).Caches ROOTDEV blockno → (s.buf b').Caches ROOTDEV blockno →
        b = b') ∧ (∀ b, (s.buf b).refcnt = users s b) ∧
      (∀ a s', step s a = some s' → ∀ b, 0 < (s.buf b).refcnt ∨ (s.buf b).dirty = true →
        (s'.buf b).dev = (s.buf b).dev ∧ (s'.buf b).blockno = (s.buf b).blockno) ∧
      ∀ p blockno s', step s (.bread p blockno) = some s' →
        (∀ b, ¬ (s.buf b).Caches ROOTDEV blockno) →
        ∃ b, s'.phase p = .gets b ∧ (s'.buf b).Caches ROOTDEV blockno ∧ (s.buf b).Unused ∧
          ∀ b', (s.buf b').Unused → s.released b ≤ s.released b' := by
  have hinv : Inv s := by
    refine h.invariant (fun s hs => hs ▸ inv_boot) fun s a s' hi _ hs => ?_
    obtain ⟨l, hl⟩ := hi.order
    exact hi.trans (trans_of_step hl hs)
  obtain ⟨l, hl⟩ := hinv.order
  refine ⟨⟨l, hl.ring, hl.mem⟩, fun x => ⟨hl.ring.prev_next hl.mem x, hl.ring.next_prev hl.mem x⟩,
    hinv.unique, hinv.refcnt, fun a s' hs b hb => same_of_trans (trans_of_step hl hs) hb, ?_⟩
  intro p blockno s' hs hnew
  rw [step] at hs
  split_ifs at hs with hp
  obtain ⟨⟨b, x⟩, hx, rfl⟩ := map_eq_some_iff.mp hs
  refine ⟨b, update_self .., ?_⟩
  obtain ⟨hcaches, hspec⟩ := (hl.got hx).of_not_caches hnew
  refine ⟨?_, hspec⟩
  simpa only [State.setPhase, State.setBuf, update_self] using hcaches

/-- Blocks 1 to 30 are read and released, the last one after a change. Then block 31 gets the buffer
of block 1. -/
theorem cache_sound_recycles : ∃ s : State Bool,
    Reachable step (fun _ _ => True) (· = boot) s ∧ (s.buf 29).dirty = true ∧
      (s.buf 0).blockno = 31 ∧ (s.buf 0).refcnt = users s 0 := by
  have hstart : Reachable step (fun _ _ => True) (· = boot) (boot : State Bool) := .start rfl
  obtain ⟨s, hs, hq⟩ := hstart.exists_of_exec
    ((List.finRange NBUF).flatMap (fun b => [.bread true (UInt32.ofNat (b + 1)), .acquire true,
      .iodone true] ++ (if b = 29 then [.logWrite true b] else []) ++
      [.brelse true b, .put true]) ++ [.bread true 31] : List (Action Bool))
    (fun s : State Bool => (s.buf 29).dirty = true ∧ (s.buf 0).blockno = 31) (by decide +kernel)
  have hq := of_decide_eq_true hq
  exact ⟨s, hs, hq.1, hq.2, (cache_sound hs).2.2.2.1 0⟩

end Xv6.Bio
