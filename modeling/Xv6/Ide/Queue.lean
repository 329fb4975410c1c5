import Xv6.Lib.Linked
import Xv6.Lib.Run
import Mathlib.Data.Fintype.Card

/-!
# The IDE request queue

`ide.c`. Requests are buffers, threaded into a list by `qnext`; the first one is the request that
the device works on. `iderw` puts a buffer at the end, starts the device if there was none before
it, and sleeps until the buffer is valid and clean. `ideintr` takes the first buffer off, marks it,
wakes who sleeps on it, and starts the device on the next.

The critical sections run under `idelock`, with interrupts off, so each is one step; sleeping gives
the lock up. A process that was woken, by the interrupt or because it was killed, tests the flags
again in a step of its own. The device raises one interrupt per command. Buffers have sleep locks: a
process calls `iderw` on a buffer that it has locked, and only a process that holds the lock, and is
not in `iderw`, changes the flags; a buffer that nobody has locked can be recycled. A panic ends the
run.

Histories record which requests were queued, started and completed. A request is its place in the
first.
-/

namespace Xv6.Ide

open Linked Run Function List Option

/-- `B_VALID` and `B_DIRTY`. -/
structure Flags where
  valid : Bool
  dirty : Bool
  deriving DecidableEq

/-- `(b->flags & (B_VALID|B_DIRTY)) == B_VALID` -/
def Flags.ready (f : Flags) : Bool := f.valid && !f.dirty

/-- Where a process is. The number is that of its request. -/
inductive Phase (B : Type) where
  | idle
  /-- Asleep in `iderw`. -/
  | asleep (b : B) (k : ℕ)
  /-- In `iderw`, about to acquire the lock and test the flags. -/
  | woken (b : B) (k : ℕ)
  /-- Back from `iderw`, where the flags were these. -/
  | done (b : B) (k : ℕ) (f : Flags)
  deriving DecidableEq

/-- The process is not in `iderw`. -/
def Phase.out {B : Type} : Phase B → Bool
  | .idle => true
  | .done _ _ _ => true
  | _ => false

structure State (P B : Type) where
  owner : B → Option P
  flags : B → Flags
  idequeue : Option B
  qnext : B → Option B
  /-- The buffer of the command that the device works on. -/
  device : Option B
  phase : P → Phase B
  queued : List B
  started : List B
  completed : List B

inductive Action (P B : Type) where
  | lock (p : P) (b : B)
  | unlock (p : P) (b : B)
  | setFlags (p : P) (b : B) (f : Flags)
  /-- `bget` uses a buffer that nobody has locked for another block. -/
  | recycle (b : B)
  | iderw (p : P) (b : B)
  | kill (p : P)
  | resume (p : P)
  | intr

section Step

variable {P B : Type} [DecidableEq P] [DecidableEq B] [Fintype B]

/-- Start the request for `b`. -/
def idestart (b : B) (s : State P B) : State P B :=
  { s with device := some b, started := s.started ++ [b] }

/-- Append `b` to `idequeue`. -/
def enqueue (b : B) (s : State P B) : State P B :=
  let qnext := update s.qnext b none
  match s.idequeue with
  | none => { s with idequeue := some b, qnext := qnext, queued := s.queued ++ [b] }
  | some h =>
    { s with
      qnext := update qnext (findLast qnext (Fintype.card B) h) (some b)
      queued := s.queued ++ [b] }

def startIfFirst (b : B) (s : State P B) : State P B :=
  if s.idequeue = some b then idestart b s else s

/-- The loop that waits for request `k` to finish, up to its end or the next `sleep`. -/
def await (p : P) (b : B) (k : ℕ) (s : State P B) : State P B :=
  let phase := if (s.flags b).ready then .done b k (s.flags b) else .asleep b k
  { s with phase := update s.phase p phase }

def iderw (p : P) (b : B) (s : State P B) : Option (State P B) :=
  if s.owner b = some p ∧ (s.flags b).ready = false then
    some (await p b s.queued.length (startIfFirst b (enqueue b s)))
  else none

/-- `wakeup(b)` -/
def wake (b : B) : Phase B → Phase B
  | .asleep b' k => if b' = b then .woken b' k else .asleep b' k
  | ph => ph

def startNext (s : State P B) : State P B :=
  match s.idequeue with
  | none => s
  | some b => idestart b s

def ideintr (s : State P B) : State P B :=
  match s.idequeue with
  | none => { s with device := none }
  | some b =>
    startNext { s with
      idequeue := s.qnext b
      device := none
      flags := update s.flags b ⟨true, false⟩
      phase := fun p => wake b (s.phase p)
      completed := s.completed ++ [b] }

def step (s : State P B) : Action P B → Option (State P B)
  | .lock p b =>
    if s.owner b = none ∧ (s.phase p).out then
      some { s with owner := update s.owner b (some p) }
    else none
  | .unlock p b =>
    if s.owner b = some p ∧ (s.phase p).out then
      some { s with owner := update s.owner b none }
    else none
  | .setFlags p b f =>
    if s.owner b = some p ∧ (s.phase p).out then
      some { s with flags := update s.flags b f }
    else none
  | .recycle b =>
    if s.owner b = none then
      some { s with flags := update s.flags b ⟨false, false⟩ }
    else none
  | .iderw p b => if (s.phase p).out then iderw p b s else none
  | .kill p =>
    match s.phase p with
    | .asleep b k => some { s with phase := update s.phase p (.woken b k) }
    | _ => some s
  | .resume p =>
    match s.phase p with
    | .woken b k => some (await p b k s)
    | _ => none
  | .intr => if s.device = none then none else some (ideintr s)

/-- Nothing is queued and nobody is in `iderw`. -/
structure Init (s : State P B) : Prop where
  idequeue : s.idequeue = none
  device : s.device = none
  phase : ∀ p, s.phase p = .idle
  queued : s.queued = []
  started : s.started = []
  completed : s.completed = []

/-! ### The invariant -/

/-- The process is in `iderw` on `b`, with request `k`. -/
def Phase.Inside (ph : Phase B) (b : B) (k : ℕ) : Prop := ph = .asleep b k ∨ ph = .woken b k

/-- `q` is the queue. -/
structure Inv (s : State P B) (q : List B) : Prop where
  chain : Chain s.qnext s.idequeue q
  nodup : q.Nodup
  device : s.device = q.head?
  order : s.queued = s.completed ++ q
  starts : s.started = s.completed ++ q.head?.toList
  inside : ∀ p b k, (s.phase p).Inside b k → s.owner b = some p ∧ s.queued[k]? = some b
  asleep : ∀ p b k, s.phase p = .asleep b k → s.completed.length ≤ k
  woken : ∀ p b k, s.phase p = .woken b k → k < s.completed.length → (s.flags b).ready = true
  queue : ∀ b ∈ q, (s.flags b).ready = false ∧
    ∃ p k, (s.phase p).Inside b k ∧ s.completed.length ≤ k
  done : ∀ p b k f, s.phase p = .done b k f →
    f = ⟨true, false⟩ ∧ k < s.completed.length ∧ s.queued[k]? = some b

variable {s s' : State P B} {q : List B} {p : P} {b : B} {k : ℕ}

variable {ph : Phase B}

omit [DecidableEq B] [Fintype B] in
theorem Phase.not_inside_of_out (h : ph.out = true) : ¬ ph.Inside b k := by
  rintro (rfl | rfl) <;> exact absurd h Bool.false_ne_true

theorem Flags.eq_of_ready {f : Flags} (h : f.ready = true) : f = ⟨true, false⟩ := by
  obtain ⟨v, d⟩ := f
  cases v <;> cases d <;> first | rfl | exact absurd h (by decide)

omit [DecidableEq P] [DecidableEq B] [Fintype B] in
theorem Inv.not_mem_of_out (h : Inv s q) (howner : s.owner b = some p)
    (hout : (s.phase p).out = true) : b ∉ q := by
  intro hb
  obtain ⟨-, p', k, hin, -⟩ := h.queue b hb
  have heq := (h.inside p' b k hin).1
  rw [howner] at heq
  obtain rfl := some.inj heq
  exact Phase.not_inside_of_out hout hin

omit [DecidableEq P] [DecidableEq B] [Fintype B] in
theorem Inv.mem_of_le (h : Inv s q) (hk : s.queued[k]? = some b) (hle : s.completed.length ≤ k) :
    b ∈ q := by
  rw [h.order, getElem?_append_right hle] at hk
  exact mem_of_getElem? hk

omit [DecidableEq P] [DecidableEq B] [Fintype B] in
theorem Inv.of_owner_flags (h : Inv s q) {owner : B → Option P} {flags : B → Flags}
    (howner : ∀ p b k, (s.phase p).Inside b k → owner b = s.owner b ∧ flags b = s.flags b) :
    Inv { s with owner := owner, flags := flags } q := by
  refine ⟨h.chain, h.nodup, h.device, h.order, h.starts, fun p b k hin => ?_, h.asleep,
    fun p b k hw hk => ?_, fun b hb => ?_, h.done⟩
  · change owner b = some p ∧ _
    rw [(howner p b k hin).1]
    exact h.inside p b k hin
  · change (flags b).ready = true
    rw [(howner p b k (.inr hw)).2]
    exact h.woken p b k hw hk
  obtain ⟨hready, p, k, hin, hk⟩ := h.queue b hb
  refine ⟨?_, p, k, hin, hk⟩
  change (flags b).ready = false
  rw [(howner p b k hin).2]
  exact hready

omit [DecidableEq B] [Fintype B] in
theorem Inv.of_phase (h : Inv s q) (hin : ∀ b k, ph.Inside b k → (s.phase p).Inside b k)
    (hkeep : ∀ b k, b ∈ q → (s.phase p).Inside b k → ph.Inside b k)
    (hasleep : ∀ b k, ph = .asleep b k → s.completed.length ≤ k)
    (hwoken : ∀ b k, ph = .woken b k → k < s.completed.length → (s.flags b).ready = true)
    (hdone : ∀ b k f, ph = .done b k f →
      f = ⟨true, false⟩ ∧ k < s.completed.length ∧ s.queued[k]? = some b) :
    Inv { s with phase := update s.phase p ph } q := by
  have hself : update s.phase p ph p = ph := update_self ..
  have hother : ∀ p', p' ≠ p → update s.phase p ph p' = s.phase p' :=
    fun p' hne => update_of_ne hne ..
  refine ⟨h.chain, h.nodup, h.device, h.order, h.starts, fun p' b k hb => ?_, fun p' b k hb => ?_,
    fun p' b k hb hk => ?_, fun b hb => ?_, fun p' b k f hb => ?_⟩
  · change (update s.phase p ph p').Inside b k at hb
    rcases eq_or_ne p' p with rfl | hne
    · rw [hself] at hb
      exact h.inside p' b k (hin b k hb)
    · rw [hother p' hne] at hb
      exact h.inside p' b k hb
  · rcases eq_or_ne p' p with rfl | hne
    · exact hasleep b k (hself.symm.trans hb)
    · exact h.asleep p' b k ((hother p' hne).symm.trans hb)
  · rcases eq_or_ne p' p with rfl | hne
    · exact hwoken b k (hself.symm.trans hb) hk
    · exact h.woken p' b k ((hother p' hne).symm.trans hb) hk
  · obtain ⟨hready, p', k, hin', hk⟩ := h.queue b hb
    refine ⟨hready, p', k, ?_, hk⟩
    change (update s.phase p ph p').Inside b k
    rcases eq_or_ne p' p with rfl | hne
    · rw [hself]
      exact hkeep b k hb hin'
    · rw [hother p' hne]
      exact hin'
  · rcases eq_or_ne p' p with rfl | hne
    · exact hdone b k f (hself.symm.trans hb)
    · exact h.done p' b k f ((hother p' hne).symm.trans hb)

/-! ### Steps -/

omit [DecidableEq B] [Fintype B] in
theorem Inv.await (h : Inv s q) (hin : (s.phase p).Inside b k) : Inv (await p b k s) q := by
  obtain ⟨-, hqueued⟩ := h.inside p b k hin
  unfold Ide.await
  dsimp only
  cases hready : (s.flags b).ready with
  | true =>
    -- the buffer is not in the queue any more
    have hnot : b ∉ q := fun hb => by
      rw [(h.queue b hb).1] at hready
      exact absurd hready nofun
    have hlt : k < s.completed.length := by
      by_contra hge
      exact hnot (h.mem_of_le hqueued (not_lt.mp hge))
    refine h.of_phase (fun b' k' hc => ?_) (fun b' k' hb' hin' => ?_) nofun nofun ?_
    · rcases hc with hc | hc <;> exact absurd hc nofun
    · have : b' = b := by
        rcases hin with hin | hin <;> rcases hin' with hin' | hin' <;> rw [hin] at hin' <;>
          cases hin' <;> rfl
      exact absurd (this ▸ hb') hnot
    · rintro b' k' f hf
      cases hf
      exact ⟨Flags.eq_of_ready hready, hlt, hqueued⟩
  | false =>
  -- the request is not completed yet
  have hle : s.completed.length ≤ k := by
    rcases hin with hin | hin
    · exact h.asleep p b k hin
    · by_contra hlt
      rw [h.woken p b k hin (not_le.mp hlt)] at hready
      exact absurd hready nofun
  refine h.of_phase (fun b' k' hc => ?_) (fun b' k' _ hin' => ?_) ?_ nofun nofun
  · rcases hc with hc | hc
    · cases hc
      exact hin
    · exact absurd hc nofun
  · have : b' = b ∧ k' = k := by
      rcases hin with hin | hin <;> rcases hin' with hin' | hin' <;> rw [hin] at hin' <;>
        cases hin' <;> exact ⟨rfl, rfl⟩
    rw [this.1, this.2]
    exact .inl rfl
  · rintro b' k' hk
    cases hk
    exact hle

omit [DecidableEq P] in
theorem chain_enqueue (h : Inv s q) (hb : b ∉ q) :
    Chain (enqueue b s).qnext (enqueue b s).idequeue (q ++ [b]) := by
  have hchain : Chain (update s.qnext b none) s.idequeue q := h.chain.update hb
  unfold enqueue
  cases hhead : s.idequeue with
  | none =>
    have hnil : q = [] := by
      have := h.chain.head_eq
      rw [hhead] at this
      exact head?_eq_none_iff.mp this.symm
    subst hnil
    refine chain_cons.mpr ⟨rfl, chain_nil.mpr ?_⟩
    exact update_self ..
  | some x =>
  rw [hhead] at hchain
  rcases eq_nil_or_concat' q with rfl | ⟨l, a, rfl⟩
  · exact absurd (chain_nil.mp hchain) nofun
  have hlen : l.length ≤ Fintype.card B := by
    have := h.nodup.length_le_card
    rw [length_append] at this
    omega
  dsimp only
  rw [findLast_eq hchain hlen]
  exact hchain.append h.nodup hb (update_self ..)

omit [DecidableEq P] in
theorem enqueue_rest (b : B) (s : State P B) : (enqueue b s).owner = s.owner ∧
    (enqueue b s).flags = s.flags ∧ (enqueue b s).device = s.device ∧
    (enqueue b s).queued = s.queued ++ [b] ∧ (enqueue b s).started = s.started ∧
    (enqueue b s).completed = s.completed := by
  unfold enqueue
  cases s.idequeue <;> exact ⟨rfl, rfl, rfl, rfl, rfl, rfl⟩

omit [DecidableEq P] in
theorem Inv.fields_request (h : Inv s q) (hb : b ∉ q) :
    (startIfFirst b (enqueue b s)).owner = s.owner ∧
      (startIfFirst b (enqueue b s)).flags = s.flags ∧
      (startIfFirst b (enqueue b s)).queued = s.queued ++ [b] ∧
      (startIfFirst b (enqueue b s)).completed = s.completed ∧
      Chain (startIfFirst b (enqueue b s)).qnext (startIfFirst b (enqueue b s)).idequeue
        (q ++ [b]) ∧ (startIfFirst b (enqueue b s)).device = (q ++ [b]).head? ∧
      (startIfFirst b (enqueue b s)).started = s.completed ++ (q ++ [b]).head?.toList := by
  obtain ⟨ho, hf, hd, hqd, hst, hcm⟩ := enqueue_rest b s
  have hchain := chain_enqueue h hb
  set t := enqueue b s
  have hhead : t.idequeue = (q ++ [b]).head? := hchain.head_eq
  unfold startIfFirst
  cases q with
  | nil =>
    have hfirst : t.idequeue = some b := hhead
    rw [if_pos hfirst]
    refine ⟨ho, hf, hqd, hcm, hchain, rfl, ?_⟩
    change t.started ++ [b] = s.completed ++ [b]
    rw [hst, h.starts]
    exact congrArg (· ++ [b]) (append_nil _)
  | cons c l =>
  have hne : ¬ t.idequeue = some b := by
    rw [hhead]
    intro hc
    exact hb (some.inj hc ▸ mem_cons_self)
  rw [if_neg hne]
  refine ⟨ho, hf, hqd, hcm, hchain, ?_, ?_⟩
  · rw [hd, h.device]
    rfl
  · rw [hst, h.starts]
    rfl

theorem Inv.request (h : Inv s q) (howner : s.owner b = some p) (hout : (s.phase p).out = true)
    (hready : (s.flags b).ready = false) :
    Inv { startIfFirst b (enqueue b s) with
      phase := update s.phase p (.asleep b s.queued.length) } (q ++ [b]) := by
  have hb := h.not_mem_of_out howner hout
  obtain ⟨ho, hf, hqd, hcm, hchain, hdev, hst⟩ := h.fields_request hb
  set u := startIfFirst b (enqueue b s)
  have hself : update s.phase p (.asleep b s.queued.length) p =
      .asleep b s.queued.length := update_self ..
  have hother : ∀ p', p' ≠ p → update s.phase p (.asleep b s.queued.length) p' = s.phase p' :=
    fun p' hne => update_of_ne hne ..
  have hlen : s.completed.length ≤ s.queued.length := by
    rw [h.order, length_append]
    omega
  have hget : ∀ {k : ℕ} {b' : B}, s.queued[k]? = some b' → (s.queued ++ [b])[k]? = some b' := by
    intro k b' hk
    rw [List.getElem?_append_left (List.getElem?_eq_some_iff.mp hk).1]
    exact hk
  refine ⟨hchain, ?_, hdev, ?_, ?_, fun p' b' k' hin => ?_, fun p' b' k' hs => ?_,
    fun p' b' k' hw hk => ?_, fun b' hb' => ?_, fun p' b' k' f hdone => ?_⟩
  · rw [nodup_append]
    refine ⟨h.nodup, nodup_singleton b, fun x hx y hy heq => ?_⟩
    rw [mem_singleton.mp hy] at heq
    exact hb (heq ▸ hx)
  · change u.queued = u.completed ++ (q ++ [b])
    rw [hqd, hcm, h.order, append_assoc]
  · change u.started = u.completed ++ _
    rw [hst, hcm]
  · change u.owner b' = some p' ∧ u.queued[k']? = some b'
    rw [ho, hqd]
    rcases eq_or_ne p' p with rfl | hne
    · change (update s.phase p' _ p').Inside b' k' at hin
      rw [hself] at hin
      rcases hin with hin | hin
      · cases hin
        exact ⟨howner, getElem?_concat_length⟩
      · exact absurd hin nofun
    · change (update s.phase p _ p').Inside b' k' at hin
      rw [hother p' hne] at hin
      obtain ⟨how, hk⟩ := h.inside p' b' k' hin
      exact ⟨how, hget hk⟩
  · change u.completed.length ≤ k'
    rw [hcm]
    rcases eq_or_ne p' p with rfl | hne
    · have := hself.symm.trans hs
      cases this
      exact hlen
    · exact h.asleep p' b' k' ((hother p' hne).symm.trans hs)
  · change (u.flags b').ready = true
    change k' < u.completed.length at hk
    rw [hf]
    rw [hcm] at hk
    rcases eq_or_ne p' p with rfl | hne
    · exact absurd (hself.symm.trans hw) nofun
    · exact h.woken p' b' k' ((hother p' hne).symm.trans hw) hk
  · change (u.flags b').ready = false ∧ ∃ p' k', (update s.phase p _ p').Inside b' k' ∧
      u.completed.length ≤ k'
    rw [hf, hcm]
    rcases mem_append.mp hb' with hb' | hb'
    · obtain ⟨hr, p', k', hin, hk⟩ := h.queue b' hb'
      refine ⟨hr, p', k', ?_, hk⟩
      have hne : p' ≠ p := by
        rintro rfl
        exact Phase.not_inside_of_out hout hin
      rw [hother p' hne]
      exact hin
    · rw [mem_singleton.mp hb']
      refine ⟨hready, p, s.queued.length, ?_, hlen⟩
      rw [hself]
      exact .inl rfl
  · change f = _ ∧ k' < u.completed.length ∧ u.queued[k']? = some b'
    rw [hcm, hqd]
    rcases eq_or_ne p' p with rfl | hne
    · exact absurd (hself.symm.trans hdone) nofun
    · obtain ⟨h1, h2, h3⟩ := h.done p' b' k' f ((hother p' hne).symm.trans hdone)
      exact ⟨h1, h2, hget h3⟩

/-! What `wakeup(b)` makes of a process. -/

variable {b' : B}

omit [Fintype B] in
theorem wake_eq_asleep : wake b ph = .asleep b' k ↔ ph = .asleep b' k ∧ b' ≠ b := by
  cases ph <;> grind [wake]

omit [Fintype B] in
theorem wake_eq_woken :
    wake b ph = .woken b' k ↔ ph = .woken b' k ∨ ph = .asleep b' k ∧ b' = b := by
  cases ph <;> grind [wake]

omit [Fintype B] in
theorem wake_eq_done {f : Flags} : wake b ph = .done b' k f ↔ ph = .done b' k f := by
  cases ph <;> grind [wake]

omit [Fintype B] in
theorem inside_wake : (wake b ph).Inside b' k ↔ ph.Inside b' k := by
  unfold Phase.Inside
  rw [wake_eq_asleep, wake_eq_woken]
  tauto

omit [DecidableEq P] [Fintype B] in
theorem Inv.complete (h : Inv s (b :: q)) :
    Inv { s with
      idequeue := s.qnext b
      device := q.head?
      flags := update s.flags b ⟨true, false⟩
      phase := fun p => wake b (s.phase p)
      completed := s.completed ++ [b]
      started := s.started ++ q.head?.toList } q := by
  obtain ⟨hbq, hnodup⟩ := nodup_cons.mp h.nodup
  have hat : s.queued[s.completed.length]? = some b := by
    rw [h.order, getElem?_append_right (le_refl _), Nat.sub_self]
    rfl
  have hlen : (s.completed ++ [b]).length = s.completed.length + 1 := by
    rw [length_append, length_singleton]
  -- a request for another buffer is not the one at the head
  have hnext : ∀ {b' : B} {k : ℕ}, s.queued[k]? = some b' → b' ≠ b → k ≠ s.completed.length := by
    rintro b' k hk hne rfl
    rw [hat] at hk
    exact hne (some.inj hk).symm
  have hflag : ∀ {b' : B}, b' ≠ b → update s.flags b ⟨true, false⟩ b' = s.flags b' :=
    fun hne => update_of_ne hne ..
  refine ⟨(chain_cons.mp h.chain).2, hnodup, rfl, ?_, ?_,
    fun p' b' k hin => h.inside p' b' k (inside_wake.mp hin), fun p' b' k hs => ?_,
    fun p' b' k hw hk => ?_, fun b' hb' => ?_, fun p' b' k f hdone => ?_⟩
  · change s.queued = s.completed ++ [b] ++ q
    rw [h.order, append_assoc, singleton_append]
  · change s.started ++ _ = s.completed ++ [b] ++ _
    rw [h.starts]
    rfl
  · change (s.completed ++ [b]).length ≤ k
    obtain ⟨hold, hne⟩ := wake_eq_asleep.mp hs
    have hk := hnext (h.inside p' b' k (.inl hold)).2 hne
    have hle := h.asleep p' b' k hold
    omega
  · change (update s.flags b ⟨true, false⟩ b').ready = true
    change k < (s.completed ++ [b]).length at hk
    rcases eq_or_ne b' b with rfl | hne
    · rw [update_self]
      rfl
    rw [hflag hne]
    have hold := (wake_eq_woken.mp hw).resolve_right fun hc => hne hc.2
    have hk' := hnext (h.inside p' b' k (.inr hold)).2 hne
    exact h.woken p' b' k hold (by omega)
  · have hne : b' ≠ b := by
      rintro rfl
      exact hbq hb'
    obtain ⟨hready, p', k, hin, hk⟩ := h.queue b' (mem_cons_of_mem b hb')
    have hk' := hnext (h.inside p' b' k hin).2 hne
    refine ⟨?_, p', k, inside_wake.mpr hin, ?_⟩
    · change (update s.flags b ⟨true, false⟩ b').ready = false
      rw [hflag hne]
      exact hready
    · change (s.completed ++ [b]).length ≤ k
      omega
  · change f = _ ∧ k < (s.completed ++ [b]).length ∧ _
    obtain ⟨h1, h2, h3⟩ := h.done p' b' k f (wake_eq_done.mp hdone)
    exact ⟨h1, by omega, h3⟩

omit [DecidableEq P] [Fintype B] in
theorem Inv.intr (h : Inv s q) (hdev : s.device ≠ none) : ∃ q', Inv (ideintr s) q' := by
  cases q with
  | nil => exact absurd h.device hdev
  | cons b q =>
  have hc := h.complete
  have hhead : s.idequeue = some b := (chain_cons.mp h.chain).1
  have hnext : s.qnext b = q.head? := (chain_cons.mp h.chain).2.head_eq
  refine ⟨q, ?_⟩
  unfold ideintr
  rw [hhead]
  dsimp only
  unfold startNext
  dsimp only
  rw [hnext] at hc ⊢
  cases hq : q.head? with
  | none =>
    rw [hq, toList_none, append_nil] at hc
    exact hc
  | some b' =>
    rw [hq, toList_some] at hc
    exact hc

theorem Inv.iderw (h : Inv s q) (hout : (s.phase p).out = true) (hs : iderw p b s = some s') :
    ∃ q', Inv s' q' := by
  unfold Ide.iderw at hs
  split at hs
  · next hpre =>
    obtain ⟨howner, hready⟩ := hpre
    obtain rfl := some.inj hs
    refine ⟨q ++ [b], ?_⟩
    -- the flags are not ready, so the loop goes to sleep at once
    have hflags : (startIfFirst b (enqueue b s)).flags b = s.flags b := by
      unfold startIfFirst enqueue
      cases s.idequeue <;> dsimp only <;> split <;> rfl
    have hphase : (startIfFirst b (enqueue b s)).phase = s.phase := by
      unfold startIfFirst enqueue
      cases s.idequeue <;> dsimp only <;> split <;> rfl
    have hreq := h.request howner hout hready
    rw [Ide.await, hflags, hready, hphase]
    exact hreq
  · exact absurd hs nofun

omit [DecidableEq P] [DecidableEq B] [Fintype B] in
theorem Inv.ne_of_owner_eq_none {p' : P} {k : ℕ} (h : Inv s q) (hb : s.owner b = none)
    (hin : (s.phase p').Inside b' k) : b' ≠ b := by
  rintro rfl
  rw [(h.inside p' b' k hin).1] at hb
  cases hb

omit [DecidableEq P] [DecidableEq B] [Fintype B] in
theorem Inv.ne_of_out {p' : P} {k : ℕ} (h : Inv s q) (hb : s.owner b = some p)
    (hout : (s.phase p).out = true) (hin : (s.phase p').Inside b' k) : b' ≠ b := by
  rintro rfl
  rw [(h.inside p' b' k hin).1] at hb
  obtain rfl := some.inj hb
  exact Phase.not_inside_of_out hout hin

theorem Inv.step {a : Action P B} (h : Inv s q) (hs : step s a = some s') : ∃ q', Inv s' q' := by
  unfold Ide.step at hs
  cases a with
  | lock p b =>
    dsimp only at hs
    split at hs
    · next hpre =>
      obtain rfl := some.inj hs
      refine ⟨q, h.of_owner_flags fun p' b' k hin => ⟨update_of_ne ?_ .., rfl⟩⟩
      exact h.ne_of_owner_eq_none hpre.1 hin
    · exact absurd hs nofun
  | unlock p b =>
    dsimp only at hs
    split at hs
    · next hpre =>
      obtain rfl := some.inj hs
      refine ⟨q, h.of_owner_flags fun p' b' k hin => ⟨update_of_ne ?_ .., rfl⟩⟩
      exact h.ne_of_out hpre.1 hpre.2 hin
    · exact absurd hs nofun
  | setFlags p b f =>
    dsimp only at hs
    split at hs
    · next hpre =>
      obtain rfl := some.inj hs
      refine ⟨q, h.of_owner_flags fun p' b' k hin => ⟨rfl, update_of_ne ?_ ..⟩⟩
      exact h.ne_of_out hpre.1 hpre.2 hin
    · exact absurd hs nofun
  | recycle b =>
    dsimp only at hs
    split at hs
    · next hpre =>
      obtain rfl := some.inj hs
      refine ⟨q, h.of_owner_flags fun p' b' k hin => ⟨rfl, update_of_ne ?_ ..⟩⟩
      exact h.ne_of_owner_eq_none hpre hin
    · exact absurd hs nofun
  | iderw p b =>
    dsimp only at hs
    split at hs
    · next hout => exact h.iderw hout hs
    · exact absurd hs nofun
  | kill p =>
    dsimp only at hs
    split at hs
    · next b k hph =>
      obtain rfl := some.inj hs
      refine ⟨q, h.of_phase (fun b' k' hin => ?_) (fun b' k' _ hin => ?_) nofun ?_ nofun⟩
      · rcases hin with hin | hin
        · exact absurd hin nofun
        · cases hin
          exact .inl hph
      · rcases hin with hin | hin
        · rw [hph] at hin
          cases hin
          exact .inr rfl
        · rw [hph] at hin
          exact absurd hin nofun
      · rintro b' k' hk hlt
        cases hk
        have := h.asleep p b k hph
        omega
    · obtain rfl := some.inj hs
      exact ⟨q, h⟩
  | resume p =>
    dsimp only at hs
    split at hs
    · next b k hph =>
      obtain rfl := some.inj hs
      exact ⟨q, h.await (.inr hph)⟩
    · exact absurd hs nofun
  | intr =>
    dsimp only at hs
    split at hs
    · exact absurd hs nofun
    next hdev =>
    obtain rfl := some.inj hs
    exact h.intr hdev

omit [DecidableEq P] [DecidableEq B] [Fintype B] in
theorem Init.inv (h : Init s) : Inv s [] := by
  have hph : ∀ p, s.phase p = .idle := h.phase
  refine ⟨?_, nodup_nil, h.device, ?_, ?_, fun p b k hin => ?_, fun p b k hs => ?_,
    fun p b k hw => ?_, nofun, fun p b k f hd => ?_⟩
  · exact chain_nil.mpr h.idequeue
  · rw [h.queued, h.completed]
    rfl
  · rw [h.started, h.completed]
    rfl
  · rw [hph] at hin
    rcases hin with hin | hin <;> exact absurd hin nofun
  · rw [hph] at hs
    exact absurd hs nofun
  · rw [hph] at hw
    exact absurd hw nofun
  · rw [hph] at hd
    exact absurd hd nofun

/-! ### Main result -/

/-- **The queue serves every request once and in order**, in every interleaving. From `idequeue`,
the pointers `qnext` lead through a list without repetitions. The device works on its first element.
What was queued is what was completed, in the same order, and then the list; what was started is
what was completed and then the first of the list. A process asleep in `iderw` has its request
there. A process that came back from `iderw` found its buffer valid and clean, and its request had
been completed. -/
theorem ide_serves_in_order (h : Reachable step (fun _ _ => True) Init s) :
    ∃ q : List B, Chain s.qnext s.idequeue q ∧ q.Nodup ∧ s.device = s.idequeue ∧
      s.queued = s.completed ++ q ∧ s.started = s.completed ++ q.head?.toList ∧
      (∀ p b k, s.phase p = .asleep b k → b ∈ q ∧ s.queued[k]? = some b ∧ s.completed.length ≤ k) ∧
      ∀ p b k f, s.phase p = .done b k f →
        f = ⟨true, false⟩ ∧ k < s.completed.length ∧ s.completed[k]? = some b := by
  obtain ⟨q, hq⟩ := h.invariant (I := fun s => ∃ q, Inv s q) (fun s hs => ⟨[], hs.inv⟩)
    fun s a s' ⟨q, hq⟩ _ hs => hq.step hs
  refine ⟨q, hq.chain, hq.nodup, ?_, hq.order, hq.starts, fun p b k hph => ?_,
    fun p b k f hph => ?_⟩
  · rw [hq.device, hq.chain.head_eq]
  · have hk := (hq.inside p b k (.inl hph)).2
    have hle := hq.asleep p b k hph
    exact ⟨hq.mem_of_le hk hle, hk, hle⟩
  · obtain ⟨hf, hlt, hk⟩ := hq.done p b k f hph
    rw [hq.order, getElem?_append_left hlt] at hk
    exact ⟨hf, hlt, hk⟩

end Step

def quiet : State (Fin 2) (Fin 2) :=
  ⟨fun _ => none, fun _ => ⟨false, false⟩, none, fun _ => none, none, fun _ => .idle, [], [], []⟩

/-- Two requests, one interrupt, and the first process is back. -/
theorem ide_serves_two : ∃ s : State (Fin 2) (Fin 2), (s.phase 0 = .done 0 0 ⟨true, false⟩ ∧
      s.phase 1 = .asleep 1 1) ∧ ∃ q : List (Fin 2), Chain s.qnext s.idequeue q ∧ q.Nodup ∧
      s.device = s.idequeue ∧ s.queued = s.completed ++ q ∧
      s.started = s.completed ++ q.head?.toList ∧
      (∀ p b k, s.phase p = .asleep b k → b ∈ q ∧ s.queued[k]? = some b ∧ s.completed.length ≤ k) ∧
      ∀ p b k f, s.phase p = .done b k f →
        f = ⟨true, false⟩ ∧ k < s.completed.length ∧ s.completed[k]? = some b := by
  have hstart : Reachable step (fun _ _ => True) Init quiet :=
    .start ⟨rfl, rfl, fun _ => rfl, rfl, rfl, rfl⟩
  obtain ⟨s, hs, hq⟩ := hstart.exists_of_exec
    [.lock 0 0, .iderw 0 0, .lock 1 1, .iderw 1 1, .intr, .resume 0]
    (fun s : State (Fin 2) (Fin 2) =>
      decide (s.phase 0 = .done 0 0 ⟨true, false⟩ ∧ s.phase 1 = .asleep 1 1)) (by decide +kernel)
  exact ⟨s, of_decide_eq_true hq, ide_serves_in_order hs⟩

end Xv6.Ide
