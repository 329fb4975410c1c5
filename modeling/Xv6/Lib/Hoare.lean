import Mathlib.Tactic.Common

/-!
# Weakest preconditions for programs with state and errors

Programs in `StateT σ (Except ε)`: they read and write a state, and may stop with an error, after
which there is no state. `wp p Q E s` says that `p` run from `s` either returns `a` in a state with
`Q a`, or stops with an error in `E`. With `E` empty this is total correctness.

Every rule is an equivalence between the `wp` of a program and those of its parts, so a
specification is proved by peeling a program from the front and used through `wp.mono`.
-/

namespace Hoare

variable {σ ε α β : Type}

/-- From `s`, the program returns with `Q` or stops with an error in `E`. -/
def wp (p : StateT σ (Except ε) α) (Q : α → σ → Prop) (E : ε → Prop) (s : σ) : Prop :=
  match p s with
  | .ok (a, s') => Q a s'
  | .error e => E e

variable {p : StateT σ (Except ε) α} {Q Q' : α → σ → Prop} {E E' : ε → Prop} {s : σ}

theorem wp.mono (h : wp p Q E s) (hQ : ∀ a s', Q a s' → Q' a s') (hE : ∀ e, E e → E' e) :
    wp p Q' E' s := by
  unfold wp at h ⊢
  split at h
  · exact hQ _ _ h
  · exact hE _ h

theorem wp.imp (h : wp p Q E s) (hQ : ∀ a s', Q a s' → Q' a s') : wp p Q' E s :=
  h.mono hQ fun _ he => he

theorem wp_ok : wp p Q (fun _ => False) s ↔ ∃ a s', p s = .ok (a, s') ∧ Q a s' := by
  unfold wp
  split
  case h_1 a s' he =>
    refine ⟨fun h => ⟨a, s', he, h⟩, fun ⟨b, t, hb, h⟩ => ?_⟩
    rw [he] at hb
    cases hb
    exact h
  case h_2 e he =>
    refine ⟨fun h => h.elim, fun ⟨b, t, hb, _⟩ => ?_⟩
    rw [he] at hb
    cases hb

/-- What is known of a run that returned. -/
theorem wp.of_ok {a : α} {s' : σ} (h : wp p Q E s) (he : p s = .ok (a, s')) : Q a s' := by
  unfold wp at h
  rwa [he] at h

/-- What is known of a run that stopped. -/
theorem wp.of_error {e : ε} (h : wp p Q E s) (he : p s = .error e) : E e := by
  unfold wp at h
  rwa [he] at h

/-- Two facts about one run. -/
theorem wp.and (h : wp p Q E s) (h' : wp p Q' E' s) :
    wp p (fun a t => Q a t ∧ Q' a t) (fun e => E e ∧ E' e) s := by
  unfold wp at h h' ⊢
  split at h
  case h_1 heq =>
    rw [heq] at h'
    exact ⟨h, h'⟩
  case h_2 heq =>
    rw [heq] at h'
    exact ⟨h, h'⟩

variable {f : α → StateT σ (Except ε) β}

/-- Running a sequence whose first part returned. -/
theorem bind_of_ok {a : α} {s' : σ} (h : p s = .ok (a, s')) : (p >>= f) s = f a s' := by
  change (p s >>= fun x => f x.1 x.2) = _
  rw [h]
  rfl

theorem wp_bind_of_ok {Q : β → σ → Prop} {a : α} {t : σ}
    (h : p s = .ok (a, t)) (hf : wp (f a) Q E t) : wp (p >>= f) Q E s := by
  unfold wp at hf ⊢
  rw [bind_of_ok h]
  exact hf

/-! ### The constructs -/

@[simp] theorem wp_pure {a : α} : wp (pure a : StateT σ (Except ε) α) Q E s ↔ Q a s := Iff.rfl

@[simp] theorem wp_bind {Q : β → σ → Prop} :
    wp (p >>= f) Q E s ↔ wp p (fun a => wp (f a) Q E) E s := by
  have hrun : (p >>= f) s = match p s with
      | .ok (a, s') => f a s'
      | .error e => .error e := by
    change (p s >>= fun x => f x.1 x.2) = _
    cases p s <;> rfl
  unfold wp
  rw [hrun]
  cases p s <;> exact Iff.rfl

@[simp] theorem wp_get {Q : σ → σ → Prop} :
    wp (get : StateT σ (Except ε) σ) Q E s ↔ Q s s := Iff.rfl

@[simp] theorem wp_set {t : σ} {Q : PUnit → σ → Prop} :
    wp (set t : StateT σ (Except ε) PUnit) Q E s ↔ Q ⟨⟩ t := Iff.rfl

@[simp] theorem wp_modify {f : σ → σ} {Q : PUnit → σ → Prop} :
    wp (modify f : StateT σ (Except ε) PUnit) Q E s ↔ Q ⟨⟩ (f s) := Iff.rfl

@[simp] theorem wp_throw {e : ε} : wp (throw e : StateT σ (Except ε) α) Q E s ↔ E e := Iff.rfl

@[simp] theorem wp_ite {c : Prop} [Decidable c] {q : StateT σ (Except ε) α} :
    wp (if c then p else q) Q E s ↔ if c then wp p Q E s else wp q Q E s := by
  split <;> exact Iff.rfl

/-! ### Counted loops -/

/-- `for (i = 0; i < n; i++) body(i)`. -/
def forUpTo (body : ℕ → StateT σ (Except ε) Unit) : ℕ → StateT σ (Except ε) Unit
  | 0 => pure ()
  | n + 1 => do
    forUpTo body n
    body n

theorem forUpTo_zero (body : ℕ → StateT σ (Except ε) Unit) : forUpTo body 0 = pure () := rfl

theorem forUpTo_succ (body : ℕ → StateT σ (Except ε) Unit) (n : ℕ) :
    forUpTo body (n + 1) = (do forUpTo body n; body n) := rfl

-- so that nothing unrolls a loop whose bound is a numeral
attribute [irreducible] forUpTo

/-- An invariant indexed by the iterations done. -/
theorem wp_forUpTo {body : ℕ → StateT σ (Except ε) Unit} {I : ℕ → σ → Prop} {n : ℕ}
    (h₀ : I 0 s) (h : ∀ i < n, ∀ t, I i t → wp (body i) (fun _ => I (i + 1)) E t) :
    wp (forUpTo body n) (fun _ => I n) E s := by
  induction n with
  | zero =>
    rw [forUpTo_zero]
    exact h₀
  | succ n ih =>
  rw [forUpTo_succ, wp_bind]
  refine (ih fun i hi => h i (Nat.lt_succ_of_lt hi)).imp fun _ t ht => ?_
  exact h n (Nat.lt_succ_self n) t ht

/-- `for (x in xs) body(x)`. -/
def forEach {ι : Type} (body : ι → StateT σ (Except ε) Unit) : List ι → StateT σ (Except ε) Unit
  | [] => pure ()
  | x :: xs => do
    body x
    forEach body xs

theorem forEach_append {ι : Type} (body : ι → StateT σ (Except ε) Unit) (xs ys : List ι) :
    forEach body (xs ++ ys) = (do forEach body xs; forEach body ys) := by
  induction xs with
  | nil => rfl
  | cons x xs ih =>
    rw [List.cons_append, forEach, forEach, ih, bind_assoc]

/-! ### Through a relation to abstract states

`Via rel p R E t` is a specification in terms of abstract states: whatever concrete state is
related to `t`, `p` ends in a state related to one that satisfies `R`. -/

section Via

variable {τ : Type} {rel : σ → τ → Prop} {t : τ} {R R' : α → τ → Prop}

/-- From every state related to `t`, the program returns in a state related to one with `R`, or
stops with an error in `E`. -/
def Via (rel : σ → τ → Prop) (p : StateT σ (Except ε) α) (R : α → τ → Prop) (E : ε → Prop)
    (t : τ) : Prop :=
  ∀ s, rel s t → wp p (fun a s' => ∃ t', rel s' t' ∧ R a t') E s

theorem Via.mono (h : Via rel p R E t) (hR : ∀ a u, R a u → R' a u) (hE : ∀ e, E e → E' e) :
    Via rel p R' E' t :=
  fun s hs => (h s hs).mono (fun a _ ⟨u, hu, hr⟩ => ⟨u, hu, hR a u hr⟩) hE

/-- A specification without errors gives a run. -/
theorem Via.exists_ok (h : Via rel p R (fun _ => False) t) (hs : rel s t) :
    ∃ a s' t', p s = .ok (a, s') ∧ rel s' t' ∧ R a t' := by
  obtain ⟨a, s', hrun, t', hrel, hR⟩ := wp_ok.mp (h s hs)
  exact ⟨a, s', t', hrun, hrel, hR⟩

theorem Via.pure {a : α} (h : R a t) : Via rel (pure a : StateT σ (Except ε) α) R E t :=
  fun _ hs => ⟨t, hs, h⟩

theorem Via.throw {e : ε} (h : E e) : Via rel (throw e : StateT σ (Except ε) α) R E t :=
  fun _ _ => h

theorem Via.bind {f : α → StateT σ (Except ε) β} {R : α → τ → Prop} {Q : β → τ → Prop}
    (hp : Via rel p R E t) (hf : ∀ a u, R a u → Via rel (f a) Q E u) : Via rel (p >>= f) Q E t := by
  intro s hs
  rw [wp_bind]
  exact (hp s hs).imp fun a s' ⟨u, hu, hR⟩ => hf a u hR s' hu

/-- A step whose rule has one premise for each outcome: what follows is shown in each of them. -/
theorem Via.cont {f : α → StateT σ (Except ε) β} {Q : β → τ → Prop}
    (hp : Via rel p (fun a u => Via rel (f a) Q E u) E t) : Via rel (p >>= f) Q E t :=
  hp.bind fun _ _ h => h

/-- A step whose result and abstract state are known. -/
theorem Via.bind_eq {f : α → StateT σ (Except ε) β} {Q : β → τ → Prop} {a : α} {u : τ}
    (hp : Via rel p (fun x w => x = a ∧ u = w) E t) (hf : Via rel (f a) Q E u) :
    Via rel (p >>= f) Q E t := by
  refine hp.bind ?_
  rintro _ _ ⟨rfl, rfl⟩
  exact hf

/-- A step of which only the abstract state matters, and that is known. -/
theorem Via.seq {q : StateT σ (Except ε) β} {Q : β → τ → Prop} {u : τ}
    (hp : Via rel p (fun _ w => w = u) E t) (hq : Via rel q Q E u) :
    Via rel (p >>= fun _ => q) Q E t := by
  refine hp.bind ?_
  rintro _ _ rfl
  exact hq

theorem Via.ite {c : Prop} [Decidable c] {q : StateT σ (Except ε) α}
    (hp : c → Via rel p R E t) (hq : ¬ c → Via rel q R E t) :
    Via rel (if c then p else q) R E t := by
  split
  · exact hp ‹_›
  · exact hq ‹_›

theorem Via.forUpTo {body : ℕ → StateT σ (Except ε) Unit} {I : ℕ → τ → Prop} {n : ℕ}
    (h₀ : I 0 t) (h : ∀ i < n, ∀ u, I i u → Via rel (body i) (fun _ => I (i + 1)) E u) :
    Via rel (forUpTo body n) (fun _ => I n) E t := by
  intro s hs
  refine wp_forUpTo (I := fun i s' => ∃ u, rel s' u ∧ I i u) ⟨t, hs, h₀⟩ ?_
  rintro i hi s' ⟨u, hu, hI⟩
  exact h i hi u hI s' hu

/-- An invariant indexed by the elements still to come. -/
theorem Via.forEach {ι : Type} {body : ι → StateT σ (Except ε) Unit} {I : List ι → τ → Prop}
    (h : ∀ x xs u, I (x :: xs) u → Via rel (body x) (fun _ => I xs) E u) :
    ∀ {xs : List ι} {t : τ}, I xs t → Via rel (forEach body xs) (fun _ => I []) E t
  | [], _, h₀ => Via.pure h₀
  | x :: xs, t, h₀ => Via.bind (h x xs t h₀) fun _ _ hu => Via.forEach h hu

end Via

end Hoare
