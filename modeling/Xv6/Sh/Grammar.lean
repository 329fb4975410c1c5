import Xv6.Sh.Parser

/-!
# The grammar of the shell

A line is derivable from the grammar or it is not, and with a derivation comes a tree. The routines
of the parser are compared with it from both sides, by induction on the bound: what they parse is
derivable, and what is derivable they parse, if what follows it can follow. After that the words in
the string: they do not overlap, and a zero is written behind each.
-/

namespace Xv6.Sh

open Hoare Function List

variable {buf : List UInt8} {i f : ℕ} {E : Err → Prop}

/-! ### The grammar -/

/-- `redir*`, with the redirections. -/
inductive Redirs : List Token → List Redir → Prop
  | nil : Redirs [] []
  | cons {t w : Token} {mode fd : ℕ} {ts : List Token} {rs : List Redir}
      (hmode : redirMode t.kind = some (mode, fd)) (hw : w.kind = .word) (h : Redirs ts rs) :
      Redirs (t :: w :: ts) (⟨w.start, w.stop, mode, fd⟩ :: rs)

/-- `(word redir*)*`, with the words and the redirections. -/
inductive Args : List Token → List (ℕ × ℕ) → List Redir → Prop
  | nil : Args [] [] []
  | cons {t : Token} {ts ts' : List Token} {as : List (ℕ × ℕ)} {rs rs' : List Redir}
      (hw : t.kind = .word) (h : Redirs ts rs) (h' : Args ts' as rs') :
      Args (t :: (ts ++ ts')) ((t.start, t.stop) :: as) (rs ++ rs')

mutual

/-- `'(' line ')' redir* | redir* (word redir*)*` -/
inductive Exec : List Token → Cmd → Prop
  | block {l r : Token} {ts ts' : List Token} {c : Cmd} {rs : List Redir}
      (hl : l.kind = .lparen) (h : Line ts c) (hr : r.kind = .rparen) (h' : Redirs ts' rs) :
      Exec (l :: (ts ++ r :: ts')) (wrap c rs)
  | simple {ts ts' : List Token} {as : List (ℕ × ℕ)} {rs rs' : List Redir}
      (h : Redirs ts rs) (h' : Args ts' as rs') (hlen : as.length < MAXARGS) :
      Exec (ts ++ ts') (wrap (.exec as) (rs ++ rs'))

/-- `exec ['|' pipe]` -/
inductive Pipe : List Token → Cmd → Prop
  | one {ts : List Token} {c : Cmd} (h : Exec ts c) : Pipe ts c
  | more {b : Token} {ts ts' : List Token} {c d : Cmd} (h : Exec ts c) (hb : b.kind = .bar)
      (h' : Pipe ts' d) : Pipe (ts ++ b :: ts') (.pipe c d)

/-- `pipe '&'* [';' line]` -/
inductive Line : List Token → Cmd → Prop
  | one {ts amps : List Token} {c : Cmd} (h : Pipe ts c) (hamps : ∀ a ∈ amps, a.kind = .amp) :
      Line (ts ++ amps) (backs c amps.length)
  | more {s : Token} {ts amps ts' : List Token} {c d : Cmd} (h : Pipe ts c)
      (hamps : ∀ a ∈ amps, a.kind = .amp) (hs : s.kind = .semi) (h' : Line ts' d) :
      Line (ts ++ (amps ++ s :: ts')) (.list (backs c amps.length) d)

end

/-! ### What is parsed is derivable -/

theorem redirMode_of_mem {k : Tok} (h : k ∈ kinds [60, 62]) :
    ∃ mode fd, redirMode k = some (mode, fd) := by
  have h' : k ∈ [Tok.lt, .gt, .append] := h
  simp only [mem_cons, not_mem_nil, or_false] at h'
  rcases h' with rfl | rfl | rfl <;> exact ⟨_, _, rfl⟩

theorem mem_of_redirMode {k : Tok} {m : ℕ × ℕ} (h : redirMode k = some m) : k ∈ kinds [60, 62] := by
  cases k with
  | lt => decide
  | gt => decide
  | append => decide
  | _ => exact absurd h (by simp [redirMode])

/-- The routine returns, and what it parsed is derivable from the symbol, if the bound allows four
calls for each token and `n` more. -/
def Sound (buf : List UInt8) (n f : ℕ) (p : P Cmd) (G : List Token → Cmd → Prop) : Prop :=
  ∀ i ts, At buf i ts → 4 * ts.length + n ≤ f →
    wp p (fun c i' => ∃ us rest, ts = us ++ rest ∧ At buf i' rest ∧ G us c) (· ≠ .bound) i

section Sound

variable {ts : List Token} (hnul : 0 ∉ buf)

include hnul

theorem wp_parseredirs (hat : At buf i ts) (hf : ts.length < f) (rs : List Redir) :
    wp (parseredirs buf f rs) (fun out i' => ∃ us rest rs', ts = us ++ rest ∧ At buf i' rest ∧
      Redirs us rs' ∧ out = rs ++ rs') (· ≠ .bound) i := by
  induction f generalizing i ts rs with
  | zero => exact absurd hf (Nat.not_lt_zero _)
  | succ f ih =>
  rw [parseredirs]
  refine wp_peek hnul (by decide) hat (fun i' hat' hk => ?_) fun i' hat' _ =>
    ⟨[], ts, [], rfl, hat', .nil, (append_nil rs).symm⟩
  cases ts with
  | nil => exact absurd hk (by decide)
  | cons t ts =>
  refine wp_gettoken hnul hat' fun i₁ hat₁ _ => ?_
  obtain ⟨mode, fd, hmode⟩ : ∃ mode fd, redirMode t.kind = some (mode, fd) :=
    redirMode_of_mem hk
  cases ts with
  | nil =>
    refine wp_gettoken_nil hat₁ fun w i₂ hw _ => ?_
    rw [if_pos (by simp [hw])]
    exact fun h => Err.noConfusion h
  | cons w ts =>
  refine wp_gettoken hnul hat₁ fun i₂ hat₂ _ => ?_
  rw [length_cons, length_cons] at hf
  by_cases hw : w.kind = .word
  · rw [if_neg (not_not.mpr hw), hmode]
    refine (ih hat₂ (by omega) _).imp ?_
    rintro out i₃ ⟨us, rest, rs', rfl, hat₃, hrs, rfl⟩
    exact ⟨t :: w :: us, rest, _, rfl, hat₃, .cons hmode hw hrs, by simp⟩
  · rw [if_pos hw]
    exact fun h => Err.noConfusion h

theorem wp_parseargs (hat : At buf i ts) (hf : ts.length < f) {argv : List (ℕ × ℕ)}
    (hlen : argv.length < MAXARGS) (rs : List Redir) :
    wp (parseargs buf f argv rs) (fun c i' => ∃ us rest as rs', ts = us ++ rest ∧ At buf i' rest ∧
      Args us as rs' ∧ (argv ++ as).length < MAXARGS ∧
      c = wrap (.exec (argv ++ as)) (rs ++ rs')) (· ≠ .bound) i := by
  induction f generalizing i ts argv rs with
  | zero => exact absurd hf (Nat.not_lt_zero _)
  | succ f ih =>
  have hnone : ∀ i', At buf i' ts → ∃ us rest as rs', ts = us ++ rest ∧ At buf i' rest ∧
      Args us as rs' ∧ (argv ++ as).length < MAXARGS ∧
      wrap (.exec argv) rs = wrap (.exec (argv ++ as)) (rs ++ rs') := by
    intro i' hat'
    refine ⟨[], ts, [], [], rfl, hat', .nil, ?_, ?_⟩
    · rwa [append_nil]
    · rw [append_nil, append_nil]
  rw [parseargs]
  refine wp_peek hnul (by decide) hat (fun i' hat' _ => hnone i' hat') fun i' hat' _ => ?_
  cases ts with
  | nil =>
    refine wp_gettoken_nil hat' fun t i₁ ht hat₁ => ?_
    rw [if_pos ht]
    exact hnone i₁ hat₁
  | cons t ts =>
  refine wp_gettoken hnul hat' fun i₁ hat₁ ht => ?_
  rw [length_cons] at hf
  rw [if_neg ht]
  by_cases hw : t.kind = .word
  · rw [if_neg (not_not.mpr hw)]
    by_cases hmany : argv.length + 1 ≥ MAXARGS
    · rw [if_pos hmany]
      exact fun h => Err.noConfusion h
    rw [if_neg hmany, wp_bind]
    refine (wp_parseredirs hnul hat₁ (by omega) rs).imp ?_
    rintro rs₁ i₂ ⟨us, rest, rs', rfl, hat₂, hrs, rfl⟩
    rw [length_append] at hf
    have hlen' : (argv ++ [(t.start, t.stop)]).length < MAXARGS := by
      rw [length_append, length_singleton]
      omega
    refine (ih hat₂ (by omega) hlen' _).imp ?_
    rintro c i₃ ⟨us', rest', as, rs₂, rfl, hat₃, hargs, hmax, rfl⟩
    rw [append_assoc] at hmax
    refine ⟨t :: (us ++ us'), rest', (t.start, t.stop) :: as, rs' ++ rs₂, ?_, hat₃,
      .cons hw hrs hargs, hmax, ?_⟩
    · simp
    · simp
  · rw [if_pos hw]
    exact fun h => Err.noConfusion h

theorem wp_parsebacks (hat : At buf i ts) (hf : ts.length < f) (c : Cmd) :
    wp (parsebacks buf f c) (fun d i' => ∃ amps rest, ts = amps ++ rest ∧ At buf i' rest ∧
      (∀ a ∈ amps, a.kind = .amp) ∧ d = backs c amps.length) (· ≠ .bound) i := by
  induction f generalizing i ts c with
  | zero => exact absurd hf (Nat.not_lt_zero _)
  | succ f ih =>
  rw [parsebacks]
  refine wp_accept hnul (by decide) hat ?_ fun i' hat' =>
    ⟨[], ts, rfl, hat', fun _ h => absurd h not_mem_nil, rfl⟩
  rintro t ts i₁ rfl hk hat₁
  have ht : t.kind = .amp := mem_singleton.mp hk
  refine (ih hat₁ (Nat.lt_of_succ_lt_succ hf) _).imp ?_
  rintro d i₂ ⟨amps, rest, rfl, hat₂, hamps, rfl⟩
  exact ⟨t :: amps, rest, rfl, hat₂, forall_mem_cons.mpr ⟨ht, hamps⟩, rfl⟩

theorem sound_parseline (hpipe : Sound buf 3 f (parsepipe buf f) Pipe)
    (hline : Sound buf 4 f (parseline buf f) Line) :
    Sound buf 4 (f + 1) (parseline buf (f + 1)) Line := by
  intro i ts hat hf
  rw [parseline, wp_bind]
  refine (hpipe i ts hat (by omega)).imp ?_
  rintro c i₁ ⟨us, rest, rfl, hat₁, hus⟩
  rw [length_append] at hf
  rw [wp_bind]
  refine (wp_parsebacks hnul hat₁ (by omega) c).imp ?_
  rintro d i₂ ⟨amps, rest, rfl, hat₂, hamps, rfl⟩
  refine wp_accept hnul (by decide) hat₂ ?_ fun i₃ hat₃ =>
    ⟨us ++ amps, rest, (append_assoc ..).symm, hat₃, .one hus hamps⟩
  rintro t rest i₃ rfl hk hat₃
  rw [length_append, length_cons] at hf
  rw [wp_bind]
  refine (hline i₃ rest hat₃ (by omega)).imp ?_
  rintro d i₄ ⟨vs, rest, rfl, hat₄, hvs⟩
  refine ⟨us ++ (amps ++ t :: vs), rest, by simp, hat₄, ?_⟩
  exact .more hus hamps (mem_singleton.mp hk) hvs

theorem sound_parsepipe (hexec : Sound buf 2 f (parseexec buf f) Exec)
    (hpipe : Sound buf 3 f (parsepipe buf f) Pipe) :
    Sound buf 3 (f + 1) (parsepipe buf (f + 1)) Pipe := by
  intro i ts hat hf
  rw [parsepipe, wp_bind]
  refine (hexec i ts hat (by omega)).imp ?_
  rintro c i₁ ⟨us, rest, rfl, hat₁, hus⟩
  refine wp_accept hnul (by decide) hat₁ ?_ fun i₂ hat₂ => ⟨us, rest, rfl, hat₂, .one hus⟩
  rintro t rest i₂ rfl hk hat₂
  rw [length_append, length_cons] at hf
  rw [wp_bind]
  refine (hpipe i₂ rest hat₂ (by omega)).imp ?_
  rintro d i₃ ⟨vs, rest, rfl, hat₃, hvs⟩
  exact ⟨us ++ t :: vs, rest, by simp, hat₃, .more hus (mem_singleton.mp hk) hvs⟩

theorem sound_parseblock (hline : Sound buf 4 f (parseline buf f) Line) :
    Sound buf 1 (f + 1) (parseblock buf (f + 1)) Exec := by
  intro i ts hat hf
  rw [parseblock]
  refine wp_accept hnul (by decide) hat ?_ fun _ _ h => Err.noConfusion h
  rintro l ts i₁ rfl hl hat₁
  rw [length_cons] at hf
  rw [wp_bind]
  refine (hline i₁ ts hat₁ (by omega)).imp ?_
  rintro c i₂ ⟨us, rest, rfl, hat₂, hus⟩
  refine wp_accept hnul (by decide) hat₂ ?_ fun _ _ h => Err.noConfusion h
  rintro r rest i₃ rfl hr hat₃
  rw [length_append, length_cons] at hf
  rw [wp_bind]
  refine (wp_parseredirs hnul hat₃ (by omega) []).imp ?_
  rintro rs i₄ ⟨vs, rest, rs', rfl, hat₄, hrs, rfl⟩
  exact ⟨l :: (us ++ r :: vs), rest, by simp, hat₄,
    .block (mem_singleton.mp hl) hus (mem_singleton.mp hr) hrs⟩

theorem sound_parseexec (hblock : Sound buf 1 f (parseblock buf f) Exec) :
    Sound buf 2 (f + 1) (parseexec buf (f + 1)) Exec := by
  intro i ts hat hf
  rw [parseexec]
  refine wp_peek hnul (by decide) hat (fun i₁ hat₁ _ => hblock i₁ ts hat₁ (by omega))
    fun i₁ hat₁ _ => ?_
  rw [wp_bind]
  refine (wp_parseredirs hnul hat₁ (by omega) []).imp ?_
  rintro rs i₂ ⟨us, rest, rs', rfl, hat₂, hrs, rfl⟩
  rw [length_append] at hf
  have hnone : ([] : List (ℕ × ℕ)).length < MAXARGS := by decide
  refine (wp_parseargs hnul hat₂ (by omega) hnone _).imp ?_
  rintro c i₃ ⟨vs, rest, as, rs₂, rfl, hat₃, hargs, hlen, rfl⟩
  exact ⟨us ++ vs, rest, (append_assoc ..).symm, hat₃, .simple hrs hargs hlen⟩

/-- **Parsing returns, and what is parsed is derivable.** By induction on the bound: between two
calls of one routine a token is taken, and there are four routines. -/
theorem wp_parse (f : ℕ) :
    Sound buf 4 f (parseline buf f) Line ∧ Sound buf 3 f (parsepipe buf f) Pipe ∧
      Sound buf 1 f (parseblock buf f) Exec ∧ Sound buf 2 f (parseexec buf f) Exec := by
  induction f with
  | zero =>
    refine ⟨?_, ?_, ?_, ?_⟩ <;> exact fun _ _ _ hf => absurd hf (Nat.not_succ_le_zero _)
  | succ f ih =>
  obtain ⟨hline, hpipe, hblock, hexec⟩ := ih
  exact ⟨sound_parseline hnul hpipe hline, sound_parsepipe hnul hexec hpipe,
    sound_parseblock hnul hline, sound_parseexec hnul hblock⟩

end Sound

/-! ### What is derivable is parsed -/

def followLine : List Tok := [.rparen, .none]

def followPipe : List Tok := .amp :: .semi :: followLine

def followExec : List Tok := .bar :: followPipe

theorem hd_amps {amps : List Token} (hamps : ∀ a ∈ amps, a.kind = .amp) (rest : List Token) :
    hd (amps ++ rest) = .amp ∨ hd (amps ++ rest) = hd rest := by
  cases amps with
  | nil => exact .inr rfl
  | cons a amps => exact .inl (hamps a mem_cons_self)

variable {us rest : List Token} {as : List (ℕ × ℕ)} {rs : List Redir}

theorem Args.hd_append
    (h : Args us as rs) : hd (us ++ rest) = .word ∨ hd (us ++ rest) = hd rest := by
  cases h with
  | nil => exact .inr rfl
  | cons hw _ _ => exact .inl hw

theorem Redirs.hd_append (h : Redirs us rs) :
    hd (us ++ rest) ∈ kinds [60, 62] ∨ hd (us ++ rest) = hd rest := by
  cases h with
  | nil => exact .inr rfl
  | cons hmode _ _ => exact .inl (mem_of_redirMode hmode)

theorem Args.hd_not_mem
    (h : Args us as rs) (hrest : hd rest ∈ followExec) : hd (us ++ rest) ∉ kinds [60, 62] := by
  rcases h.hd_append with h' | h'
  · rw [h']
    decide
  · rw [h']
    exact (by decide : ∀ k ∈ followExec, k ∉ kinds [60, 62]) _ hrest

theorem hd_simple_ne {us us' rest : List Token} {rs rs' : List Redir}
    (h : Redirs us rs) (h' : Args us' as rs') (hrest : hd rest ∈ followExec) :
    hd (us ++ us' ++ rest) ≠ .lparen := by
  rw [append_assoc]
  rcases h.hd_append with hhd | hhd
  · intro heq
    rw [heq] at hhd
    exact absurd hhd (by decide)
  rw [hhd]
  rcases h'.hd_append with hhd' | hhd'
  · rw [hhd']
    decide
  · rw [hhd']
    exact (by decide : ∀ k ∈ followExec, k ≠ .lparen) _ hrest

/-- What is derivable from the symbol is parsed by the routine, if what follows it can follow. -/
def Complete (buf : List UInt8) (n f : ℕ) (p : P Cmd) (G : List Token → Cmd → Prop)
    (follow : List Tok) : Prop :=
  ∀ i us rest c, At buf i (us ++ rest) → G us c → hd rest ∈ follow → 4 * us.length + n ≤ f →
    wp p (fun d i' => d = c ∧ At buf i' rest) (fun _ => False) i

def Block (us : List Token) (c : Cmd) : Prop := Exec us c ∧ hd us = .lparen

section Complete

variable {us rest : List Token} (hnul : 0 ∉ buf)

include hnul

theorem parseredirs_complete {rs' : List Redir} (h : Redirs us rs') (hat : At buf i (us ++ rest))
    (hrest : hd rest ∉ kinds [60, 62]) (hf : us.length < f) (rs : List Redir) :
    wp (parseredirs buf f rs) (fun out i' => out = rs ++ rs' ∧ At buf i' rest)
      (fun _ => False) i := by
  induction h generalizing i f rs with
  | nil =>
    obtain ⟨f, rfl⟩ := Nat.exists_eq_succ_of_ne_zero (Nat.ne_of_gt hf)
    rw [parseredirs]
    exact wp_peek hnul (by decide) hat (fun _ _ hk => absurd hk hrest) fun _ hat' _ =>
      ⟨(append_nil rs).symm, hat'⟩
  | @cons t w mode fd ts rs' hmode hw h ih =>
  rw [length_cons, length_cons] at hf
  obtain ⟨f, rfl⟩ := Nat.exists_eq_succ_of_ne_zero (Nat.ne_zero_of_lt hf)
  have hmem : hd (t :: w :: ts ++ rest) ∈ kinds [60, 62] := mem_of_redirMode hmode
  rw [parseredirs]
  refine wp_peek hnul (by decide) hat (fun i₁ hat₁ _ => ?_) fun _ _ hk => absurd hmem hk
  refine wp_gettoken hnul hat₁ fun i₂ hat₂ _ => ?_
  refine wp_gettoken hnul hat₂ fun i₃ hat₃ _ => ?_
  rw [if_neg (not_not.mpr hw), hmode]
  refine (ih hat₃ (by omega) _).imp ?_
  rintro out i₄ ⟨rfl, hat₄⟩
  exact ⟨by simp, hat₄⟩

theorem parseargs_complete {as argv : List (ℕ × ℕ)} {rs' : List Redir} (h : Args us as rs')
    (hat : At buf i (us ++ rest)) (hrest : hd rest ∈ followExec)
    (hlen : (argv ++ as).length < MAXARGS) (hf : us.length < f) (rs : List Redir) :
    wp (parseargs buf f argv rs)
      (fun c i' => c = wrap (.exec (argv ++ as)) (rs ++ rs') ∧ At buf i' rest)
      (fun _ => False) i := by
  induction h generalizing i f argv rs with
  | nil =>
    obtain ⟨f, rfl⟩ := Nat.exists_eq_succ_of_ne_zero (Nat.ne_of_gt hf)
    rw [parseargs, append_nil, append_nil]
    refine wp_peek hnul (by decide) hat (fun _ hat' _ => ⟨rfl, hat'⟩) fun i₁ hat₁ hk => ?_
    have hnone : hd rest = .none :=
      (by decide : ∀ k ∈ followExec, k ∉ kinds [124, 41, 38, 59] → k = .none) _ hrest hk
    cases rest with
    | nil =>
      refine wp_gettoken_nil hat₁ fun t i₂ ht hat₂ => ?_
      rw [if_pos ht]
      exact ⟨rfl, hat₂⟩
    | cons t rest => exact wp_gettoken hnul hat₁ fun _ _ ht => absurd hnone ht
  | @cons t ts ts' as rs₁ rs₂ hw hrs hargs ih =>
  rw [length_cons, length_append] at hf
  obtain ⟨f, rfl⟩ := Nat.exists_eq_succ_of_ne_zero (Nat.ne_zero_of_lt hf)
  rw [cons_append, append_assoc] at hat
  have hhd : hd (t :: (ts ++ (ts' ++ rest))) = .word := hw
  have hfew : ¬ argv.length + 1 ≥ MAXARGS := by
    rw [length_append, length_cons] at hlen
    omega
  rw [parseargs]
  refine wp_peek hnul (by decide) hat (fun _ _ hk => ?_) fun i₁ hat₁ _ => ?_
  · rw [hhd] at hk
    exact absurd hk (by decide)
  refine wp_gettoken hnul hat₁ fun i₂ hat₂ ht => ?_
  rw [if_neg ht, if_neg (not_not.mpr hw), if_neg hfew, wp_bind]
  refine (parseredirs_complete hnul hrs hat₂ (hargs.hd_not_mem hrest) (by omega) rs).imp ?_
  rintro _ i₃ ⟨rfl, hat₃⟩
  have hlen' : (argv ++ [(t.start, t.stop)] ++ as).length < MAXARGS := by
    rwa [append_assoc]
  refine (ih hat₃ hlen' (by omega) _).imp ?_
  rintro c i₄ ⟨rfl, hat₄⟩
  exact ⟨by simp, hat₄⟩

theorem parsebacks_complete {amps : List Token} (hamps : ∀ a ∈ amps, a.kind = .amp)
    (hat : At buf i (amps ++ rest)) (hrest : hd rest ∉ kinds [38]) (hf : amps.length < f)
    (c : Cmd) : wp (parsebacks buf f c) (fun d i' => d = backs c amps.length ∧ At buf i' rest)
      (fun _ => False) i := by
  induction amps generalizing i f c with
  | nil =>
    obtain ⟨f, rfl⟩ := Nat.exists_eq_succ_of_ne_zero (Nat.ne_of_gt hf)
    rw [parsebacks]
    exact wp_peek hnul (by decide) hat (fun _ _ hk => absurd hk hrest) fun _ hat' _ => ⟨rfl, hat'⟩
  | cons a amps ih =>
  rw [length_cons] at hf
  obtain ⟨f, rfl⟩ := Nat.exists_eq_succ_of_ne_zero (Nat.ne_zero_of_lt hf)
  obtain ⟨ha, hamps⟩ := forall_mem_cons.mp hamps
  rw [parsebacks]
  refine wp_peek hnul (by decide) hat (fun i₁ hat₁ _ => ?_) fun _ _ hk =>
    absurd (mem_singleton.mpr ha) hk
  refine wp_gettoken hnul hat₁ fun i₂ hat₂ _ => ?_
  exact ih hamps hat₂ (Nat.lt_of_succ_lt_succ hf) _

theorem complete_parseline (hpipe : Complete buf 3 f (parsepipe buf f) Pipe followPipe)
    (hline : Complete buf 4 f (parseline buf f) Line followLine) :
    Complete buf 4 (f + 1) (parseline buf (f + 1)) Line followLine := by
  intro i us rest c hat h hrest hf
  rw [parseline, wp_bind]
  cases h with
  | @one ts amps c h hamps =>
    rw [length_append] at hf
    rw [append_assoc] at hat
    have hnext : hd (amps ++ rest) ∈ followPipe := by
      rcases hd_amps hamps rest with h' | h'
      · rw [h']
        decide
      · rw [h']
        exact mem_cons_of_mem _ (mem_cons_of_mem _ hrest)
    refine (hpipe i ts _ c hat h hnext (by omega)).imp ?_
    rintro _ i₁ ⟨rfl, hat₁⟩
    rw [wp_bind]
    refine (parsebacks_complete hnul hamps hat₁
      ((by decide : ∀ k ∈ followLine, k ∉ kinds [38]) _ hrest) (by omega) _).imp ?_
    rintro _ i₂ ⟨rfl, hat₂⟩
    exact wp_peek hnul (by decide) hat₂ (fun _ _ hk =>
      absurd hk ((by decide : ∀ k ∈ followLine, k ∉ kinds [59]) _ hrest))
      fun _ hat₃ _ => ⟨rfl, hat₃⟩
  | @more s ts amps ts' c d h hamps hs h' =>
  rw [length_append, length_append, length_cons] at hf
  rw [append_assoc, append_assoc, cons_append] at hat
  have hsemi : hd (s :: (ts' ++ rest)) = .semi := hs
  have hnext : hd (amps ++ s :: (ts' ++ rest)) ∈ followPipe := by
    rcases hd_amps hamps (s :: (ts' ++ rest)) with h'' | h''
    · rw [h'']
      decide
    · rw [h'', hsemi]
      decide
  refine (hpipe i ts _ c hat h hnext (by omega)).imp ?_
  rintro _ i₁ ⟨rfl, hat₁⟩
  rw [wp_bind]
  refine (parsebacks_complete hnul hamps hat₁ (by rw [hsemi]; decide) (by omega) _).imp ?_
  rintro _ i₂ ⟨rfl, hat₂⟩
  refine wp_peek hnul (by decide) hat₂ (fun i₃ hat₃ _ => ?_) fun _ _ hk =>
    absurd (mem_singleton.mpr hsemi) hk
  refine wp_gettoken hnul hat₃ fun i₄ hat₄ _ => ?_
  rw [wp_bind]
  refine (hline i₄ ts' rest d hat₄ h' hrest (by omega)).imp ?_
  rintro _ i₅ ⟨rfl, hat₅⟩
  exact ⟨rfl, hat₅⟩

theorem complete_parsepipe (hexec : Complete buf 2 f (parseexec buf f) Exec followExec)
    (hpipe : Complete buf 3 f (parsepipe buf f) Pipe followPipe) :
    Complete buf 3 (f + 1) (parsepipe buf (f + 1)) Pipe followPipe := by
  intro i us rest c hat h hrest hf
  rw [parsepipe, wp_bind]
  cases h with
  | one h =>
    refine (hexec i us rest c hat h (mem_cons_of_mem _ hrest) (by omega)).imp ?_
    rintro _ i₁ ⟨rfl, hat₁⟩
    exact wp_peek hnul (by decide) hat₁ (fun _ _ hk =>
      absurd hk ((by decide : ∀ k ∈ followPipe, k ∉ kinds [124]) _ hrest))
      fun _ hat₂ _ => ⟨rfl, hat₂⟩
  | @more b ts ts' c d h hb h' =>
  rw [length_append, length_cons] at hf
  rw [append_assoc, cons_append] at hat
  have hbar : hd (b :: (ts' ++ rest)) = .bar := hb
  refine (hexec i ts _ c hat h (by rw [hbar]; decide) (by omega)).imp ?_
  rintro _ i₁ ⟨rfl, hat₁⟩
  refine wp_peek hnul (by decide) hat₁ (fun i₂ hat₂ _ => ?_) fun _ _ hk =>
    absurd (mem_singleton.mpr hbar) hk
  refine wp_gettoken hnul hat₂ fun i₃ hat₃ _ => ?_
  rw [wp_bind]
  refine (hpipe i₃ ts' rest d hat₃ h' hrest (by omega)).imp ?_
  rintro _ i₄ ⟨rfl, hat₄⟩
  exact ⟨rfl, hat₄⟩

theorem complete_parseblock (hline : Complete buf 4 f (parseline buf f) Line followLine) :
    Complete buf 1 (f + 1) (parseblock buf (f + 1)) Block followExec := by
  rintro i us rest c hat ⟨h, hopen⟩ hrest hf
  rw [parseblock]
  cases h with
  | @block l r ts ts' c rs hl h hr h' =>
    rw [length_cons, length_append, length_cons] at hf
    rw [cons_append, append_assoc, cons_append] at hat
    have hparen : hd (r :: (ts' ++ rest)) = .rparen := hr
    refine wp_peek hnul (by decide) hat (fun i₁ hat₁ _ => ?_) fun _ _ hk =>
      absurd (mem_singleton.mpr hl) hk
    refine wp_gettoken hnul hat₁ fun i₂ hat₂ _ => ?_
    rw [wp_bind]
    refine (hline i₂ ts _ c hat₂ h (by rw [hparen]; decide) (by omega)).imp ?_
    rintro _ i₃ ⟨rfl, hat₃⟩
    refine wp_peek hnul (by decide) hat₃ (fun i₄ hat₄ _ => ?_) fun _ _ hk =>
      absurd (mem_singleton.mpr hparen) hk
    refine wp_gettoken hnul hat₄ fun i₅ hat₅ _ => ?_
    rw [wp_bind]
    refine (parseredirs_complete hnul h' hat₅
      ((by decide : ∀ k ∈ followExec, k ∉ kinds [60, 62]) _ hrest) (by omega) []).imp ?_
    rintro _ i₆ ⟨rfl, hat₆⟩
    exact ⟨rfl, hat₆⟩
  | simple h h' _ =>
    have hne := hd_simple_ne h h' (by decide : hd [] ∈ followExec)
    rw [append_nil] at hne
    exact absurd hopen hne

theorem complete_parseexec (hblock : Complete buf 1 f (parseblock buf f) Block followExec) :
    Complete buf 2 (f + 1) (parseexec buf (f + 1)) Exec followExec := by
  intro i us rest c hat h hrest hf
  rw [parseexec]
  cases h with
  | block hl h hr h' =>
    refine wp_peek hnul (by decide) hat (fun i₁ hat₁ _ => ?_) fun _ _ hk =>
      absurd (mem_singleton.mpr hl) hk
    exact hblock i₁ _ rest _ hat₁ ⟨.block hl h hr h', hl⟩ hrest (by omega)
  | @simple ts ts' as rs rs' h h' hlen =>
  refine wp_peek hnul (by decide) hat (fun _ _ hk => ?_) fun i₁ hat₁ _ => ?_
  · exact absurd (mem_singleton.mp hk) (hd_simple_ne h h' hrest)
  rw [length_append] at hf
  rw [append_assoc] at hat₁
  rw [wp_bind]
  refine (parseredirs_complete hnul h hat₁ (h'.hd_not_mem hrest) (by omega) []).imp ?_
  rintro _ i₂ ⟨rfl, hat₂⟩
  have hlen' : ([] ++ as).length < MAXARGS := hlen
  exact parseargs_complete hnul h' hat₂ hrest hlen' (by omega) _

theorem parse_complete (f : ℕ) : Complete buf 4 f (parseline buf f) Line followLine ∧
      Complete buf 3 f (parsepipe buf f) Pipe followPipe ∧
      Complete buf 1 f (parseblock buf f) Block followExec ∧
      Complete buf 2 f (parseexec buf f) Exec followExec := by
  induction f with
  | zero =>
    refine ⟨?_, ?_, ?_, ?_⟩ <;> exact fun _ _ _ _ _ _ _ hf => absurd hf (Nat.not_succ_le_zero _)
  | succ f ih =>
  obtain ⟨hline, hpipe, hblock, hexec⟩ := ih
  exact ⟨complete_parseline hnul hpipe hline, complete_parsepipe hnul hexec hpipe,
    complete_parseblock hnul hline, complete_parseexec hnul hblock⟩

end Complete

/-! ### The words in the string -/

theorem of_lt_scan {p : UInt8 → Bool} {q x : ℕ} (hle : q ≤ x) (hlt : x < scan p buf q) :
    p (deref buf x) = true := by
  obtain ⟨k, rfl⟩ := Nat.exists_eq_add_of_le hle
  have hk : k < ((buf.drop q).takeWhile p).length := by
    unfold scan at hlt
    omega
  have hpre := takeWhile_prefix p (l := buf.drop q)
  have hget := hpre.getElem hk
  rw [getElem_drop] at hget
  have hlen : q + k < buf.length := by
    have hle' := hpre.length_le
    rw [length_drop] at hle'
    omega
  have hderef : deref buf (q + k) = buf[q + k] := by simp [deref, getD, hlen]
  rw [hderef, ← hget]
  exact all_eq_true.mp all_takeWhile _ (getElem_mem hk)

theorem not_scan {p : UInt8 → Bool} {q : ℕ} (hlt : scan p buf q < buf.length) :
    p (deref buf (scan p buf q)) = false := by
  cases hl : buf.drop (scan p buf q) with
  | nil =>
    have hle := drop_eq_nil_iff.mp hl
    omega
  | cons c cs =>
  rw [deref_eq hl]
  have hdw : (buf.drop q).dropWhile p = c :: cs := by rw [← drop_scan, hl]
  have hne := head_dropWhile_not p (l := buf.drop q) (by rw [hdw]; simp)
  simpa [hdw] using hne

/-- A word: from the start on there are characters of a word, and none behind it. -/
structure WordIn (buf : List UInt8) (t : Token) : Prop where
  start_le : t.start ≤ t.stop
  stop_le : t.stop ≤ buf.length
  chars : ∀ x, t.start ≤ x → x < t.stop → isWord (deref buf x) = true
  stop : t.stop < buf.length → isWord (deref buf t.stop) = false

theorem wordIn_firstToken {q : ℕ} {c : UInt8} {cs : List UInt8} (h : buf.drop q = c :: cs)
    (hw : (firstToken q c cs).kind = .word) : WordIn buf (firstToken q c cs) := by
  have htoken : firstToken q c cs = ⟨.word, q, scan isWord buf q⟩ := by
    revert hw
    unfold firstToken
    split
    · exact fun hw => Tok.noConfusion hw
    split
    · unfold symbolKind
      dsimp only
      repeat' split
      all_goals exact fun hw => Tok.noConfusion hw
    · intro _
      rw [← h]
      rfl
  have hstop := stop_firstToken_le h
  rw [htoken] at hstop ⊢
  exact ⟨Nat.le_add_right .., hstop, fun _ => of_lt_scan, not_scan⟩

theorem wordIn_of_mem {t : Token} (hmem : t ∈ toks buf i) (hw : t.kind = .word) : WordIn buf t := by
  induction hn : (toks buf i).length generalizing i with
  | zero =>
    rw [length_eq_zero_iff.mp hn] at hmem
    exact absurd hmem not_mem_nil
  | succ n ih =>
  rcases scan_cases buf i with ⟨_, hnil⟩ | ⟨c, cs, hdrop, _, htoks⟩
  · rw [hnil] at hn
    exact absurd hn (Nat.succ_ne_zero n).symm
  rw [htoks] at hmem hn
  rcases mem_cons.mp hmem with rfl | hmem
  · exact wordIn_firstToken hdrop hw
  · exact ih hmem (Nat.succ.inj hn)

/-! ### The strings of a command -/

def Cmd.strings : Cmd → List (ℕ × ℕ)
  | .exec argv => argv
  | .redir c r => c.strings ++ [(r.file, r.efile)]
  | .pipe c d => c.strings ++ d.strings
  | .list c d => c.strings ++ d.strings
  | .back c => c.strings

theorem strings_wrap (c : Cmd) (rs : List Redir) :
    (wrap c rs).strings = c.strings ++ rs.map fun r => (r.file, r.efile) := by
  induction rs generalizing c with
  | nil => exact (append_nil _).symm
  | cons r rs ih =>
  change (wrap (.redir c r) rs).strings = _
  rw [ih, Cmd.strings, append_assoc]
  rfl

theorem strings_backs (c : Cmd) (n : ℕ) : (backs c n).strings = c.strings := by
  induction n generalizing c with
  | zero => rfl
  | succ n ih => exact ih (.back c)

theorem foldl_update (argv : List (ℕ × ℕ)) (mem : ℕ → UInt8) (x : ℕ) :
    argv.foldl (fun mem a => update mem a.2 0) mem x =
      if x ∈ argv.map Prod.snd then 0 else mem x := by
  induction argv generalizing mem with
  | nil => rfl
  | cons a argv ih =>
  rw [foldl_cons, ih, map_cons]
  by_cases hx : x ∈ argv.map Prod.snd
  · rw [if_pos hx, if_pos (mem_cons_of_mem _ hx)]
  · by_cases ha : x = a.2
    · rw [if_neg hx, if_pos (ha ▸ mem_cons_self), ha, update_self]
    · rw [if_neg hx, if_neg (by simp [ha, hx]), update_of_ne ha]

theorem nulterminate_apply (c : Cmd) (mem : ℕ → UInt8) (x : ℕ) :
    nulterminate c mem x = if x ∈ c.strings.map Prod.snd then 0 else mem x := by
  have hseq (l l' : List (ℕ × ℕ)) (a : UInt8) :
      (if x ∈ l'.map Prod.snd then 0 else if x ∈ l.map Prod.snd then 0 else a) =
        if x ∈ (l ++ l').map Prod.snd then 0 else a := by
    rw [map_append, ← ite_or]
    exact if_congr (or_comm.trans mem_append.symm) rfl rfl
  induction c generalizing mem with
  | exec argv => exact foldl_update argv mem x
  | redir c r ih =>
    rw [nulterminate, Cmd.strings, ← hseq, ← ih, update_apply]
    exact if_congr mem_singleton.symm rfl rfl
  | pipe c d ihc ihd | list c d ihc ihd => rw [nulterminate, ihd, ihc, hseq, Cmd.strings]
  | back c ih => exact ih mem

def WordOf (ts : List Token) (w : ℕ × ℕ) : Prop :=
  ∃ t ∈ ts, t.kind = .word ∧ w = (t.start, t.stop)

theorem WordOf.mono {ts ts' : List Token} {w : ℕ × ℕ} (h : WordOf ts w) (hsub : ts ⊆ ts') :
    WordOf ts' w := by
  obtain ⟨t, ht, hw⟩ := h
  exact ⟨t, hsub ht, hw⟩

variable {ts : List Token}

theorem Redirs.wordOf (h : Redirs ts rs) : ∀ r ∈ rs, WordOf ts (r.file, r.efile) := by
  induction h with
  | nil => exact fun _ hr => absurd hr not_mem_nil
  | @cons t w mode fd ts rs _ hw _ ih =>
  intro r hr
  rcases mem_cons.mp hr with rfl | hr
  · exact ⟨w, by simp, hw, rfl⟩
  · exact (ih r hr).mono fun _ h => by simp [h]

theorem Args.wordOf (h : Args ts as rs) :
    (∀ a ∈ as, WordOf ts a) ∧ ∀ r ∈ rs, WordOf ts (r.file, r.efile) := by
  induction h with
  | nil => exact ⟨fun _ hr => absurd hr not_mem_nil, fun _ hr => absurd hr not_mem_nil⟩
  | @cons t ts ts' as rs rs' hw hrs _ ih =>
  refine ⟨fun a ha => ?_, fun r hr => ?_⟩
  · rcases mem_cons.mp ha with rfl | ha
    · exact ⟨t, mem_cons_self, hw, rfl⟩
    · exact (ih.1 a ha).mono fun _ h => by simp [h]
  · rcases mem_append.mp hr with hr | hr
    · exact (hrs.wordOf r hr).mono fun _ h => by simp [h]
    · exact (ih.2 r hr).mono fun _ h => by simp [h]

def Words (ts : List Token) (c : Cmd) : Prop := ∀ w ∈ c.strings, WordOf ts w

variable {c : Cmd}

theorem words_wrap {ts us vs : List Token} (h : Words us c)
    (h' : ∀ r ∈ rs, WordOf vs (r.file, r.efile)) (hsub : us ⊆ ts) (hsub' : vs ⊆ ts) :
    Words ts (wrap c rs) := by
  intro w hmem
  rw [strings_wrap] at hmem
  rcases mem_append.mp hmem with hmem | hmem
  · exact (h w hmem).mono hsub
  · obtain ⟨r, hr, rfl⟩ := mem_map.mp hmem
    exact (h' r hr).mono hsub'

theorem words_simple {ts ts' : List Token} {rs rs' : List Redir}
    (h : Redirs ts rs) (h' : Args ts' as rs') :
    Words (ts ++ ts') (wrap (.exec as) (rs ++ rs')) := by
  have hwords : Words ts' (.exec as) := h'.wordOf.1
  refine words_wrap hwords (fun r hr => ?_) (subset_append_right ts ts') (List.Subset.refl _)
  rcases mem_append.mp hr with hr | hr
  · exact (h.wordOf r hr).mono (subset_append_left ts ts')
  · exact (h'.wordOf.2 r hr).mono (subset_append_right ts ts')

theorem words_append {ts us vs : List Token} {c d : Cmd} (h : Words us c) (h' : Words vs d)
    (hsub : us ⊆ ts) (hsub' : vs ⊆ ts) : ∀ w ∈ c.strings ++ d.strings, WordOf ts w := by
  intro w hmem
  rcases mem_append.mp hmem with hmem | hmem
  · exact (h w hmem).mono hsub
  · exact (h' w hmem).mono hsub'

theorem words_backs (h : Words ts c) (n : ℕ) : Words ts (backs c n) := by
  intro w hmem
  rw [strings_backs] at hmem
  exact h w hmem

theorem Line.words (h : Line ts c) : Words ts c := by
  refine @Line.rec (fun ts c _ => Words ts c) (fun ts c _ => Words ts c) (fun ts c _ => Words ts c)
    ?block ?simple ?one ?more ?line ?lines ts c h
  case block =>
    intro l r ts ts' c rs _ _ _ h' ih
    exact words_wrap ih h'.wordOf (fun _ h => by simp [h]) fun _ h => by simp [h]
  case simple => exact fun h h' _ => words_simple h h'
  case one => exact fun _ ih => ih
  case more =>
    intro b ts ts' c d _ _ _ ih ih'
    exact words_append ih ih' (fun _ h => by simp [h]) fun _ h => by simp [h]
  case line =>
    intro ts amps c _ _ ih
    exact fun w hw => (words_backs ih _ w hw).mono (subset_append_left ts amps)
  case lines =>
    intro s ts amps ts' c d _ _ _ _ ih ih'
    exact words_append (words_backs ih _) ih' (fun _ h => by simp [h]) fun _ h => by simp [h]

/-! ### The parser accepts the grammar -/

/-- There is this string at `s`, with a zero behind it. -/
structure IsString (mem : ℕ → UInt8) (s : ℕ) (l : List UInt8) : Prop where
  chars : ∀ k (h : k < l.length), mem (s + k) = l[k]
  nul : mem (s + l.length) = 0
  not_nul : 0 ∉ l

def text (buf : List UInt8) (w : ℕ × ℕ) : List UInt8 := (buf.drop w.1).take (w.2 - w.1)

theorem isString_nulterminate {w : ℕ × ℕ} (hnul : 0 ∉ buf)
    (hat : At buf i ts) (hline : Line ts c) (hmem : w ∈ c.strings) :
    IsString (nulterminate c (deref buf)) w.1 (text buf w) := by
  have hwords : ∀ w ∈ c.strings, ∃ t, WordIn buf t ∧ w = (t.start, t.stop) := by
    intro w hw
    obtain ⟨t, ht, hkind, rfl⟩ := hline.words w hw
    exact ⟨t, wordIn_of_mem (hat.toks_eq ▸ ht) hkind, rfl⟩
  obtain ⟨t, ht, rfl⟩ := hwords w hmem
  have hlen : (text buf (t.start, t.stop)).length = t.stop - t.start := by
    have := ht.stop_le
    have := ht.start_le
    simp only [text, length_take, length_drop]
    omega
  refine ⟨fun k hk => ?_, ?_, fun hz => hnul (mem_of_mem_drop (mem_of_mem_take hz))⟩
  · rw [hlen] at hk
    have hlt : t.start + k < t.stop := by omega
    have hnot : t.start + k ∉ c.strings.map Prod.snd := by
      intro hx
      obtain ⟨w', hw', hsnd⟩ := mem_map.mp hx
      obtain ⟨t', ht', rfl⟩ := hwords w' hw'
      have hstop : t'.stop = t.start + k := hsnd
      have hword := ht.chars _ (Nat.le_add_right ..) hlt
      have hno := ht'.stop (by rw [hstop]; exact Nat.lt_of_lt_of_le hlt ht.stop_le)
      rw [hstop, hword] at hno
      exact Bool.noConfusion hno
    rw [nulterminate_apply, if_neg hnot]
    have hin : t.start + k < buf.length := Nat.lt_of_lt_of_le hlt ht.stop_le
    simp [text, deref, getD, hin]
  · have hend : t.start + (t.stop - t.start) = t.stop := by
      have := ht.start_le
      omega
    rw [hlen, nulterminate_apply]
    dsimp only
    rw [hend, if_pos (mem_map.mpr ⟨_, hmem, rfl⟩)]

theorem scan_eq_length_iff (hat : At buf i ts) : scan isSpace buf i = buf.length ↔ ts = [] := by
  rcases scan_cases buf i with ⟨hdrop, hnil⟩ | ⟨c, cs, hdrop, _, htoks⟩
  · have hle := drop_eq_nil_iff.mp hdrop
    exact iff_of_true (Nat.le_antisymm (scan_le _ hat.le) hle) (hat.toks_eq.symm.trans hnil)
  have hlen := congrArg length hdrop
  rw [length_drop, length_cons] at hlen
  refine iff_of_false (by omega) ?_
  rw [← hat.toks_eq, htoks]
  exact cons_ne_nil _ _

theorem wp_parse_iff {Q : Cmd → ℕ → Prop} :
    wp (parse buf f) Q E i ↔ wp (parseline buf f) (fun c i' =>
      if scan isSpace buf i' ≠ buf.length then E .syntaxError
      else Q c (scan isSpace buf i')) E i := by
  have hend (c : Cmd) (i' : ℕ) : wp (do
      let _ ← peek buf []
      if (← get) ≠ buf.length then throw .syntaxError else return c) Q E i' ↔
      if scan isSpace buf i' ≠ buf.length then E .syntaxError
      else Q c (scan isSpace buf i') := by
    change wp (if scan isSpace buf i' ≠ buf.length then throw .syntaxError else pure c : P Cmd) Q E
      (scan isSpace buf i') ↔ _
    rw [wp_ite]
    exact Iff.rfl
  rw [parse, wp_bind]
  exact ⟨fun h => h.imp fun c i' => (hend c i').mp, fun h => h.imp fun c i' => (hend c i').mpr⟩

theorem wp_parse_start (hnul : 0 ∉ buf) (hf : 4 * (lex 0 buf).length + 4 ≤ f) :
    wp (parse buf f) (fun c _ => Line (lex 0 buf) c) (· ≠ .bound) 0 := by
  rw [wp_parse_iff]
  refine ((wp_parse hnul f).1 0 _ ⟨rfl, Nat.zero_le _⟩ hf).imp ?_
  rintro c i ⟨us, rest, hts, hat, hline⟩
  by_cases hend : scan isSpace buf i = buf.length
  · rw [if_neg (not_not.mpr hend)]
    rw [(scan_eq_length_iff hat).mp hend, append_nil] at hts
    rw [← hts] at hline
    exact hline
  · rw [if_pos hend]
    exact fun h => Err.noConfusion h

theorem parse_of_line (hnul : 0 ∉ buf) (hf : 4 * (lex 0 buf).length + 4 ≤ f)
    (h : Line (lex 0 buf) c) : ∃ i, parse buf f 0 = .ok (c, i) := by
  have hat : At buf 0 (lex 0 buf ++ []) := ⟨(append_nil _).symm, Nat.zero_le _⟩
  have hall : wp (parse buf f) (fun d _ => d = c) (fun _ => False) 0 := by
    rw [wp_parse_iff]
    refine ((parse_complete hnul f).1 0 _ [] c hat h (by decide) hf).imp ?_
    rintro _ i ⟨rfl, hat'⟩
    rw [if_neg (not_not.mpr ((scan_eq_length_iff hat').mpr rfl))]
  obtain ⟨d, i, hrun, rfl⟩ := wp_ok.mp hall
  exact ⟨i, hrun⟩

theorem parsecmd_of_ok {i : ℕ} (h : parse buf f 0 = .ok (c, i)) :
    parsecmd f buf = .ok (c, nulterminate c (deref buf)) := by
  rw [parsecmd, h]

/-- **The parser accepts its grammar.** For a string without zeros, and a bound that is high enough,
`parsecmd` returns a tree or one of the messages of the source; a tree is returned if and only if
the tokens of the string are derivable, and it is the tree of the derivation. Its words are tokens,
and `nulterminate` makes each of them a string of its own. -/
theorem parser_accepts_grammar (buf : List UInt8) (f : ℕ) (hnul : 0 ∉ buf)
    (hf : 4 * (lex 0 buf).length + 4 ≤ f) : parsecmd f buf ≠ .error .bound ∧
      (∀ c, (∃ mem, parsecmd f buf = .ok (c, mem)) ↔ Line (lex 0 buf) c) ∧
      ∀ c mem, parsecmd f buf = .ok (c, mem) →
        ∀ w ∈ c.strings, WordOf (lex 0 buf) w ∧ IsString mem w.1 (text buf w) := by
  have hwp := wp_parse_start hnul hf
  cases hrun : parse buf f 0 with
  | error e =>
    have hcmd : parsecmd f buf = .error e := by rw [parsecmd, hrun]
    rw [hcmd]
    refine ⟨fun he => hwp.of_error hrun (Except.error.inj he), fun c => ?_, fun c mem h => ?_⟩
    · refine iff_of_false (fun ⟨_, h⟩ => nomatch h) fun h => ?_
      obtain ⟨i, hok⟩ := parse_of_line hnul hf h
      exact nomatch hrun.symm.trans hok
    · exact nomatch h
  | ok r =>
  obtain ⟨c, i⟩ := r
  have hline := hwp.of_ok hrun
  rw [parsecmd_of_ok hrun]
  refine ⟨(fun he => nomatch he), fun d => ⟨?_, fun h => ?_⟩, fun d mem h => ?_⟩
  · rintro ⟨mem, h⟩
    cases h
    exact hline
  · obtain ⟨i', hok⟩ := parse_of_line hnul hf h
    cases hrun.symm.trans hok
    exact ⟨_, rfl⟩
  · cases h
    exact fun w hw => ⟨hline.words w hw, isString_nulterminate hnul ⟨rfl, Nat.zero_le _⟩ hline hw⟩

/-- `(ls>o;a)&` is parsed: it is derivable. -/
theorem parser_accepts_grammar_block : Line (lex 0 [40, 108, 115, 62, 111, 59, 97, 41, 38])
      (.back (.list (.redir (.exec [(1, 3)]) ⟨4, 5, 0x201, 1⟩) (.exec [(6, 7)]))) :=
  ((parser_accepts_grammar [40, 108, 115, 62, 111, 59, 97, 41, 38] 40 (by decide)
    (by decide +kernel)).2.1 _).mp ⟨_, rfl⟩

end Xv6.Sh
