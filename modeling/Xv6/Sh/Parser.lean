import Xv6.Lib.Hoare

/-!
# The parser of the shell

`sh.c` from `gettoken` to `nulterminate`. The parser reads a string through a pointer that all its
routines move on; tokens are found in the string again and again and never stored. Commands hold
pointers to the first character of a word and to the one behind it, and the string is cut up only
after it was parsed, by writing a zero behind every word.

Pointers are positions in the string. The redirections around a simple command are collected, and
put around the node when its arguments are known; the source makes the node first and fills it in.
The first argument of the parsing routines bounds the depth of calls and the rounds of loops.
-/

namespace Xv6.Sh

open Hoare List

/-! ### Tokens -/

/-- `whitespace` -/
def isSpace (c : UInt8) : Bool := c = 32 ∨ c = 9 ∨ c = 13 ∨ c = 10 ∨ c = 11

/-- `symbols` -/
def isSymbol (c : UInt8) : Bool :=
  c = 60 ∨ c = 124 ∨ c = 62 ∨ c = 38 ∨ c = 59 ∨ c = 40 ∨ c = 41

def isWord (c : UInt8) : Bool := !isSpace c && !isSymbol c

/-- What `gettoken` returns. -/
inductive Tok where
  | none
  | bar
  | lparen
  | rparen
  | semi
  | amp
  | lt
  | gt
  /-- `'+'`, for `>>`. -/
  | append
  /-- `'a'` -/
  | word
  deriving DecidableEq

def Tok.char : Tok → UInt8
  | .bar => 124
  | .lparen => 40
  | .rparen => 41
  | .semi => 59
  | .amp => 38
  | .lt => 60
  | .gt => 62
  | .append => 62
  | .none => 0
  | .word => 0

structure Token where
  kind : Tok
  start : ℕ
  stop : ℕ

inductive Err where
  | bound
  /-- `panic("syntax")`, also after `leftovers`. -/
  | syntaxError
  /-- `panic("missing file for redirection")` -/
  | missingFile
  /-- `panic("parseblock")` -/
  | parseblock
  /-- `panic("syntax - missing )")` -/
  | missingParen
  /-- `panic("too many args")` -/
  | tooManyArgs
  deriving DecidableEq

abbrev P : Type → Type := StateT ℕ (Except Err)

/-- `while(s < es && p(*s)) s++;` -/
def scan (p : UInt8 → Bool) (buf : List UInt8) (s : ℕ) : ℕ :=
  s + ((buf.drop s).takeWhile p).length

section Lexer

variable (buf : List UInt8)

/-- `*s` -/
def deref (s : ℕ) : UInt8 := buf.getD s 0

/-- The token at `s`, where there is no white space, and the end of it. -/
def tokenAt (s : ℕ) : Tok × ℕ :=
  if deref buf s = 0 then (.none, s)
  else if deref buf s = 124 then (.bar, s + 1)
  else if deref buf s = 40 then (.lparen, s + 1)
  else if deref buf s = 41 then (.rparen, s + 1)
  else if deref buf s = 59 then (.semi, s + 1)
  else if deref buf s = 38 then (.amp, s + 1)
  else if deref buf s = 60 then (.lt, s + 1)
  else if deref buf s = 62 then
    if deref buf (s + 1) = 62 then (.append, s + 2) else (.gt, s + 1)
  else (.word, scan isWord buf s)

/-- The next token, with `*q` and `*eq`. -/
def gettoken : P Token := do
  let s := scan isSpace buf (← get)
  let r := tokenAt buf s
  set (scan isSpace buf r.2)
  return ⟨r.1, s, r.2⟩

def peek (toks : List UInt8) : P Bool := do
  let s := scan isSpace buf (← get)
  set s
  return deref buf s ≠ 0 ∧ deref buf s ∈ toks

end Lexer

/-! ### Commands -/

/-- `file`, `efile`, `mode` and `fd` of a `struct redircmd`. -/
structure Redir where
  file : ℕ
  efile : ℕ
  mode : ℕ
  fd : ℕ

/-- `struct cmd` -/
inductive Cmd where
  /-- `argv` and `eargv`. -/
  | exec (argv : List (ℕ × ℕ))
  | redir (cmd : Cmd) (r : Redir)
  | pipe (left right : Cmd)
  | list (left right : Cmd)
  | back (cmd : Cmd)

def MAXARGS : ℕ := 20

/-- `mode` and `fd` for a redirection: `O_RDONLY` or `O_WRONLY|O_CREATE`. -/
def redirMode : Tok → Option (ℕ × ℕ)
  | .lt => some (0, 0)
  | .gt => some (0x201, 1)
  | .append => some (0x201, 1)
  | _ => none

/-- The redirections around a command, the last one outermost. -/
def wrap (c : Cmd) (rs : List Redir) : Cmd := rs.foldl Cmd.redir c

/-- `n` times `backcmd`. -/
def backs (c : Cmd) : ℕ → Cmd
  | 0 => c
  | n + 1 => backs (.back c) n

section Parser

variable (buf : List UInt8)

/-- The loop of `parseredirs`, with the redirections so far. -/
def parseredirs : ℕ → List Redir → P (List Redir)
  | 0, _ => throw .bound
  | f + 1, rs => do
    if ← peek buf [60, 62] then do
      let tok ← gettoken buf
      let w ← gettoken buf
      if w.kind ≠ .word then throw .missingFile
      else
        match redirMode tok.kind with
        | some (mode, fd) => parseredirs f (rs ++ [⟨w.start, w.stop, mode, fd⟩])
        | none => parseredirs f rs
    else return rs

/-- The loop of `parseexec`, with the arguments and redirections so far. -/
def parseargs : ℕ → List (ℕ × ℕ) → List Redir → P Cmd
  | 0, _, _ => throw .bound
  | f + 1, argv, rs => do
    if ← peek buf [124, 41, 38, 59] then return wrap (.exec argv) rs
    else do
      let tok ← gettoken buf
      if tok.kind = .none then return wrap (.exec argv) rs
      else if tok.kind ≠ .word then throw .syntaxError
      else if argv.length + 1 ≥ MAXARGS then throw .tooManyArgs
      else do
        let rs ← parseredirs buf f rs
        parseargs f (argv ++ [(tok.start, tok.stop)]) rs

/-- The loop of `parseline`. -/
def parsebacks : ℕ → Cmd → P Cmd
  | 0, _ => throw .bound
  | f + 1, c => do
    if ← peek buf [38] then do
      let _ ← gettoken buf
      parsebacks f (.back c)
    else return c

mutual

def parseline : ℕ → P Cmd
  | 0 => throw .bound
  | f + 1 => do
    let c ← parsepipe f
    let c ← parsebacks buf f c
    if ← peek buf [59] then do
      let _ ← gettoken buf
      let d ← parseline f
      return .list c d
    else return c

def parsepipe : ℕ → P Cmd
  | 0 => throw .bound
  | f + 1 => do
    let c ← parseexec f
    if ← peek buf [124] then do
      let _ ← gettoken buf
      let d ← parsepipe f
      return .pipe c d
    else return c

def parseblock : ℕ → P Cmd
  | 0 => throw .bound
  | f + 1 => do
    if ← peek buf [40] then do
      let _ ← gettoken buf
      let c ← parseline f
      if ← peek buf [41] then do
        let _ ← gettoken buf
        let rs ← parseredirs buf f []
        return wrap c rs
      else throw .missingParen
    else throw .parseblock

def parseexec : ℕ → P Cmd
  | 0 => throw .bound
  | f + 1 => do
    if ← peek buf [40] then parseblock f
    else do
      let rs ← parseredirs buf f []
      parseargs buf f [] rs

end

/-- The tree for the whole string; `nulterminate` comes after it. -/
def parse (f : ℕ) : P Cmd := do
  let c ← parseline buf f
  let _ ← peek buf []
  if (← get) ≠ buf.length then throw .syntaxError else return c

end Parser

/-! ### Cutting the string up -/

def nulterminate : Cmd → (ℕ → UInt8) → ℕ → UInt8
  | .exec argv, mem => argv.foldl (fun mem a => Function.update mem a.2 0) mem
  | .redir c r, mem => Function.update (nulterminate c mem) r.efile 0
  | .pipe c d, mem => nulterminate d (nulterminate c mem)
  | .list c d, mem => nulterminate d (nulterminate c mem)
  | .back c, mem => nulterminate c mem

def parsecmd (f : ℕ) (buf : List UInt8) : Except Err (Cmd × (ℕ → UInt8)) :=
  match parse buf f 0 with
  | .ok (c, _) => .ok (c, nulterminate c (deref buf))
  | .error e => .error e

/-! ### The tokens of a string -/

def symbolKind (c : UInt8) : Tok :=
  if c = 124 then .bar
  else if c = 40 then .lparen
  else if c = 41 then .rparen
  else if c = 59 then .semi
  else if c = 38 then .amp
  else if c = 60 then .lt
  else .gt

/-- The first token of a string that begins at position `s`, not with white space. -/
def firstToken (s : ℕ) (c : UInt8) (cs : List UInt8) : Token :=
  if c = 62 ∧ cs.head? = some 62 then ⟨.append, s, s + 2⟩
  else if isSymbol c then ⟨symbolKind c, s, s + 1⟩
  else ⟨.word, s, s + ((c :: cs).takeWhile isWord).length⟩

theorem lt_stop_firstToken (s : ℕ) (c : UInt8) (cs : List UInt8) (hc : isSpace c = false) :
    s < (firstToken s c cs).stop := by
  unfold firstToken
  split
  · exact Nat.lt_add_of_pos_right (by decide)
  split
  · exact Nat.lt_succ_self s
  next hsym =>
  have hword : isWord c = true := by simp [isWord, hc, hsym]
  simp [hword]

/-- The tokens of a string that begins at position `s`: white space is dropped, words are as long as
can be, and symbols are single, but for `>>`. -/
def lex (s : ℕ) : List UInt8 → List Token
  | [] => []
  | c :: cs =>
    if h : isSpace c = true then lex (s + 1) cs
    else firstToken s c cs :: lex (firstToken s c cs).stop
      ((c :: cs).drop ((firstToken s c cs).stop - s))
termination_by l => l.length
decreasing_by
  · exact Nat.lt_succ_self _
  · have hlt := lt_stop_firstToken s c cs (Bool.eq_false_iff.mpr h)
    simp only [length_drop, length_cons]
    omega

/-- The tokens from position `s` on. -/
def toks (buf : List UInt8) (s : ℕ) : List Token := lex s (buf.drop s)

def hd (ts : List Token) : Tok := (ts.head?.map Token.kind).getD .none

variable {buf : List UInt8} {i s : ℕ} {E : Err → Prop}

theorem drop_length_takeWhile (p : UInt8 → Bool) (l : List UInt8) :
    l.drop (l.takeWhile p).length = l.dropWhile p := by
  induction l with
  | nil => rfl
  | cons c cs ih =>
  by_cases hc : p c = true
  · rw [takeWhile_cons_of_pos hc, dropWhile_cons_of_pos hc, length_cons, drop_succ_cons, ih]
  · rw [takeWhile_cons_of_neg hc, dropWhile_cons_of_neg hc]
    rfl

theorem drop_scan (p : UInt8 → Bool) (buf : List UInt8) (s : ℕ) :
    buf.drop (scan p buf s) = (buf.drop s).dropWhile p := by
  rw [scan, ← drop_drop, drop_length_takeWhile]

theorem lex_dropWhile (l : List UInt8) (s : ℕ) :
    lex (s + (l.takeWhile isSpace).length) (l.dropWhile isSpace) = lex s l := by
  induction l generalizing s with
  | nil => rfl
  | cons c cs ih =>
  by_cases hc : isSpace c = true
  · rw [takeWhile_cons_of_pos hc, dropWhile_cons_of_pos hc, length_cons,
      Nat.add_comm _ 1, ← Nat.add_assoc, ih (s + 1)]
    conv_rhs => rw [lex, dif_pos hc]
  · rw [takeWhile_cons_of_neg hc, dropWhile_cons_of_neg hc]
    rfl

theorem toks_scan (buf : List UInt8) (s : ℕ) : toks buf (scan isSpace buf s) = toks buf s := by
  unfold toks
  rw [drop_scan]
  exact lex_dropWhile _ _

theorem scan_cases (buf : List UInt8) (s : ℕ) :
    (buf.drop (scan isSpace buf s) = [] ∧ toks buf s = []) ∨
      ∃ c cs, buf.drop (scan isSpace buf s) = c :: cs ∧ isSpace c = false ∧
        toks buf s = firstToken (scan isSpace buf s) c cs ::
          toks buf (firstToken (scan isSpace buf s) c cs).stop := by
  obtain ⟨q, hq⟩ : ∃ q, q = scan isSpace buf s := ⟨_, rfl⟩
  have hsame := toks_scan buf s
  rw [← hq] at hsame ⊢
  cases hl : buf.drop q with
  | nil =>
    refine .inl ⟨rfl, ?_⟩
    rw [← hsame, toks, hl, lex]
  | cons c cs =>
  have hc : isSpace c = false := by
    have hdw : (buf.drop s).dropWhile isSpace = c :: cs := by rw [← drop_scan, ← hq, hl]
    have hne := head_dropWhile_not isSpace (l := buf.drop s) (by rw [hdw]; simp)
    simpa [hdw] using hne
  refine .inr ⟨c, cs, rfl, hc, ?_⟩
  have hlt := lt_stop_firstToken q c cs hc
  have hnext : (c :: cs).drop ((firstToken q c cs).stop - q) =
      buf.drop (firstToken q c cs).stop := by
    rw [← hl, drop_drop]
    congr 1
    omega
  rw [← hsame, toks, hl, lex, dif_neg (by simp [hc]), hnext]
  rfl

variable {q : ℕ} {c : UInt8} {cs : List UInt8}

theorem deref_eq (h : buf.drop q = c :: cs) : deref buf q = c := by
  have := congrArg head? h
  simp only [head?_drop, head?_cons] at this
  simp [deref, getD, this]

theorem deref_succ (h : buf.drop q = c :: cs) : deref buf (q + 1) = cs.head?.getD 0 := by
  have hcs : buf.drop (q + 1) = cs := by rw [← drop_drop, h]; rfl
  have := congrArg head? hcs
  simp only [head?_drop] at this
  simp [deref, getD, this]

theorem deref_nil (h : buf.drop q = []) : deref buf q = 0 := by
  have := congrArg head? h
  simp only [head?_drop, head?_nil] at this
  simp [deref, getD, this]

theorem tokenAt_eq (h : buf.drop q = c :: cs) (h₀ : c ≠ 0) :
    tokenAt buf q = ((firstToken q c cs).kind, (firstToken q c cs).stop) := by
  unfold tokenAt
  rw [deref_eq h, deref_succ h, if_neg h₀]
  by_cases h₁ : c = 124
  · subst h₁
    rfl
  by_cases h₂ : c = 40
  · subst h₂
    rfl
  by_cases h₃ : c = 41
  · subst h₃
    rfl
  by_cases h₄ : c = 59
  · subst h₄
    rfl
  by_cases h₅ : c = 38
  · subst h₅
    rfl
  by_cases h₆ : c = 60
  · subst h₆
    rfl
  rw [if_neg h₁, if_neg h₂, if_neg h₃, if_neg h₄, if_neg h₅, if_neg h₆]
  by_cases h₇ : c = 62
  · subst h₇
    rw [if_pos rfl, firstToken]
    cases cs with
    | nil => rfl
    | cons d ds =>
    by_cases hd : d = 62
    · subst hd
      rfl
    · have hne : ¬ ((62 : UInt8) = 62 ∧ (d :: ds).head? = some 62) := by simpa using hd
      rw [if_neg hne, if_neg (by simpa using hd)]
      rfl
  · have hsym : isSymbol c = false := by
      simp [isSymbol, h₁, h₂, h₃, h₄, h₅, h₆, h₇]
    rw [if_neg h₇, firstToken, if_neg fun hc => h₇ hc.1, if_neg (by simp [hsym]), scan, h]

theorem start_firstToken (q : ℕ) (c : UInt8) (cs : List UInt8) : (firstToken q c cs).start = q := by
  unfold firstToken
  split
  · rfl
  · split <;> rfl

theorem kind_firstToken_ne (q : ℕ) (c : UInt8) (cs : List UInt8) :
    (firstToken q c cs).kind ≠ .none := by
  unfold firstToken symbolKind
  split
  · exact fun h => Tok.noConfusion h
  split
  · dsimp only
    repeat' split
    all_goals exact fun h => Tok.noConfusion h
  · exact fun h => Tok.noConfusion h

theorem scan_le (p : UInt8 → Bool) (h : s ≤ buf.length) : scan p buf s ≤ buf.length := by
  have hle := (takeWhile_sublist p (l := buf.drop s)).length_le
  rw [length_drop] at hle
  unfold scan
  omega

theorem stop_firstToken_le (h : buf.drop q = c :: cs) : (firstToken q c cs).stop ≤ buf.length := by
  have hlen := congrArg length h
  rw [length_drop, length_cons] at hlen
  have hle := (takeWhile_sublist isWord (l := c :: cs)).length_le
  rw [length_cons] at hle
  unfold firstToken
  split
  · next htwo =>
    cases cs with
    | nil => simp at htwo
    | cons d ds =>
    rw [length_cons] at hlen
    dsimp only
    omega
  · split
    · dsimp only
      omega
    · dsimp only
      omega

/-- The pointer is in the string, and these are the tokens from it on. -/
structure At (buf : List UInt8) (i : ℕ) (ts : List Token) : Prop where
  toks_eq : toks buf i = ts
  le : i ≤ buf.length

variable {α : Type} {k : Token → P α} {Q : α → ℕ → Prop} {set : List UInt8} {ts : List Token}

theorem wp_gettoken {t : Token} (hnul : 0 ∉ buf) (hat : At buf i (t :: ts))
    (h : ∀ i', At buf i' ts → t.kind ≠ .none → wp (k t) Q E i') :
    wp (gettoken buf >>= k) Q E i := by
  rw [wp_bind]
  change wp (k ⟨(tokenAt buf (scan isSpace buf i)).1, scan isSpace buf i,
    (tokenAt buf (scan isSpace buf i)).2⟩) Q E
    (scan isSpace buf (tokenAt buf (scan isSpace buf i)).2)
  rcases scan_cases buf i with ⟨_, hnil⟩ | ⟨c, cs, hdrop, _, htoks⟩
  · exact absurd (hat.toks_eq.symm.trans hnil) (cons_ne_nil _ _)
  have hmem : c ∈ buf := mem_of_mem_drop (hdrop ▸ mem_cons_self)
  obtain ⟨rfl, rfl⟩ := cons.inj (hat.toks_eq.symm.trans htoks)
  rw [tokenAt_eq hdrop fun h₀ => hnul (h₀ ▸ hmem)]
  have htoken : (⟨(firstToken (scan isSpace buf i) c cs).kind, scan isSpace buf i,
      (firstToken (scan isSpace buf i) c cs).stop⟩ : Token) =
      firstToken (scan isSpace buf i) c cs := by
    rw [Token.mk.injEq]
    exact ⟨rfl, (start_firstToken ..).symm, rfl⟩
  rw [htoken]
  exact h _ ⟨toks_scan .., scan_le _ (stop_firstToken_le hdrop)⟩ (kind_firstToken_ne _ c cs)

theorem wp_gettoken_nil (hat : At buf i [])
    (h : ∀ t i', t.kind = .none → At buf i' [] → wp (k t) Q E i') :
    wp (gettoken buf >>= k) Q E i := by
  rw [wp_bind]
  change wp (k ⟨(tokenAt buf (scan isSpace buf i)).1, scan isSpace buf i,
    (tokenAt buf (scan isSpace buf i)).2⟩) Q E
    (scan isSpace buf (tokenAt buf (scan isSpace buf i)).2)
  rcases scan_cases buf i with ⟨hdrop, hnil⟩ | ⟨c, cs, _, _, htoks⟩
  · have htoken : tokenAt buf (scan isSpace buf i) = (.none, scan isSpace buf i) :=
      if_pos (deref_nil hdrop)
    rw [htoken]
    refine h _ _ rfl ⟨?_, scan_le _ (scan_le _ hat.le)⟩
    rw [toks_scan, toks_scan, hnil]
  · exact absurd (htoks.symm.trans hat.toks_eq) (cons_ne_nil _ _)

/-- The kinds of tokens that begin with one of the characters. -/
def kinds (set : List UInt8) : List Tok :=
  [.bar, .lparen, .rparen, .semi, .amp, .lt, .gt, .append].filter fun k => k.char ∈ set

theorem mem_kinds {k : Tok} :
    k ∈ kinds set ↔ k ∈ [Tok.bar, .lparen, .rparen, .semi, .amp, .lt, .gt, .append] ∧
      k.char ∈ set := by
  rw [kinds, mem_filter]
  exact and_congr_right fun _ => decide_eq_true_iff

theorem kind_firstToken_mem (q : ℕ) (c : UInt8) (cs : List UInt8)
    (hset : set.all isSymbol = true) : (firstToken q c cs).kind ∈ kinds set ↔ c ∈ set := by
  unfold firstToken
  split
  · next htwo => simp [mem_kinds, Tok.char, htwo.1]
  split
  · next hsym =>
    simp only [isSymbol, decide_eq_true_eq] at hsym
    rcases hsym with rfl | rfl | rfl | rfl | rfl | rfl | rfl <;>
      simp [mem_kinds, symbolKind, Tok.char]
  next hsym =>
  have hc : c ∉ set := fun hc => hsym (all_eq_true.mp hset c hc)
  simp [mem_kinds, hc]

theorem wp_peek {p q : P α} (hnul : 0 ∉ buf) (hset : set.all isSymbol = true) (hat : At buf i ts)
    (hpos : ∀ i', At buf i' ts → hd ts ∈ kinds set → wp p Q E i')
    (hneg : ∀ i', At buf i' ts → hd ts ∉ kinds set → wp q Q E i') :
    wp (do if ← peek buf set then p else q) Q E i := by
  have hat' : At buf (scan isSpace buf i) ts :=
    ⟨(toks_scan buf i).trans hat.toks_eq, scan_le _ hat.le⟩
  have hiff : (deref buf (scan isSpace buf i) ≠ 0 ∧ deref buf (scan isSpace buf i) ∈ set) ↔
      hd ts ∈ kinds set := by
    rcases scan_cases buf i with ⟨hdrop, hnil⟩ | ⟨c, cs, hdrop, hc, htoks⟩
    · rw [← hat.toks_eq, hnil, deref_nil hdrop]
      simp [hd, kinds]
    have hmem : c ∈ buf := mem_of_mem_drop (hdrop ▸ mem_cons_self)
    have h₀ : c ≠ 0 := fun h₀ => hnul (h₀ ▸ hmem)
    rw [← hat.toks_eq, htoks, deref_eq hdrop, and_iff_right h₀]
    exact (kind_firstToken_mem _ c cs hset).symm
  rw [wp_bind]
  change wp (if decide (deref buf (scan isSpace buf i) ≠ 0 ∧
    deref buf (scan isSpace buf i) ∈ set) = true then p else q) Q E (scan isSpace buf i)
  by_cases hk : hd ts ∈ kinds set
  · rw [if_pos (decide_eq_true (hiff.mpr hk))]
    exact hpos _ hat' hk
  · rw [if_neg fun h => hk (hiff.mp (of_decide_eq_true h))]
    exact hneg _ hat' hk

theorem wp_accept {q : P α} (hnul : 0 ∉ buf) (hset : set.all isSymbol = true) (hat : At buf i ts)
    (hpos : ∀ t ts' i', ts = t :: ts' → t.kind ∈ kinds set → At buf i' ts' → wp (k t) Q E i')
    (hneg : ∀ i', At buf i' ts → wp q Q E i') :
    wp (do if ← peek buf set then gettoken buf >>= k else q) Q E i := by
  refine wp_peek hnul hset hat (fun i₁ hat₁ hk => ?_) fun i₁ hat₁ _ => hneg i₁ hat₁
  cases ts with
  | nil =>
    have hnone : Tok.none ∉ kinds set := fun h => absurd (mem_kinds.mp h).1 (by decide)
    exact absurd hk hnone
  | cons t ts => exact wp_gettoken hnul hat₁ fun i₂ hat₂ _ => hpos t ts i₂ rfl hk hat₂

end Xv6.Sh
