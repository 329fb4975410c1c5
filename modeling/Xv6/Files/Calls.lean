import Mathlib.Data.Fintype.BigOperators
import Xv6.Files.Table
import Xv6.Lib.Run

/-!
# Calls on files

`open`, `dup`, `close`, `pipe`, `fork` and `exit`, each run to completion on every path: the file
table or the descriptor table may be full, and memory may be short. After each call the reference
counts are exact.
-/

namespace Xv6.Files

open Tally Run Function List Finset Option
open Xv6.Names (NFILE NOFILE NPROC NINODE FdType)

instance : NeZero NFILE := ⟨by decide⟩

instance : NeZero NOFILE := ⟨by decide⟩

/-- How the lookup of a path ends: with -1, with an inode that `open` refuses, or with an inode. -/
inductive Lookup where
  | fails
  | refused (inum : ℕ) (e : Fin NINODE)
  | finds (inum : ℕ) (e : Fin NINODE)

/-! ### The calls -/

section Calls

variable (s : State) (p : Fin NPROC)

/-- `open` from `filealloc` on, with a reference to `e`. -/
def openFile (e : Fin NINODE) (readable writable : Bool) : Option State :=
  match filealloc s with
  | none => some (iput s e)
  | some (f, s₁) =>
    match fdalloc s₁ p f with
    | none => (fileclose s₁ f).map fun s₂ => iput s₂ e
    | some (_, s₂) => some (s₂.setFile f
        { s₂.file f with type := .inode, ip := some e, readable := readable, writable := writable })

def sysOpen (l : Lookup) (readable writable : Bool) : Option State :=
  match l with
  | .fails => some s
  | .refused inum e => (iget s inum e).map fun r => iput r.2 r.1
  | .finds inum e => (iget s inum e).bind fun r => openFile r.2 p r.1 readable writable

def sysDup (fd : Fin NOFILE) : Option State :=
  match (s.proc p).ofile fd with
  | none => some s
  | some f =>
    match fdalloc s p f with
    | none => some s
    | some (_, s₁) => filedup s₁ f

def sysClose (fd : Fin NOFILE) : Option State :=
  match (s.proc p).ofile fd with
  | none => some s
  | some f => fileclose (s.setFd p fd none) f

def makePipe (f₀ f₁ : Fin NFILE) : State :=
  let k := s.npipes
  let s := { s with pipe := update s.pipe k ⟨true, true, 0⟩, npipes := k + 1 }
  let s := s.setFile f₀
    { s.file f₀ with type := .pipe, readable := true, writable := false, pipe := k }
  s.setFile f₁ { s.file f₁ with type := .pipe, readable := false, writable := true, pipe := k }

/-- `kalloc` says whether there is a page for the pipe. -/
def pipealloc (kalloc : Bool) : Option (Option (Fin NFILE × Fin NFILE) × State) :=
  match filealloc s with
  | none => some (none, s)
  | some (f₀, s₁) =>
    match filealloc s₁ with
    | none => (fileclose s₁ f₀).map fun s₂ => (none, s₂)
    | some (f₁, s₂) =>
      if kalloc then some (some (f₀, f₁), makePipe s₂ f₀ f₁)
      else (fileclose s₂ f₀).bind fun s₃ => (fileclose s₃ f₁).map fun s₄ => (none, s₄)

/-- `sys_pipe` from `fdalloc` on. -/
def pipeFds (rf wf : Fin NFILE) : Option State :=
  match fdalloc s p rf with
  | none => (fileclose s rf).bind fun s₁ => fileclose s₁ wf
  | some (fd₀, s₁) =>
    match fdalloc s₁ p wf with
    | none => (fileclose (s₁.setFd p fd₀ none) rf).bind fun s₂ => fileclose s₂ wf
    | some (_, s₂) => some s₂

def sysPipe (kalloc : Bool) : Option State :=
  (pipealloc s kalloc).bind fun r =>
    match r.1 with
    | none => some r.2
    | some (rf, wf) => pipeFds r.2 p rf wf

/-- `allocproc` gives the slot its pid. -/
def allocproc (np : Fin NPROC) : State :=
  { s.setProc np { s.proc np with status := .embryo, pid := s.nextpid } with
    nextpid := s.nextpid + 1 }

/-- The loop of `fork`. -/
def copyFds (np : Fin NPROC) : List (Fin NOFILE) → State → Option State
  | [], s => some s
  | fd :: fds, s =>
    match (s.proc p).ofile fd with
    | none => copyFds np fds s
    | some f => (filedup s f).bind fun s₁ => copyFds np fds (s₁.setFd np fd (some f))

/-- The end of `fork`. -/
def finishFork (np : Fin NPROC) : Option State :=
  (s.proc p).cwd.map fun e =>
    (idup s e).setProc np { s.proc np with cwd := some e, status := .live }

/-- `memory` says whether there is memory for the kernel stack and the copy of the process. -/
def fork (memory : Bool) : Option State :=
  match (finRange NPROC).find? fun np => (s.proc np).status = .unused with
  | none => some s
  | some np =>
    let s := allocproc s np
    if memory then (copyFds p np (finRange NOFILE) s).bind fun s => finishFork s p np
    else some (s.setProc np { s.proc np with status := .unused })

/-- The loop of `exit`. -/
def closeFds : List (Fin NOFILE) → State → Option State
  | [], s => some s
  | fd :: fds, s =>
    match (s.proc p).ofile fd with
    | none => closeFds fds s
    | some f => (fileclose s f).bind fun s₁ => closeFds fds (s₁.setFd p fd none)

/-- `exit`, for all but the first process. -/
def exit : Option State :=
  if p.val = 0 then none
  else (closeFds p (finRange NOFILE) s).bind fun s =>
    (s.proc p).cwd.map fun e =>
      (iput s e).setProc p { s.proc p with cwd := none, status := .zombie }

/-- `wait` frees a process that has exited. -/
def wait (q : Fin NPROC) : Option State :=
  if (s.proc q).status = .zombie then
    some (s.setProc q { s.proc q with status := .unused, pid := 0 })
  else none

end Calls

/-- The calls, by process `p`. -/
inductive Call where
  | open (p : Fin NPROC) (l : Lookup) (readable writable : Bool)
  | dup (p : Fin NPROC) (fd : Fin NOFILE)
  | close (p : Fin NPROC) (fd : Fin NOFILE)
  | pipe (p : Fin NPROC) (kalloc : Bool)
  | fork (p : Fin NPROC) (memory : Bool)
  | exit (p : Fin NPROC)
  | wait (p q : Fin NPROC)

def Call.caller : Call → Fin NPROC
  | .open p _ _ _ => p
  | .dup p _ => p
  | .close p _ => p
  | .pipe p _ => p
  | .fork p _ => p
  | .exit p => p
  | .wait p _ => p

def Call.run (s : State) : Call → Option State
  | .open p l readable writable => sysOpen s p l readable writable
  | .dup p fd => sysDup s p fd
  | .close p fd => sysClose s p fd
  | .pipe p kalloc => sysPipe s p kalloc
  | .fork p memory => Files.fork s p memory
  | .exit p => Files.exit s p
  | .wait _ q => Files.wait s q

def step (s : State) (c : Call) : Option State :=
  if (s.proc c.caller).status = .live then c.run s else none

/-- After `userinit`: the first process, in the root directory. -/
def boot : State where
  file := fun _ => ⟨.none, 0, false, false, 0, none⟩
  pipe := fun _ => ⟨false, false, 0⟩
  npipes := 0
  entry := fun e => if e.val = 0 then ⟨1, 1, ⟨false, 0⟩⟩ else ⟨0, 0, ⟨false, 0⟩⟩
  proc := fun p =>
    if p.val = 0 then ⟨.live, 1, fun _ => none, some ⟨0, by decide⟩⟩
    else ⟨.unused, 0, fun _ => none, none⟩
  nextpid := 2

variable {s s' : State} {x : Fin NFILE → ℕ} {y : Fin NINODE → ℕ} {f g : Fin NFILE}
  {e : Fin NINODE} {p q np : Fin NPROC} {fd : Fin NOFILE}

/-! ### `open`, `dup` and `close` -/

theorem status_setFd (s : State) (p q : Fin NPROC) (fd : Fin NOFILE) (o : Option (Fin NFILE)) :
    ((s.setFd p fd o).proc q).status = (s.proc q).status := by
  rcases eq_or_ne q p with rfl | hne
  · simp only [State.setFd, State.setProc, update_self]
  · simp only [State.setFd, State.setProc, update_of_ne hne]

theorem Inv.assign (h : Inv s x (y + one e)) (htype : (s.file f).type = .none)
    (hpos : (s.file f).ref ≠ 0) (readable writable : Bool) : Inv (s.setFile f
      { s.file f with type := .inode, ip := some e, readable := readable, writable := writable })
      x y := by
  refine h.setFile (h.files f) (fun _ _ => rfl) (fun h0 => absurd h0 hpos) (fun _ => nofun)
    (fun e' => ?_) (h.pipes.clear (by rw [htype]; nofun) nofun)
  rw [ipRef_of_type (by rw [htype]; nofun), Pi.add_apply, Nat.zero_add, Nat.add_comm]
  congr 1
  unfold ipRef one
  by_cases he : e' = e
  · rw [if_pos he, if_pos ⟨rfl, congrArg some he.symm⟩]
  · rw [if_neg he, if_neg fun hc => he (some.inj hc.2).symm]

theorem Inv.openFile (h : Inv s x (y + one e)) (hp : (s.proc p).status = .live)
    {readable writable : Bool} (hs : openFile s p e readable writable = some s') : Inv s' x y := by
  unfold Files.openFile at hs
  split at hs
  case h_1 =>
    cases hs
    exact h.iput
  case h_2 f s₁ hf =>
  obtain ⟨h₁, h0, hs₁⟩ := h.filealloc hf
  dsimp only at h₁ h0 hs₁
  have hp₁ : (s₁.proc p).status = .live := by
    rw [hs₁]
    exact hp
  split at hs
  case h_1 =>
    obtain ⟨s₂, hclose, h₂, -, -⟩ := h₁.fileclose
    rw [hclose] at hs
    cases hs
    exact h₂.iput
  case h_2 fd s₂ hfd =>
  obtain ⟨h₂, hs₂, -⟩ := h₁.fdalloc hp₁ hfd
  dsimp only at h₂ hs₂
  have hfile : s₂.file f = { s.file f with ref := 1 } := by
    rw [hs₂, hs₁]
    exact update_self ..
  cases hs
  refine h₂.assign ?_ ?_ readable writable
  · rw [hfile]
    exact h.closed f h0
  · rw [hfile]
    exact one_ne_zero

theorem status_iget {inum : ℕ} {r : Fin NINODE × State} (hr : iget s inum e = some r)
    (p : Fin NPROC) : (r.2.proc p).status = (s.proc p).status := by
  unfold iget at hr
  split at hr
  · cases hr
    rfl
  split at hr
  · cases hr
    rfl
  · cases hr

theorem Inv.sysOpen (h : Inv s x y) (hp : (s.proc p).status = .live) {l : Lookup}
    {readable writable : Bool} (hs : sysOpen s p l readable writable = some s') : Inv s' x y := by
  cases l with
  | fails =>
    cases hs
    exact h
  | refused inum e₀ =>
    obtain ⟨r, hr, rfl⟩ := map_eq_some_iff.mp hs
    exact (h.iget hr).iput
  | finds inum e₀ =>
    obtain ⟨r, hr, hs⟩ := bind_eq_some_iff.mp hs
    exact (h.iget hr).openFile ((status_iget hr p).trans hp) hs

theorem filedup_setFd (s : State) (p : Fin NPROC) (fd : Fin NOFILE) (o : Option (Fin NFILE))
    (f : Fin NFILE) : filedup (s.setFd p fd o) f = (filedup s f).map (·.setFd p fd o) := by
  unfold filedup
  change (if (s.file f).ref < 1 then _ else _) = _
  split
  · rfl
  · rfl

theorem Inv.sysDup (h : Inv s x y) (hp : (s.proc p).status = .live)
    (hs : sysDup s p fd = some s') : Inv s' x y := by
  unfold Files.sysDup at hs
  split at hs
  case h_1 =>
    cases hs
    exact h
  case h_2 f hf =>
  split at hs
  case h_1 =>
    cases hs
    exact h
  case h_2 fd' s₁ hfd =>
  obtain ⟨fd'', hfind, heq⟩ := map_eq_some_iff.mp hfd
  cases heq
  have hnone : (s.proc p).ofile fd' = none := by simpa using find?_some hfind
  obtain ⟨s₂, hdup, h₂, hs₂⟩ := h.filedup (h.ref_pos hf)
  rw [filedup_setFd, hdup] at hs
  cases hs
  have hproc : s₂.proc = s.proc := by rw [hs₂]; rfl
  refine h₂.setFd (.inl (by rw [hproc]; exact hp)) fun g => ?_
  rw [hproc, hnone, ofileRef_none, ofileRef_eq, Pi.add_apply]
  omega

theorem Inv.sysClose (h : Inv s x y) (hp : (s.proc p).status = .live)
    (hs : sysClose s p fd = some s') : Inv s' x y := by
  unfold Files.sysClose at hs
  split at hs
  case h_1 =>
    cases hs
    exact h
  case h_2 f hf =>
  obtain ⟨s₁, hclose, h₁, -, -⟩ := (h.clearFd hp hf).fileclose
  rw [hclose] at hs
  cases hs
  exact h₁

/-! ### `pipe` -/

section MakePipe

variable {f₀ f₁ : Fin NFILE}

theorem file_makePipe_write (s : State) (f₀ f₁ : Fin NFILE) (hne : f₁ ≠ f₀) :
    (makePipe s f₀ f₁).file f₁ =
      { s.file f₁ with type := .pipe, readable := false, writable := true, pipe := s.npipes } := by
  simp only [makePipe, State.setFile, update_self, update_of_ne hne]

theorem file_makePipe_read (s : State) (f₀ f₁ : Fin NFILE) (hne : f₁ ≠ f₀) :
    (makePipe s f₀ f₁).file f₀ =
      { s.file f₀ with type := .pipe, readable := true, writable := false, pipe := s.npipes } := by
  simp only [makePipe, State.setFile, update_self, update_of_ne hne.symm]

theorem file_makePipe_of_ne (s : State) (h₀ : g ≠ f₀) (h₁ : g ≠ f₁) :
    (makePipe s f₀ f₁).file g = s.file g := by
  simp only [makePipe, State.setFile, update_of_ne h₀, update_of_ne h₁]

theorem PipesOk.makePipe (h : PipesOk s) (hne : f₁ ≠ f₀) (ht₀ : (s.file f₀).type = .none)
    (ht₁ : (s.file f₁).type = .none) : PipesOk (makePipe s f₀ f₁) := by
  have hw := file_makePipe_write s f₀ f₁ hne
  have hr := file_makePipe_read s f₀ f₁ hne
  have hpself : (Files.makePipe s f₀ f₁).pipe s.npipes = ⟨true, true, 0⟩ :=
    update_self ..
  have hpne : ∀ k, k ≠ s.npipes → (Files.makePipe s f₀ f₁).pipe k = s.pipe k :=
    fun k hk => update_of_ne hk ..
  have hnp : (Files.makePipe s f₀ f₁).npipes = s.npipes + 1 := rfl
  -- a file with a type is one of the two, or has it from before
  have hcases : ∀ g, ((Files.makePipe s f₀ f₁).file g).type = .pipe →
      g = f₁ ∨ g = f₀ ∨ (g ≠ f₀ ∧ g ≠ f₁ ∧ (s.file g).type = .pipe ∧
        (Files.makePipe s f₀ f₁).file g = s.file g) := by
    intro g hg
    rcases eq_or_ne g f₁ with hg₁ | hg₁
    · exact .inl hg₁
    rcases eq_or_ne g f₀ with hg₀ | hg₀
    · exact .inr (.inl hg₀)
    have heq := file_makePipe_of_ne s hg₀ hg₁
    exact .inr (.inr ⟨hg₀, hg₁, heq ▸ hg, heq⟩)
  refine ⟨fun g hg => ?_, fun g g' hg hg' hk hb => ?_, fun k hk b hb => ?_, fun k hk => ?_⟩
  · rcases hcases g hg with rfl | rfl | ⟨-, -, hold, heq⟩
    · rw [hw, hnp, hpself]
      exact ⟨Nat.lt_succ_self _, rfl⟩
    · rw [hr, hnp, hpself]
      exact ⟨Nat.lt_succ_self _, rfl⟩
    · obtain ⟨hlt, hopen⟩ := h.ends g hold
      rw [heq, hnp, hpne _ (Nat.ne_of_lt hlt)]
      exact ⟨Nat.lt_succ_of_lt hlt, hopen⟩
  · have hold_ne : ∀ g, (s.file g).type = .pipe → (s.file g).pipe ≠ s.npipes :=
      fun g hg => Nat.ne_of_lt (h.ends g hg).1
    rcases hcases g hg with rfl | rfl | ⟨-, -, hold, heq⟩ <;>
      rcases hcases g' hg' with rfl | rfl | ⟨-, -, hold', heq'⟩
    · rfl
    · rw [hw, hr] at hb
      cases hb
    · rw [hw, heq'] at hk
      exact absurd hk.symm (hold_ne g' hold')
    · rw [hw, hr] at hb
      cases hb
    · rfl
    · rw [hr, heq'] at hk
      exact absurd hk.symm (hold_ne g' hold')
    · rw [hw, heq] at hk
      exact absurd hk (hold_ne g hold)
    · rw [hr, heq] at hk
      exact absurd hk (hold_ne g hold)
    · rw [heq, heq'] at hk hb
      exact h.inj g g' hold hold' hk hb
  · rcases Nat.lt_succ_iff_lt_or_eq.mp hk with hk | rfl
    · rw [hpne k (Nat.ne_of_lt hk)] at hb
      obtain ⟨g, hg, hgk, hgb⟩ := h.openEnds k hk b hb
      have h₀ : g ≠ f₀ := by
        rintro rfl
        exact nomatch ht₀.symm.trans hg
      have h₁ : g ≠ f₁ := by
        rintro rfl
        exact nomatch ht₁.symm.trans hg
      refine ⟨g, ?_⟩
      rw [file_makePipe_of_ne s h₀ h₁]
      exact ⟨hg, hgk, hgb⟩
    · cases b with
      | true => exact ⟨f₁, by rw [hw]; exact ⟨rfl, rfl, rfl⟩⟩
      | false => exact ⟨f₀, by rw [hr]; exact ⟨rfl, rfl, rfl⟩⟩
  · rcases Nat.lt_succ_iff_lt_or_eq.mp hk with hk | rfl
    · rw [hpne k (Nat.ne_of_lt hk)]
      exact h.frees k hk
    · rw [hpself]
      rfl

theorem Inv.makePipe (h : Inv s x y) (hne : f₁ ≠ f₀) (ht₀ : (s.file f₀).type = .none)
    (ht₁ : (s.file f₁).type = .none) (hr₀ : (s.file f₀).ref ≠ 0) (hr₁ : (s.file f₁).ref ≠ 0) :
    Inv (makePipe s f₀ f₁) x y := by
  have hw := file_makePipe_write s f₀ f₁ hne
  have hr := file_makePipe_read s f₀ f₁ hne
  have href : ∀ g, ((Files.makePipe s f₀ f₁).file g).ref = (s.file g).ref := by
    intro g
    rcases eq_or_ne g f₁ with rfl | hg₁
    · rw [hw]
    rcases eq_or_ne g f₀ with rfl | hg₀
    · rw [hr]
    rw [file_makePipe_of_ne s hg₀ hg₁]
  have hinode : ∀ g, ((Files.makePipe s f₀ f₁).file g).type = .inode →
      (Files.makePipe s f₀ f₁).file g = s.file g := by
    intro g hg
    rcases eq_or_ne g f₁ with rfl | hg₁
    · rw [hw] at hg
      cases hg
    rcases eq_or_ne g f₀ with rfl | hg₀
    · rw [hr] at hg
      cases hg
    exact file_makePipe_of_ne s hg₀ hg₁
  have hip : ∀ e g, ipRef e ((Files.makePipe s f₀ f₁).file g) = ipRef e (s.file g) := by
    intro e g
    by_cases hg : ((Files.makePipe s f₀ f₁).file g).type = .inode
    · rw [hinode g hg]
    rw [ipRef_of_type hg]
    rcases eq_or_ne g f₁ with rfl | hg₁
    · rw [ipRef_of_type (by rw [ht₁]; nofun)]
    rcases eq_or_ne g f₀ with rfl | hg₀
    · rw [ipRef_of_type (by rw [ht₀]; nofun)]
    rw [file_makePipe_of_ne s hg₀ hg₁] at hg
    rw [ipRef_of_type hg]
  have huses : ∀ e, uses (Files.makePipe s f₀ f₁) e = uses s e := by
    intro e
    have hproc : (Files.makePipe s f₀ f₁).proc = s.proc := rfl
    have hfile : tally univ (ipRef e) (Files.makePipe s f₀ f₁).file =
        tally univ (ipRef e) s.file := tally_congr fun g _ => hip e g
    unfold uses
    rw [hproc, hfile]
  refine ⟨fun g => ?_, fun g hg => ?_, fun e => ?_, fun g hg => ?_, h.unique, h.dead, h.home,
    h.pipes.makePipe hne ht₀ ht₁⟩
  · rw [href g]
    exact h.files g
  · have hg' := href g ▸ hg
    have hg₁ : g ≠ f₁ := by
      rintro rfl
      exact hr₁ hg'
    have hg₀ : g ≠ f₀ := by
      rintro rfl
      exact hr₀ hg'
    rw [file_makePipe_of_ne s hg₀ hg₁]
    exact h.closed g hg'
  · rw [huses]
    exact h.inodes e
  · have heq := hinode g hg
    rw [heq] at hg ⊢
    exact h.named g hg

end MakePipe

theorem Inv.fileclose_two (h : Inv s (x + one g + one f) y)
    (hs : ((Files.fileclose s f).bind fun s₁ => Files.fileclose s₁ g) = some s') :
    Inv s' x y ∧ s'.proc = s.proc := by
  obtain ⟨s₁, hclose₁, h₁, hd₁, -⟩ := h.fileclose
  obtain ⟨s₂, hclose₂, h₂, hd₂, -⟩ := h₁.fileclose
  rw [hclose₁, bind_some, hclose₂] at hs
  cases hs
  exact ⟨h₂, hd₂.proc.trans hd₁.proc⟩

theorem Inv.pipealloc (h : Inv s x y) {kalloc : Bool} {r : Option (Fin NFILE × Fin NFILE) × State}
    (hr : pipealloc s kalloc = some r) :
    r.2.proc = s.proc ∧ match r.1 with
      | none => Inv r.2 x y
      | some (rf, wf) => Inv r.2 (x + one wf + one rf) y := by
  unfold Files.pipealloc at hr
  split at hr
  case h_1 =>
    cases hr
    exact ⟨rfl, h⟩
  case h_2 f₀ s₁ hf₀ =>
  obtain ⟨h₁, h0₀, hs₁⟩ := h.filealloc hf₀
  dsimp only at h₁ h0₀ hs₁
  split at hr
  case h_1 =>
    obtain ⟨s₂, hclose, h₂, hdrops, -⟩ := h₁.fileclose
    rw [hclose] at hr
    cases hr
    refine ⟨?_, h₂⟩
    rw [hdrops.proc, hs₁]
    rfl
  case h_2 f₁ s₂ hf₁ =>
  obtain ⟨h₂, h0₁, hs₂⟩ := h₁.filealloc hf₁
  dsimp only at h₂ h0₁ hs₂
  have hself : s₁.file f₀ = { s.file f₀ with ref := 1 } := by
    rw [hs₁]
    exact update_self ..
  have hne : f₁ ≠ f₀ := by
    rintro rfl
    rw [hself] at h0₁
    cases h0₁
  have hfile₀ : s₂.file f₀ = { s.file f₀ with ref := 1 } := by
    rw [hs₂]
    exact (update_of_ne hne.symm ..).trans hself
  have hbefore : s₁.file f₁ = s.file f₁ := by
    rw [hs₁]
    exact update_of_ne hne ..
  have hfile₁ : s₂.file f₁ = { s.file f₁ with ref := 1 } := by
    rw [hs₂, ← hbefore]
    exact update_self ..
  have hproc : s₂.proc = s.proc := by
    rw [hs₂, hs₁]
    rfl
  rw [show x + one f₀ + one f₁ = x + one f₁ + one f₀ from add_right_comm x _ _] at h₂
  split at hr
  case isTrue =>
    cases hr
    refine ⟨hproc, h₂.makePipe hne ?_ ?_ ?_ ?_⟩
    · rw [hfile₀]
      exact h.closed f₀ h0₀
    · rw [hfile₁]
      exact h.closed f₁ (hbefore ▸ h0₁)
    · rw [hfile₀]
      exact one_ne_zero
    · rw [hfile₁]
      exact one_ne_zero
  case isFalse =>
    obtain ⟨s₃, hclose, rfl⟩ := map_eq_some_iff.mp (map_bind.trans hr)
    obtain ⟨h₃, hproc₃⟩ := h₂.fileclose_two hclose
    exact ⟨hproc₃.trans hproc, h₃⟩

theorem Inv.pipeFds (h : Inv s (x + one g + one f) y) (hp : (s.proc p).status = .live)
    (hs : pipeFds s p f g = some s') : Inv s' x y := by
  unfold Files.pipeFds at hs
  split at hs
  case h_1 =>
    exact (h.fileclose_two hs).1
  case h_2 fd₀ s₁ hfd₀ =>
  obtain ⟨h₁, hs₁, hnone⟩ := h.fdalloc hp hfd₀
  dsimp only at h₁ hs₁ hnone
  have hp₁ : (s₁.proc p).status = .live := by
    rw [hs₁, status_setFd]
    exact hp
  split at hs
  case h_1 =>
    have hfd : (s₁.proc p).ofile fd₀ = some f := by
      rw [hs₁]
      simp only [State.setFd, State.setProc, update_self]
    exact ((h₁.clearFd hp₁ hfd).fileclose_two hs).1
  case h_2 fd₁ s₂ hfd₁ =>
    obtain ⟨h₂, -, -⟩ := h₁.fdalloc hp₁ hfd₁
    cases hs
    exact h₂

theorem Inv.sysPipe (h : Inv s x y) (hp : (s.proc p).status = .live) {kalloc : Bool}
    (hs : sysPipe s p kalloc = some s') : Inv s' x y := by
  obtain ⟨⟨r, s₁⟩, hr, hs⟩ := bind_eq_some_iff.mp hs
  obtain ⟨hproc, hcase⟩ := h.pipealloc hr
  cases r with
  | none =>
    cases hs
    exact hcase
  | some fg => exact Inv.pipeFds hcase (by rw [hproc]; exact hp) hs

/-! ### `fork` -/

theorem Inv.nextpid (h : Inv s x y) (n : ℕ) : Inv { s with nextpid := n } x y :=
  ⟨h.files, h.closed, h.inodes, h.named, h.unique, h.dead, h.home,
    ⟨h.pipes.ends, h.pipes.inj, h.pipes.openEnds, h.pipes.frees⟩⟩

theorem Inv.allocproc (h : Inv s x y) (np : Fin NPROC) : Inv (allocproc s np) x y := by
  have hset : Inv (s.setProc np { s.proc np with status := .embryo, pid := s.nextpid }) x y :=
    h.setProc rfl (fun _ => rfl) (fun hc => absurd hc (by simp)) nofun
  exact hset.nextpid _

theorem proc_allocproc_self (s : State) (np : Fin NPROC) :
    (allocproc s np).proc np = { s.proc np with status := .embryo, pid := s.nextpid } :=
  update_self ..

theorem proc_allocproc_of_ne (s : State) (h : q ≠ np) : (allocproc s np).proc q = s.proc q :=
  update_of_ne h ..

theorem proc_setFd_of_ne (s : State) {fd : Fin NOFILE} {o : Option (Fin NFILE)} (h : q ≠ p) :
    (s.setFd p fd o).proc q = s.proc q := update_of_ne h ..

theorem proc_setFd_self (s : State) (p : Fin NPROC) (fd : Fin NOFILE) (o : Option (Fin NFILE)) :
    (s.setFd p fd o).proc p = { s.proc p with ofile := update (s.proc p).ofile fd o } :=
  update_self ..

theorem Inv.copyFds (hne : p ≠ np) : ∀ {fds : List (Fin NOFILE)} {s : State}, fds.Nodup →
    Inv s x y → (s.proc np).status = .embryo → (∀ fd ∈ fds, (s.proc np).ofile fd = none) →
    copyFds p np fds s = some s' → Inv s' x y ∧ (s'.proc np).status = .embryo ∧
      (s'.proc np).cwd = (s.proc np).cwd ∧ s'.proc p = s.proc p := by
  intro fds
  induction fds with
  | nil =>
    intro s _ h hnp _ hs
    cases hs
    exact ⟨h, hnp, rfl, rfl⟩
  | cons fd fds ih =>
  intro s hnodup h hnp hnone hs
  obtain ⟨hfd, hnodup⟩ := nodup_cons.mp hnodup
  rw [Files.copyFds] at hs
  split at hs
  case h_1 => exact ih hnodup h hnp (fun fd' hm => hnone fd' (mem_cons_of_mem fd hm)) hs
  case h_2 f hf =>
  obtain ⟨s₁, hdup, h₁, hs₁⟩ := h.filedup (h.ref_pos hf)
  rw [hdup, bind_some] at hs
  have hproc : s₁.proc = s.proc := by
    rw [hs₁]
    rfl
  have h₂ : Inv (s₁.setFd np fd (some f)) x y := by
    refine h₁.setFd (.inr (by rw [hproc]; exact hnp)) fun g => ?_
    rw [hproc, hnone fd mem_cons_self, ofileRef_none, ofileRef_eq, Pi.add_apply]
    omega
  have hself := proc_setFd_self s₁ np fd (some f)
  obtain ⟨h', hnp', hcwd, hp⟩ := ih hnodup h₂ (by rw [status_setFd, hproc]; exact hnp)
    (fun fd' hm => by
      have hne' : fd' ≠ fd := fun he => hfd (he ▸ hm)
      rw [hself]
      refine (update_of_ne hne' ..).trans ?_
      rw [hproc]
      exact hnone fd' (mem_cons_of_mem fd hm)) hs
  refine ⟨h', hnp', ?_, ?_⟩
  · rw [hcwd, hself, hproc]
  · rw [hp, proc_setFd_of_ne s₁ hne, hproc]

theorem cwdRef_some (e e' : Fin NINODE) (z : Proc) (hz : z.cwd = some e) :
    cwdRef e' z = one e e' := by
  unfold cwdRef one
  rw [hz]
  by_cases h : e' = e
  · rw [if_pos h, if_pos (congrArg some h.symm)]
  · rw [if_neg h, if_neg fun hc => h (some.inj hc).symm]

theorem cwdRef_none (e : Fin NINODE) (z : Proc) (hz : z.cwd = none) : cwdRef e z = 0 := by
  unfold cwdRef
  rw [hz]
  exact if_neg nofun

theorem Inv.cwd_pos (h : Inv s x y) (he : (s.proc p).cwd = some e) : 0 < (s.entry e).ref := by
  have hle := le_tally (g := cwdRef e) (h := s.proc) (mem_univ p)
  rw [cwdRef_some e e _ he, one_self] at hle
  rw [h.inodes e, uses]
  omega

theorem Inv.finishFork (h : Inv s x y) (hcwd : (s.proc np).cwd = none)
    (hs : finishFork s p np = some s') : Inv s' x y := by
  obtain ⟨e, he, rfl⟩ := map_eq_some_iff.mp hs
  refine (h.idup (h.cwd_pos he)).setProc (z := { s.proc np with cwd := some e, status := .live })
    rfl (fun e' => ?_) (fun hc => absurd hc (by simp)) fun _ => nofun
  have hproc : (Files.idup s e).proc = s.proc := rfl
  rw [hproc, cwdRef_none e' _ hcwd, cwdRef_some e e' _ rfl, Pi.add_apply]
  omega

theorem Inv.fork (h : Inv s x y) (hp : (s.proc p).status = .live) {memory : Bool}
    (hs : fork s p memory = some s') : Inv s' x y := by
  unfold Files.fork at hs
  split at hs
  case h_1 =>
    cases hs
    exact h
  case h_2 np hfind =>
  have hnp : (s.proc np).status = .unused := by simpa using find?_some hfind
  have hne : p ≠ np := by
    rintro rfl
    exact nomatch hp.symm.trans hnp
  obtain ⟨hnone, hcwd⟩ := h.dead np (.inl hnp)
  have h₁ := h.allocproc np
  have hself := proc_allocproc_self s np
  dsimp only at hs
  split at hs
  case isTrue =>
    obtain ⟨s₁, hcopy, hs⟩ := bind_eq_some_iff.mp hs
    obtain ⟨h₂, -, hcwd₂, -⟩ := Inv.copyFds hne (nodup_finRange NOFILE) h₁
      (by rw [hself]) (fun fd _ => by rw [hself]; exact hnone fd) hcopy
    refine h₂.finishFork ?_ hs
    rw [hcwd₂, hself]
    exact hcwd
  case isFalse =>
    cases hs
    refine h₁.setProc rfl (fun _ => rfl) (fun _ => ?_) nofun
    rw [hself]
    exact ⟨hnone, hcwd⟩

/-! ### `exit` and `wait` -/

theorem closeLast_setFd (s : State) (p : Fin NPROC) (fd : Fin NOFILE) (o : Option (Fin NFILE))
    (ff : File) : closeLast (s.setFd p fd o) ff = (closeLast s ff).map (·.setFd p fd o) := by
  unfold closeLast
  cases ff.type with
  | none => rfl
  | pipe => rfl
  | inode => cases ff.ip <;> rfl

theorem fileclose_setFd (s : State) (p : Fin NPROC) (fd : Fin NOFILE) (o : Option (Fin NFILE))
    (f : Fin NFILE) : fileclose (s.setFd p fd o) f = (fileclose s f).map (·.setFd p fd o) := by
  unfold fileclose
  change (if (s.file f).ref < 1 then _ else _) = _
  split
  · rfl
  change (if 0 < (s.file f).ref - 1 then _ else
    closeLast ((s.setFile f _).setFd p fd o) (s.file f)) = _
  split
  · rfl
  · exact closeLast_setFd _ p fd o _

theorem Inv.closeFds_cons {fds : List (Fin NOFILE)} (h : Inv s x y)
    (hp : (s.proc p).status = .live) (hf : (s.proc p).ofile fd = some f)
    (hs : closeFds p (fd :: fds) s = some s') :
    ∃ s₁, closeFds p fds s₁ = some s' ∧ Inv s₁ x y ∧ Drops (s.setFd p fd none) s₁ := by
  rw [Files.closeFds, hf] at hs
  obtain ⟨s₁, hclose, h₁, hdrops, -⟩ := (h.clearFd hp hf).fileclose
  rw [fileclose_setFd] at hclose
  obtain ⟨s₂, hclose₂, heq⟩ := map_eq_some_iff.mp hclose
  dsimp only at hs
  rw [hclose₂, bind_some, heq] at hs
  exact ⟨s₁, hs, h₁, hdrops⟩

theorem Inv.closeFds : ∀ {fds : List (Fin NOFILE)} {s : State}, Inv s x y →
    (s.proc p).status = .live → closeFds p fds s = some s' →
    Inv s' x y ∧ (∀ fd ∈ fds, (s'.proc p).ofile fd = none) ∧
      (∀ fd f, (s'.proc p).ofile fd = some f → (s.proc p).ofile fd = some f) ∧
      (s'.proc p).status = .live ∧ (s'.proc p).pid = (s.proc p).pid ∧
      (s'.proc p).cwd = (s.proc p).cwd ∧ (∀ q, q ≠ p → s'.proc q = s.proc q) := by
  intro fds
  induction fds with
  | nil =>
    intro s h hp hs
    cases hs
    exact ⟨h, nofun, fun _ _ hf => hf, hp, rfl, rfl, fun _ _ => rfl⟩
  | cons fd fds ih =>
  intro s h hp hs
  cases hf : (s.proc p).ofile fd with
  | none =>
    rw [Files.closeFds, hf] at hs
    obtain ⟨h', hclosed, hsub, hrest⟩ := ih h hp hs
    refine ⟨h', fun fd' hm => ?_, hsub, hrest⟩
    rcases mem_cons.mp hm with rfl | hm
    · cases ho : (s'.proc p).ofile fd' with
      | none => rfl
      | some f => exact nomatch hf.symm.trans (hsub fd' f ho)
    · exact hclosed fd' hm
  | some f =>
  obtain ⟨s₁, hs₁, h₁, hdrops⟩ := h.closeFds_cons hp hf hs
  have hproc : s₁.proc p = { s.proc p with ofile := update (s.proc p).ofile fd none } := by
    rw [hdrops.proc]
    exact proc_setFd_self ..
  obtain ⟨h', hclosed, hsub, hlive, hpid, hcwd, hother⟩ :=
    ih h₁ (by rw [hproc]; exact hp) hs₁
  have hsub' : ∀ fd' g, (s'.proc p).ofile fd' = some g →
      fd' ≠ fd ∧ (s.proc p).ofile fd' = some g := by
    intro fd' g hg
    have hg₁ := hsub fd' g hg
    rw [hproc] at hg₁
    rcases eq_or_ne fd' fd with rfl | hne
    · simp only [update_self] at hg₁
      cases hg₁
    · simp only [update_of_ne hne] at hg₁
      exact ⟨hne, hg₁⟩
  refine ⟨h', fun fd' hm => ?_, fun fd' g hg => (hsub' fd' g hg).2, hlive, ?_, ?_, fun q hq => ?_⟩
  · rcases mem_cons.mp hm with rfl | hm
    · cases ho : (s'.proc p).ofile fd' with
      | none => rfl
      | some g => exact absurd rfl (hsub' fd' g ho).1
    · exact hclosed fd' hm
  · rw [hpid, hproc]
  · rw [hcwd, hproc]
  · rw [hother q hq, hdrops.proc]
    exact proc_setFd_of_ne s hq

theorem Inv.exit (h : Inv s x y) (hp : (s.proc p).status = .live) (hs : exit s p = some s') :
    Inv s' x y := by
  unfold Files.exit at hs
  split at hs
  case isTrue => cases hs
  case isFalse =>
  obtain ⟨s₁, hclose, hs⟩ := bind_eq_some_iff.mp hs
  obtain ⟨h₁, hnone, -⟩ := Inv.closeFds h hp hclose
  obtain ⟨e, he, rfl⟩ := map_eq_some_iff.mp hs
  have h₂ : Inv (s₁.setProc p { s₁.proc p with cwd := none, status := .zombie }) x (y + one e) := by
    refine h₁.setProc rfl (fun e' => ?_) (fun _ => ⟨fun fd => hnone fd (mem_finRange fd),
      rfl⟩) nofun
    rw [cwdRef_some e e' _ he, cwdRef_none e' _ rfl, Pi.add_apply]
    omega
  exact h₂.iput

theorem Inv.wait (h : Inv s x y) (hs : wait s q = some s') : Inv s' x y := by
  unfold Files.wait at hs
  split at hs
  case isFalse => cases hs
  case isTrue hz =>
    cases hs
    exact h.setProc rfl (fun _ => rfl) (fun _ => h.dead q (.inr hz)) nofun

/-! ### All calls -/

theorem Inv.step {c : Call} (h : Inv s 0 0) (hs : step s c = some s') : Inv s' 0 0 := by
  unfold Files.step at hs
  split at hs
  case isFalse => cases hs
  case isTrue hp =>
  cases c with
  | «open» p l r w => exact h.sysOpen hp hs
  | dup p fd => exact h.sysDup hp hs
  | close p fd => exact h.sysClose hp hs
  | pipe p kalloc => exact h.sysPipe hp hs
  | fork p memory => exact h.fork hp hs
  | exit p => exact h.exit hp hs
  | wait p q => exact h.wait hs

theorem descs_eq_card (s : State) (f : Fin NFILE) :
    descs s f = (univ.filter fun a : Fin NPROC × Fin NOFILE =>
      (s.proc a.1).ofile a.2 = some f).card := by
  rw [card_filter, Fintype.sum_prod_type]
  rfl

theorem descs_ne_zero (h : descs s f ≠ 0) : ∃ p fd, (s.proc p).ofile fd = some f := by
  unfold descs tally at h
  obtain ⟨p, -, hp⟩ := exists_ne_zero_of_sum_ne_zero h
  unfold fdRef tally at hp
  obtain ⟨fd, -, hfd⟩ := exists_ne_zero_of_sum_ne_zero hp
  exact ⟨p, fd, by_contra fun hne => hfd (if_neg hne)⟩

theorem inv_boot : Inv boot 0 0 := by
  have hfd : ∀ p fd, (boot.proc p).ofile fd = none := by
    intro p fd
    unfold boot
    dsimp only
    split <;> rfl
  refine ⟨fun f => ?_, fun f _ => rfl, by decide +kernel, fun f => nofun, by decide +kernel,
    fun p hp => ⟨hfd p, ?_⟩, by decide +kernel, ⟨fun f => nofun, fun f g => nofun, ?_, ?_⟩⟩
  · have hz : descs boot f = 0 := by
      by_contra hne
      obtain ⟨p, fd, hf⟩ := descs_ne_zero hne
      exact nomatch (hfd p fd).symm.trans hf
    rw [hz]
    rfl
  · revert p
    decide +kernel
  · exact fun k hk => absurd hk (Nat.not_lt_zero k)
  · exact fun k hk => absurd hk (Nat.not_lt_zero k)

theorem Inv.reachable (h : Run.Reachable Files.step (fun _ _ => True) (· = boot) s) : Inv s 0 0 :=
  h.invariant (fun _ hs => hs ▸ inv_boot) fun _ _ _ hinv _ hs => hinv.step hs

/-- Whether some descriptor is an end of pipe `k`. -/
def PipeInUse (s : State) (k : ℕ) : Prop :=
  ∃ p fd f, (s.proc p).ofile fd = some f ∧ (s.file f).type = .pipe ∧ (s.file f).pipe = k

instance (s : State) (k : ℕ) : Decidable (PipeInUse s k) := by
  unfold PipeInUse
  infer_instance

theorem Inv.pipeInUse_iff (h : Inv s 0 0) {k : ℕ} (hk : k < s.npipes) :
    PipeInUse s k ↔ (s.pipe k).readopen = true ∨ (s.pipe k).writeopen = true := by
  constructor
  · rintro ⟨p, fd, f, -, htype, rfl⟩
    have hopen := (h.pipes.ends f htype).2
    cases hw : (s.file f).writable with
    | false =>
      rw [hw] at hopen
      exact .inl hopen
    | true =>
      rw [hw] at hopen
      exact .inr hopen
  intro hopen
  have hend : ∃ b, (s.pipe k).isOpen b = true := by
    rcases hopen with hopen | hopen
    · exact ⟨false, hopen⟩
    · exact ⟨true, hopen⟩
  obtain ⟨b, hb⟩ := hend
  obtain ⟨f, htype, hpipe, -⟩ := h.pipes.openEnds k hk b hb
  have hne : (s.file f).ref ≠ 0 := fun h0 => nomatch (h.closed f h0).symm.trans htype
  rw [h.files f, Pi.zero_apply, Nat.add_zero] at hne
  obtain ⟨p, fd, hfd⟩ := descs_ne_zero hne
  exact ⟨p, fd, f, hfd, htype, hpipe⟩

/-- **Reference counts of open files are exact.** After every sequence of complete calls, on every
path, the count of an entry is the number of descriptors that point to it, an entry without
references has no type, a slot without a process has no descriptors, and a pipe has been freed
once if no descriptor is one of its ends, and not at all otherwise. -/
theorem file_refs_exact (h : Run.Reachable step (fun _ _ => True) (· = boot) s) :
    (∀ f, (s.file f).ref = (univ.filter fun a : Fin NPROC × Fin NOFILE =>
      (s.proc a.1).ofile a.2 = some f).card) ∧ (∀ f, (s.file f).ref = 0 → (s.file f).type = .none) ∧
    (∀ p, (s.proc p).status = .unused → ∀ fd, (s.proc p).ofile fd = none) ∧
    ∀ k < s.npipes, (s.pipe k).frees = if PipeInUse s k then 0 else 1 := by
  have hinv := Inv.reachable h
  refine ⟨fun f => ?_, hinv.closed, fun p hp => (hinv.dead p (.inl hp)).1, fun k hk => ?_⟩
  · rw [hinv.files f, Pi.zero_apply, Nat.add_zero]
    exact descs_eq_card s f
  · rw [hinv.pipes.frees k hk]
    exact if_congr (hinv.pipeInUse_iff hk).symm rfl rfl

/-- A pipe that a child inherited and the parent has closed is still there. -/
theorem file_refs_exact_inherited : ∃ s, s.npipes = 1 ∧ (s.file 0).ref = 1 ∧
      ∀ k < s.npipes, (s.pipe k).frees = if PipeInUse s k then 0 else 1 := by
  have hstart : Run.Reachable step (fun _ _ => True) (· = boot) boot := .start rfl
  obtain ⟨s, hs, hq⟩ := hstart.exists_of_exec [.pipe 0 true, .fork 0 true, .close 0 0, .close 0 1]
    (fun s : State => s.npipes = 1 ∧ (s.file 0).ref = 1) (by decide +kernel)
  have hq := of_decide_eq_true hq
  exact ⟨s, hq.1, hq.2, (file_refs_exact hs).2.2.2⟩

end Xv6.Files
