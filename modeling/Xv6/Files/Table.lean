import Mathlib.Algebra.Group.Pi.Basic
import Xv6.Lib.Footprint
import Xv6.Names.Icache

/-!
# The file table

Open files: descriptors of processes point to entries of the file table, and these to entries of
the inode cache or to pipes. This is `file.c`, the parts of `pipe.c`, `sysfile.c` and `proc.c` that
take and drop references, and the reference counts of the inode cache.

An entry that has been given back keeps its old fields but for `ref` and `type`, so that the entry
of a pipe may still point to an inode. A pipe is a number here, which stands for its page from
`pipealloc` to `kfree`. Looking up a path takes and drops references to the directories on the way;
what remains is a reference to the inode that it leads to, in the entry that it is already cached in
or in any free entry.

While a call runs it holds references that no descriptor accounts for. The invariant `Inv s x y`
says that every count is exact if the call holds `x` references to files and `y` to inodes.
-/

namespace Xv6.Files

open Tally Function Finset
open Xv6.Names (NFILE NOFILE NPROC NINODE FdType)

/-! ### The tables -/

structure Pipe where
  readopen : Bool
  writeopen : Bool
  frees : ℕ

def Pipe.isOpen (x : Pipe) (writable : Bool) : Bool := if writable then x.writeopen else x.readopen

/-- `struct sleeplock` -/
structure Sleeplock where
  locked : Bool
  pid : ℕ
  deriving DecidableEq

structure Entry where
  inum : ℕ
  ref : ℕ
  flock : Sleeplock

/-- `struct file` -/
structure File where
  type : FdType
  ref : ℕ
  readable : Bool
  writable : Bool
  pipe : ℕ
  ip : Option (Fin NINODE)

inductive Status where
  | unused
  | embryo
  | live
  | zombie
  deriving DecidableEq

/-- What a `struct proc` has to do with files. Fewer than `2 ^ 31` pids are given out. -/
structure Proc where
  status : Status
  pid : ℕ
  ofile : Fin NOFILE → Option (Fin NFILE)
  cwd : Option (Fin NINODE)

structure State where
  file : Fin NFILE → File
  pipe : ℕ → Pipe
  npipes : ℕ
  entry : Fin NINODE → Entry
  proc : Fin NPROC → Proc
  nextpid : ℕ

namespace State

variable (s : State)

def setFile (f : Fin NFILE) (x : File) : State := { s with file := update s.file f x }

def setPipe (k : ℕ) (x : Pipe) : State := { s with pipe := update s.pipe k x }

def setEntry (e : Fin NINODE) (x : Entry) : State :=
  { s with entry := update s.entry e x }

def setProc (p : Fin NPROC) (x : Proc) : State := { s with proc := update s.proc p x }

/-- `p->ofile[fd] = o` -/
def setFd (p : Fin NPROC) (fd : Fin NOFILE) (o : Option (Fin NFILE)) : State :=
  s.setProc p { s.proc p with ofile := update (s.proc p).ofile fd o }

end State

/-! ### The functions

`none` is a panic. -/

section Functions

variable (s : State)

def filealloc : Option (Fin NFILE × State) :=
  ((List.finRange NFILE).find? fun f => (s.file f).ref = 0).map fun f =>
    (f, s.setFile f { s.file f with ref := 1 })

/-- Increment ref count for file `f`. -/
def filedup (f : Fin NFILE) : Option State :=
  if (s.file f).ref < 1 then none
  else some (s.setFile f { s.file f with ref := (s.file f).ref + 1 })

/-- One end of a pipe is closed, and with the second the page is freed. -/
def Pipe.close (x : Pipe) (writable : Bool) : Pipe :=
  let x := if writable then { x with writeopen := false } else { x with readopen := false }
  if x.readopen = false ∧ x.writeopen = false then { x with frees := x.frees + 1 } else x

def pipeclose (k : ℕ) (writable : Bool) : State := s.setPipe k ((s.pipe k).close writable)

/-- Find the inode, or recycle the free entry `e`. -/
def iget (inum : ℕ) (e : Fin NINODE) : Option (Fin NINODE × State) :=
  match (List.finRange NINODE).find? fun e => 0 < (s.entry e).ref ∧ (s.entry e).inum = inum with
  | some e => some (e, s.setEntry e { s.entry e with ref := (s.entry e).ref + 1 })
  | none =>
    if (s.entry e).ref = 0 then some (e, s.setEntry e { s.entry e with inum := inum, ref := 1 })
    else none

def idup (e : Fin NINODE) : State := s.setEntry e { s.entry e with ref := (s.entry e).ref + 1 }

def iput (e : Fin NINODE) : State := s.setEntry e { s.entry e with ref := (s.entry e).ref - 1 }

def closeLast (ff : File) : Option State :=
  match ff.type with
  | .none => some s
  | .pipe => some (pipeclose s ff.pipe ff.writable)
  | .inode => ff.ip.map (iput s)

/-- Close file `f`. -/
def fileclose (f : Fin NFILE) : Option State :=
  if (s.file f).ref < 1 then none
  else if 0 < (s.file f).ref - 1 then
    some (s.setFile f { s.file f with ref := (s.file f).ref - 1 })
  else closeLast (s.setFile f { s.file f with ref := 0, type := .none }) (s.file f)

def fdalloc (p : Fin NPROC) (f : Fin NFILE) : Option (Fin NOFILE × State) :=
  ((List.finRange NOFILE).find? fun fd => (s.proc p).ofile fd = none).map fun fd =>
    (fd, s.setFd p fd (some f))

end Functions

/-! ### Counting -/

def ofileRef (f : Fin NFILE) (o : Option (Fin NFILE)) : ℕ := if o = some f then 1 else 0

/-- How many descriptors of a process point to `f`. -/
def fdRef (f : Fin NFILE) (x : Proc) : ℕ := tally univ (ofileRef f) x.ofile

/-- How many descriptors point to `f`. -/
def descs (s : State) (f : Fin NFILE) : ℕ := tally univ (fdRef f) s.proc

def ipRef (e : Fin NINODE) (x : File) : ℕ := if x.type = .inode ∧ x.ip = some e then 1 else 0

def cwdRef (e : Fin NINODE) (x : Proc) : ℕ := if x.cwd = some e then 1 else 0

/-- How many files and current directories are the inode in entry `e`. -/
def uses (s : State) (e : Fin NINODE) : ℕ :=
  tally univ (ipRef e) s.file + tally univ (cwdRef e) s.proc

def one {ι : Type} [DecidableEq ι] (a : ι) : ι → ℕ := fun b => if b = a then 1 else 0

structure PipesOk (s : State) : Prop where
  ends : ∀ f, (s.file f).type = .pipe →
    (s.file f).pipe < s.npipes ∧ (s.pipe (s.file f).pipe).isOpen (s.file f).writable = true
  inj : ∀ f g, (s.file f).type = .pipe → (s.file g).type = .pipe →
    (s.file f).pipe = (s.file g).pipe → (s.file f).writable = (s.file g).writable → f = g
  openEnds : ∀ k < s.npipes, ∀ b, (s.pipe k).isOpen b = true →
    ∃ f, (s.file f).type = .pipe ∧ (s.file f).pipe = k ∧ (s.file f).writable = b
  frees : ∀ k < s.npipes,
    (s.pipe k).frees = if (s.pipe k).readopen = true ∨ (s.pipe k).writeopen = true then 0 else 1

/-- **The invariant.** The counts are exact, but for the references `x` and `y` that the running
call holds. -/
structure Inv (s : State) (x : Fin NFILE → ℕ) (y : Fin NINODE → ℕ) : Prop where
  files : ∀ f, (s.file f).ref = descs s f + x f
  closed : ∀ f, (s.file f).ref = 0 → (s.file f).type = .none
  inodes : ∀ e, (s.entry e).ref = uses s e + y e
  named : ∀ f, (s.file f).type = .inode → (s.file f).ip ≠ none
  unique : ∀ e e', 0 < (s.entry e).ref → 0 < (s.entry e').ref →
    (s.entry e).inum = (s.entry e').inum → e = e'
  dead : ∀ p, (s.proc p).status = .unused ∨ (s.proc p).status = .zombie →
    (∀ fd, (s.proc p).ofile fd = none) ∧ (s.proc p).cwd = none
  home : ∀ p, (s.proc p).status = .live → (s.proc p).cwd ≠ none
  pipes : PipesOk s

variable {s s' : State} {x x' : Fin NFILE → ℕ} {y y' : Fin NINODE → ℕ} {f g : Fin NFILE}
  {e : Fin NINODE} {p : Fin NPROC} {fd : Fin NOFILE} {o : Option (Fin NFILE)}

@[simp] theorem one_self {ι : Type} [DecidableEq ι] (a : ι) : one a a = 1 := if_pos rfl

theorem one_of_ne {ι : Type} [DecidableEq ι] {a b : ι} (h : b ≠ a) : one a b = 0 := if_neg h

/-! ### Changing one entry -/

theorem uses_setFile (s : State) (f : Fin NFILE) (z : File) (e : Fin NINODE) :
    uses (s.setFile f z) e + ipRef e (s.file f) = uses s e + ipRef e z := by
  have h := tally_update (g := ipRef e) (h := s.file) (mem_univ f) z
  simp only [uses, State.setFile]
  omega

theorem descs_setProc (s : State) (p : Fin NPROC) (z : Proc) (f : Fin NFILE) :
    descs (s.setProc p z) f + fdRef f (s.proc p) = descs s f + fdRef f z :=
  tally_update (g := fdRef f) (h := s.proc) (mem_univ p) z

theorem uses_setProc (s : State) (p : Fin NPROC) (z : Proc) (e : Fin NINODE) :
    uses (s.setProc p z) e + cwdRef e (s.proc p) = uses s e + cwdRef e z := by
  have h := tally_update (g := cwdRef e) (h := s.proc) (mem_univ p) z
  simp only [uses, State.setProc]
  omega

theorem descs_setFd (s : State) (p : Fin NPROC) (fd : Fin NOFILE) (o : Option (Fin NFILE))
    (f : Fin NFILE) :
    descs (s.setFd p fd o) f + ofileRef f ((s.proc p).ofile fd) = descs s f + ofileRef f o := by
  have hproc := descs_setProc s p { s.proc p with ofile := update (s.proc p).ofile fd o } f
  have hfd := tally_update (g := ofileRef f) (h := (s.proc p).ofile) (mem_univ fd) o
  have hz : fdRef f { s.proc p with ofile := update (s.proc p).ofile fd o } =
    tally univ (ofileRef f) (update (s.proc p).ofile fd o) := rfl
  have hp : fdRef f (s.proc p) = tally univ (ofileRef f) (s.proc p).ofile := rfl
  rw [hz, hp] at hproc
  rw [State.setFd]
  omega

theorem uses_setFd (s : State) (p : Fin NPROC) (fd : Fin NOFILE) (o : Option (Fin NFILE))
    (e : Fin NINODE) : uses (s.setFd p fd o) e = uses s e := by
  have h := uses_setProc s p { s.proc p with ofile := update (s.proc p).ofile fd o } e
  have hc : cwdRef e { s.proc p with ofile := update (s.proc p).ofile fd o } =
    cwdRef e (s.proc p) := rfl
  rw [hc] at h
  exact Nat.add_right_cancel h

theorem ofileRef_eq (f g : Fin NFILE) : ofileRef g (some f) = one f g := by
  unfold ofileRef one
  by_cases h : g = f
  · rw [if_pos (congrArg some h.symm), if_pos h]
  · rw [if_neg fun he => h (Option.some.inj he).symm, if_neg h]

theorem ofileRef_none (f : Fin NFILE) : ofileRef f none = 0 := if_neg nofun

theorem ofileRef_le_descs (s : State) (p : Fin NPROC) (fd : Fin NOFILE) (f : Fin NFILE) :
    ofileRef f ((s.proc p).ofile fd) ≤ descs s f :=
  calc ofileRef f ((s.proc p).ofile fd)
      ≤ fdRef f (s.proc p) := le_tally (g := ofileRef f) (mem_univ fd)
    _ ≤ descs s f := le_tally (g := fdRef f) (h := s.proc) (mem_univ p)

theorem Inv.ref_pos (h : Inv s x y) (hfd : (s.proc p).ofile fd = some f) : 0 < (s.file f).ref := by
  have hle := ofileRef_le_descs s p fd f
  rw [hfd, ofileRef_eq, one_self] at hle
  rw [h.files f]
  omega

/-! ### Descriptors -/

theorem Inv.setFd (h : Inv s x y) (hlive : (s.proc p).status = .live ∨ (s.proc p).status = .embryo)
    (hx : ∀ g, ofileRef g ((s.proc p).ofile fd) + x g = ofileRef g o + x' g) :
    Inv (s.setFd p fd o) x' y where
  files g := by
    have hd := descs_setFd s p fd o g
    have hf : (s.file g).ref = descs s g + x g := h.files g
    have hg := hx g
    change (s.file g).ref = _
    omega
  closed := h.closed
  inodes e := by
    rw [uses_setFd]
    exact h.inodes e
  named := h.named
  unique := h.unique
  dead q hq := by
    have hne : q ≠ p := by
      rintro rfl
      simp only [State.setFd, State.setProc, update_self] at hq
      rcases hlive with hl | hl <;> rw [hl] at hq <;> exact absurd hq (by decide)
    simp only [State.setFd, State.setProc, update_of_ne hne] at hq ⊢
    exact h.dead q hq
  home q hq := by
    rcases eq_or_ne q p with rfl | hne
    · simp only [State.setFd, State.setProc, update_self] at hq ⊢
      exact h.home q hq
    · simp only [State.setFd, State.setProc, update_of_ne hne] at hq ⊢
      exact h.home q hq
  pipes := ⟨h.pipes.ends, h.pipes.inj, h.pipes.openEnds, h.pipes.frees⟩

theorem Inv.fdalloc (h : Inv s (x + one f) y) (hp : (s.proc p).status = .live)
    {r : Fin NOFILE × State} (hr : fdalloc s p f = some r) :
    Inv r.2 x y ∧ r.2 = s.setFd p r.1 (some f) ∧ (s.proc p).ofile r.1 = none := by
  obtain ⟨fd, hfd, rfl⟩ := Option.map_eq_some_iff.mp hr
  have hnone : (s.proc p).ofile fd = none := by simpa using List.find?_some hfd
  refine ⟨h.setFd (.inl hp) fun g => ?_, rfl, hnone⟩
  rw [hnone, ofileRef_none, ofileRef_eq, Pi.add_apply]
  omega

theorem Inv.clearFd (h : Inv s x y) (hp : (s.proc p).status = .live)
    (hfd : (s.proc p).ofile fd = some f) : Inv (s.setFd p fd none) (x + one f) y := by
  refine h.setFd (.inl hp) fun g => ?_
  rw [hfd, ofileRef_none, ofileRef_eq, Pi.add_apply]
  omega

/-! ### Inodes -/

theorem Inv.setEntry (h : Inv s x y) {z : Entry} (hz : z.ref = uses s e + y' e)
    (hy : ∀ e', e' ≠ e → y' e' = y e')
    (hu : ∀ e', e' ≠ e → 0 < z.ref → 0 < (s.entry e').ref → z.inum ≠ (s.entry e').inum) :
    Inv (s.setEntry e z) x y' where
  files := h.files
  closed := h.closed
  inodes e' := by
    rcases eq_or_ne e' e with rfl | hne
    · simp only [State.setEntry, update_self]
      exact hz
    · simp only [State.setEntry, update_of_ne hne, hy e' hne]
      exact h.inodes e'
  named := h.named
  unique e₁ e₂ h₁ h₂ heq := by
    rcases eq_or_ne e₁ e with rfl | hne₁
    · rcases eq_or_ne e₂ e₁ with rfl | hne₂
      · rfl
      · simp only [State.setEntry, update_self, update_of_ne hne₂] at h₁ h₂ heq
        exact absurd heq (hu e₂ hne₂ h₁ h₂)
    rcases eq_or_ne e₂ e with rfl | hne₂
    · simp only [State.setEntry, update_self, update_of_ne hne₁] at h₁ h₂ heq
      exact absurd heq.symm (hu e₁ hne₁ h₂ h₁)
    · simp only [State.setEntry, update_of_ne hne₁, update_of_ne hne₂] at h₁ h₂ heq
      exact h.unique e₁ e₂ h₁ h₂ heq
  dead := h.dead
  home := h.home
  pipes := ⟨h.pipes.ends, h.pipes.inj, h.pipes.openEnds, h.pipes.frees⟩

theorem Inv.iput (h : Inv s x (y + one e)) : Inv (iput s e) x y := by
  have hi := h.inodes e
  rw [Pi.add_apply, one_self] at hi
  refine h.setEntry ?_ (fun e' hne => ?_) fun e' hne _ hpos heq => ?_
  · change (s.entry e).ref - 1 = _
    omega
  · rw [Pi.add_apply, one_of_ne hne, Nat.add_zero]
  · exact hne (h.unique e' e hpos (by omega) heq.symm)

theorem Inv.idup (h : Inv s x y) (hpos : 0 < (s.entry e).ref) : Inv (idup s e) x (y + one e) := by
  have hi := h.inodes e
  refine h.setEntry ?_ (fun e' hne => ?_) fun e' hne _ hpos' heq => ?_
  · change (s.entry e).ref + 1 = _
    rw [Pi.add_apply, one_self]
    omega
  · rw [Pi.add_apply, one_of_ne hne, Nat.add_zero]
  · exact hne (h.unique e' e hpos' hpos heq.symm)

theorem Inv.iget (h : Inv s x y) {inum : ℕ} {e₀ : Fin NINODE} {r : Fin NINODE × State}
    (hr : iget s inum e₀ = some r) : Inv r.2 x (y + one r.1) := by
  unfold Files.iget at hr
  split at hr
  case h_1 e₁ hfind =>
    have hpos : 0 < (s.entry e₁).ref ∧ (s.entry e₁).inum = inum := by
      simpa using List.find?_some hfind
    cases hr
    exact h.idup hpos.1
  case h_2 hfind =>
  split at hr
  case isFalse => cases hr
  case isTrue h0 =>
  cases hr
  have hi := h.inodes e₀
  have hnone : ∀ e', 0 < (s.entry e').ref → (s.entry e').inum ≠ inum := by
    intro e' hpos heq
    have := List.find?_eq_none.mp hfind e' (List.mem_finRange e')
    exact this (decide_eq_true ⟨hpos, heq⟩)
  refine h.setEntry ?_ (fun e' hne => ?_) fun e' hne _ hpos => (hnone e' hpos).symm
  · change 1 = _
    rw [Pi.add_apply, one_self]
    omega
  · rw [Pi.add_apply, one_of_ne hne, Nat.add_zero]

/-! ### Files -/

variable {z : File}

theorem Inv.setFile (h : Inv s x y) (hz : z.ref = descs s f + x' f)
    (hx : ∀ g, g ≠ f → x' g = x g) (hclosed : z.ref = 0 → z.type = .none)
    (hnamed : z.type = .inode → z.ip ≠ none) (hy : ∀ e, ipRef e (s.file f) + y e = ipRef e z + y' e)
    (hpipes : PipesOk (s.setFile f z)) : Inv (s.setFile f z) x' y' where
  files g := by
    rcases eq_or_ne g f with rfl | hne
    · simp only [State.setFile, update_self]
      exact hz
    · simp only [State.setFile, update_of_ne hne, hx g hne]
      exact h.files g
  closed g hg := by
    rcases eq_or_ne g f with rfl | hne
    · simp only [State.setFile, update_self] at hg ⊢
      exact hclosed hg
    · simp only [State.setFile, update_of_ne hne] at hg ⊢
      exact h.closed g hg
  inodes e := by
    have hu := uses_setFile s f z e
    have hi := h.inodes e
    have he := hy e
    change (s.entry e).ref = _
    omega
  named g hg := by
    rcases eq_or_ne g f with rfl | hne
    · simp only [State.setFile, update_self] at hg ⊢
      exact hnamed hg
    · simp only [State.setFile, update_of_ne hne] at hg ⊢
      exact h.named g hg
  unique := h.unique
  dead := h.dead
  home := h.home
  pipes := hpipes

theorem PipesOk.setFile (h : PipesOk s) (ht : z.type = (s.file f).type)
    (hp : z.pipe = (s.file f).pipe) (hw : z.writable = (s.file f).writable) :
    PipesOk (s.setFile f z) := by
  have hfile : ∀ g, ((s.setFile f z).file g).type = (s.file g).type ∧
      ((s.setFile f z).file g).pipe = (s.file g).pipe ∧
      ((s.setFile f z).file g).writable = (s.file g).writable := by
    intro g
    rcases eq_or_ne g f with rfl | hne
    · simp only [State.setFile, update_self]
      exact ⟨ht, hp, hw⟩
    · simp only [State.setFile, update_of_ne hne, and_self]
  refine ⟨fun g hg => ?_, fun g g' hg hg' hk hb => ?_, fun k hk b hb => ?_, h.frees⟩
  · rw [(hfile g).1] at hg
    rw [(hfile g).2.1, (hfile g).2.2]
    exact h.ends g hg
  · rw [(hfile g).1] at hg
    rw [(hfile g').1] at hg'
    rw [(hfile g).2.1, (hfile g').2.1] at hk
    rw [(hfile g).2.2, (hfile g').2.2] at hb
    exact h.inj g g' hg hg' hk hb
  · obtain ⟨g, hg, hgk, hgb⟩ := h.openEnds k hk b hb
    exact ⟨g, (hfile g).1.trans hg, (hfile g).2.1.trans hgk, (hfile g).2.2.trans hgb⟩

theorem Inv.setRef (h : Inv s x y) {n : ℕ} (hn : n = descs s f + x' f)
    (hx : ∀ g, g ≠ f → x' g = x g) (h0 : n = 0 → (s.file f).type = .none) :
    Inv (s.setFile f { s.file f with ref := n }) x' y :=
  h.setFile hn hx h0 (h.named f) (fun _ => rfl) (h.pipes.setFile rfl rfl rfl)

theorem Inv.filedup (h : Inv s x y) (hpos : 0 < (s.file f).ref) :
    ∃ s', filedup s f = some s' ∧ Inv s' (x + one f) y ∧
      s' = s.setFile f { s.file f with ref := (s.file f).ref + 1 } := by
  refine ⟨_, if_neg (by omega), h.setRef ?_ (fun g hne => ?_) (fun h0 => nomatch h0), rfl⟩
  · rw [Pi.add_apply, one_self, h.files f]
    omega
  · rw [Pi.add_apply, one_of_ne hne, Nat.add_zero]

theorem Inv.filealloc (h : Inv s x y) {r : Fin NFILE × State} (hr : filealloc s = some r) :
    Inv r.2 (x + one r.1) y ∧ (s.file r.1).ref = 0 ∧
      r.2 = s.setFile r.1 { s.file r.1 with ref := 1 } := by
  obtain ⟨f, hf, rfl⟩ := Option.map_eq_some_iff.mp hr
  have h0 : (s.file f).ref = 0 := by simpa using List.find?_some hf
  have hfiles := h.files f
  refine ⟨h.setRef ?_ (fun g hne => ?_) (fun h1 => nomatch h1), h0, rfl⟩
  · rw [Pi.add_apply, one_self]
    omega
  · rw [Pi.add_apply, one_of_ne hne, Nat.add_zero]

/-! ### Closing -/

theorem isOpen_close (x : Pipe) (b : Bool) : ((x.close b).isOpen b = false) ∧
    ∀ b', b' ≠ b → (x.close b).isOpen b' = x.isOpen b' := by
  obtain ⟨r, w, n⟩ := x
  cases b <;> cases r <;> cases w <;> simp [Pipe.close, Pipe.isOpen]

theorem frees_close {x : Pipe} {b : Bool} (hb : x.isOpen b = true)
    (h : x.frees = if x.readopen = true ∨ x.writeopen = true then 0 else 1) : (x.close b).frees =
      if (x.close b).readopen = true ∨ (x.close b).writeopen = true then 0 else 1 := by
  obtain ⟨r, w, n⟩ := x
  cases b <;> cases r <;> cases w <;> simp_all [Pipe.close, Pipe.isOpen]

theorem PipesOk.close (h : PipesOk s) (hf : (s.file f).type = .pipe) (hz : z.type = .none) :
    PipesOk (pipeclose (s.setFile f z) (s.file f).pipe (s.file f).writable) := by
  obtain ⟨hlt, hopen⟩ := h.ends f hf
  have hself : ((s.setFile f z).file f).type = .none := by
    simp only [State.setFile, update_self, hz]
  have hfile : ∀ g, g ≠ f → (s.setFile f z).file g = s.file g := fun g hne =>
    update_of_ne hne ..
  have hpipe : ∀ k, k ≠ (s.file f).pipe →
      (pipeclose (s.setFile f z) (s.file f).pipe (s.file f).writable).pipe k = s.pipe k :=
    fun k hne => update_of_ne hne ..
  have hpself : (pipeclose (s.setFile f z) (s.file f).pipe (s.file f).writable).pipe
      (s.file f).pipe = (s.pipe (s.file f).pipe).close (s.file f).writable :=
    update_self ..
  have hne : ∀ g, ((s.setFile f z).file g).type = .pipe → g ≠ f := by
    rintro g hg rfl
    exact nomatch hself.symm.trans hg
  refine ⟨fun g hg => ?_, fun g g' hg hg' hk hb => ?_, fun k hk b hb => ?_, fun k hk => ?_⟩
  · have hgf := hne g hg
    change ((s.setFile f z).file g).type = .pipe at hg
    change ((s.setFile f z).file g).pipe < s.npipes ∧ Pipe.isOpen
      ((pipeclose (s.setFile f z) (s.file f).pipe (s.file f).writable).pipe
        ((s.setFile f z).file g).pipe) ((s.setFile f z).file g).writable = true
    rw [hfile g hgf] at hg ⊢
    obtain ⟨hglt, hgopen⟩ := h.ends g hg
    refine ⟨hglt, ?_⟩
    by_cases hk : (s.file g).pipe = (s.file f).pipe
    · have hb : (s.file g).writable ≠ (s.file f).writable := fun hb =>
        hgf (h.inj g f hg hf hk hb)
      rw [hk, hpself, (isOpen_close _ _).2 _ hb, ← hk]
      exact hgopen
    · rw [hpipe _ hk]
      exact hgopen
  · have hgf := hne g hg
    have hgf' := hne g' hg'
    change ((s.setFile f z).file g).type = .pipe at hg
    change ((s.setFile f z).file g').type = .pipe at hg'
    change ((s.setFile f z).file g).pipe = ((s.setFile f z).file g').pipe at hk
    change ((s.setFile f z).file g).writable = ((s.setFile f z).file g').writable at hb
    rw [hfile g hgf] at hg hk hb
    rw [hfile g' hgf'] at hg' hk hb
    exact h.inj g g' hg hg' hk hb
  · have hold : (s.pipe k).isOpen b = true ∧ ¬ (k = (s.file f).pipe ∧ b = (s.file f).writable) := by
      by_cases hkf : k = (s.file f).pipe
      · rw [hkf, hpself] at hb
        have hbw : b ≠ (s.file f).writable := by
          rintro rfl
          exact nomatch (isOpen_close _ _).1.symm.trans hb
        rw [(isOpen_close _ _).2 _ hbw] at hb
        exact ⟨hkf ▸ hb, fun hc => hbw hc.2⟩
      · rw [hpipe k hkf] at hb
        exact ⟨hb, fun hc => hkf hc.1⟩
    obtain ⟨g, hg, hgk, hgb⟩ := h.openEnds k hk b hold.1
    have hgf : g ≠ f := by
      rintro rfl
      exact hold.2 ⟨hgk.symm, hgb.symm⟩
    have heq := hfile g hgf
    exact ⟨g, (congrArg File.type heq).trans hg, (congrArg File.pipe heq).trans hgk,
      (congrArg File.writable heq).trans hgb⟩
  · by_cases hkf : k = (s.file f).pipe
    · rw [hkf, hpself]
      exact frees_close hopen (h.frees _ hlt)
    · rw [hpipe k hkf]
      exact h.frees k hk

theorem PipesOk.clear (h : PipesOk s) (hf : (s.file f).type ≠ .pipe)
    (hz : z.type ≠ .pipe) : PipesOk (s.setFile f z) := by
  have hfile : ∀ g, g ≠ f → (s.setFile f z).file g = s.file g := fun g hne =>
    update_of_ne hne ..
  have hne : ∀ g, ((s.setFile f z).file g).type = .pipe → g ≠ f := by
    rintro g hg rfl
    simp only [State.setFile, update_self] at hg
    exact hz hg
  refine ⟨fun g hg => ?_, fun g g' hg hg' hk hb => ?_, fun k hk b hb => ?_, h.frees⟩
  · have hgf := hne g hg
    rw [hfile g hgf] at hg ⊢
    exact h.ends g hg
  · have hgf := hne g hg
    have hgf' := hne g' hg'
    rw [hfile g hgf] at hg hk hb
    rw [hfile g' hgf'] at hg' hk hb
    exact h.inj g g' hg hg' hk hb
  obtain ⟨g, hg, hgk, hgb⟩ := h.openEnds k hk b hb
  have hgf : g ≠ f := by
    rintro rfl
    exact hf hg
  have heq := hfile g hgf
  exact ⟨g, (congrArg File.type heq).trans hg, (congrArg File.pipe heq).trans hgk,
    (congrArg File.writable heq).trans hgb⟩

theorem ipRef_of_type (h : z.type ≠ .inode) (e : Fin NINODE) : ipRef e z = 0 :=
  if_neg fun hc => h hc.1

structure Drops (s s' : State) : Prop where
  proc : s'.proc = s.proc
  nextpid : s'.nextpid = s.nextpid
  file : ∀ g, (s'.file g).ref ≤ (s.file g).ref ∧ ((s'.file g).ref ≠ 0 →
    (s'.file g).type = (s.file g).type ∧ (s'.file g).ip = (s.file g).ip)
  inum : ∀ e, (s'.entry e).inum = (s.entry e).inum
  flock : ∀ e, (s'.entry e).flock = (s.entry e).flock

theorem Drops.refl (s : State) : Drops s s :=
  ⟨rfl, rfl, fun _ => ⟨Nat.le_refl _, fun _ => ⟨rfl, rfl⟩⟩, fun _ => rfl, fun _ => rfl⟩

theorem Drops.setFile (hz : z.ref ≤ (s.file f).ref)
    (hsame : z.ref ≠ 0 → z.type = (s.file f).type ∧ z.ip = (s.file f).ip) :
    Drops s (s.setFile f z) where
  proc := rfl
  nextpid := rfl
  file g := by
    rcases eq_or_ne g f with rfl | hne
    · simp only [State.setFile, update_self]
      exact ⟨hz, hsame⟩
    · simp only [State.setFile, update_of_ne hne, le_refl, and_self, implies_true]
  inum _ := rfl
  flock _ := rfl

theorem Drops.iput (h : Drops s s') (e : Fin NINODE) : Drops s (iput s' e) where
  proc := h.proc
  nextpid := h.nextpid
  file := h.file
  inum e' := by
    rw [← h.inum e']
    rcases eq_or_ne e' e with rfl | hne
    · simp only [Files.iput, State.setEntry, update_self]
    · simp only [Files.iput, State.setEntry, update_of_ne hne]
  flock e' := by
    rw [← h.flock e']
    rcases eq_or_ne e' e with rfl | hne
    · simp only [Files.iput, State.setEntry, update_self]
    · simp only [Files.iput, State.setEntry, update_of_ne hne]

theorem Inv.fileclose (h : Inv s (x + one f) y) :
    ∃ s', fileclose s f = some s' ∧ Inv s' x y ∧ Drops s s' ∧
      ∀ g, g ≠ f → s'.file g = s.file g := by
  have hf := h.files f
  rw [Pi.add_apply, one_self] at hf
  have hx : ∀ g, g ≠ f → x g = (x + one f) g := fun g hne => by
    rw [Pi.add_apply, one_of_ne hne, Nat.add_zero]
  have hother : ∀ z g, g ≠ f → (s.setFile f z).file g = s.file g := fun z g hne =>
    update_of_ne hne ..
  unfold Files.fileclose
  rw [if_neg (by omega)]
  by_cases hmore : 0 < (s.file f).ref - 1
  · rw [if_pos hmore]
    refine ⟨_, rfl, h.setRef (by omega) hx (fun h0 => absurd h0 (Nat.ne_of_gt hmore)),
      .setFile (Nat.sub_le _ 1) fun _ => ⟨rfl, rfl⟩, hother _⟩
  rw [if_neg hmore]
  have hgone : ∀ {y'}, (∀ e, ipRef e (s.file f) + y e = y' e) →
      PipesOk (s.setFile f { s.file f with ref := 0, type := .none }) →
      Inv (s.setFile f { s.file f with ref := 0, type := .none }) x y' := by
    intro y' hy hp
    refine h.setFile (show 0 = _ by omega) hx (fun _ => rfl) nofun (fun e => ?_) hp
    rw [ipRef_of_type (z := { s.file f with ref := 0, type := .none }) nofun, Nat.zero_add]
    exact hy e
  have hdrops : Drops s (s.setFile f { s.file f with ref := 0, type := .none }) :=
    .setFile (Nat.zero_le _) fun h0 => absurd rfl h0
  unfold closeLast
  cases htype : (s.file f).type with
  | none =>
    refine ⟨_, rfl, hgone (fun e => ?_) (h.pipes.clear (by rw [htype]; nofun) nofun), hdrops,
      hother _⟩
    rw [ipRef_of_type (by rw [htype]; nofun), Nat.zero_add]
  | pipe =>
    have hclear : ∀ e, ipRef e (s.file f) + y e = y e := fun e => by
      rw [ipRef_of_type (by rw [htype]; nofun), Nat.zero_add]
    have hpipes := h.pipes.close htype (z := { s.file f with ref := 0, type := .none }) rfl
    have hbase : Inv (pipeclose (s.setFile f { s.file f with ref := 0, type := .none })
        (s.file f).pipe (s.file f).writable) x y := by
      have hi : ∀ e, (s.entry e).ref = uses (s.setFile f
          { s.file f with ref := 0, type := .none }) e + y e := by
        intro e
        have hu := uses_setFile s f { s.file f with ref := 0, type := .none } e
        have hie := h.inodes e
        rw [ipRef_of_type (by rw [htype]; nofun),
          ipRef_of_type (z := { s.file f with ref := 0, type := .none }) nofun] at hu
        omega
      refine ⟨fun g => ?_, fun g hg => ?_, hi, fun g hg => ?_, h.unique, h.dead, h.home, hpipes⟩
      · rcases eq_or_ne g f with rfl | hne
        · simp only [pipeclose, State.setPipe, State.setFile, update_self]
          change 0 = descs s g + x g
          omega
        · simp only [pipeclose, State.setPipe, State.setFile, update_of_ne hne]
          rw [h.files g, ← hx g hne]
          rfl
      · rcases eq_or_ne g f with rfl | hne
        · simp only [pipeclose, State.setPipe, State.setFile, update_self]
        · simp only [pipeclose, State.setPipe, State.setFile, update_of_ne hne] at hg ⊢
          exact h.closed g hg
      · rcases eq_or_ne g f with rfl | hne
        · simp only [pipeclose, State.setPipe, State.setFile, update_self] at hg
          cases hg
        · simp only [pipeclose, State.setPipe, State.setFile, update_of_ne hne] at hg ⊢
          exact h.named g hg
    exact ⟨_, rfl, hbase,
      ⟨hdrops.proc, hdrops.nextpid, hdrops.file, hdrops.inum, hdrops.flock⟩, hother _⟩
  | inode =>
    obtain ⟨e, he⟩ := Option.ne_none_iff_exists'.mp (h.named f htype)
    have hy : ∀ e', ipRef e' (s.file f) + y e' = (y + one e) e' := by
      intro e'
      rw [Pi.add_apply, Nat.add_comm]
      congr 1
      unfold ipRef one
      rw [htype, he]
      by_cases hee : e' = e
      · rw [if_pos hee, if_pos ⟨rfl, congrArg some hee.symm⟩]
      · rw [if_neg hee, if_neg fun hc => hee (Option.some.inj hc.2).symm]
    have hpipes := h.pipes.clear (f := f) (by rw [htype]; nofun)
      (z := { s.file f with ref := 0, type := .none }) nofun
    refine ⟨_, by rw [he]; rfl, (hgone hy hpipes).iput, hdrops.iput e, ?_⟩
    exact hother _

/-! ### Processes -/

theorem Inv.setProc (h : Inv s x y) {z : Proc} (ho : z.ofile = (s.proc p).ofile)
    (hy : ∀ e, cwdRef e (s.proc p) + y e = cwdRef e z + y' e)
    (hdead : z.status = .unused ∨ z.status = .zombie → (∀ fd, z.ofile fd = none) ∧ z.cwd = none)
    (hhome : z.status = .live → z.cwd ≠ none) : Inv (s.setProc p z) x y' where
  files g := by
    have hd := descs_setProc s p z g
    have hz : fdRef g z = fdRef g (s.proc p) := congrArg (tally univ (ofileRef g)) ho
    rw [hz] at hd
    rw [Nat.add_right_cancel hd]
    exact h.files g
  closed := h.closed
  inodes e := by
    have hu := uses_setProc s p z e
    have hi := h.inodes e
    have he := hy e
    change (s.entry e).ref = _
    omega
  named := h.named
  unique := h.unique
  dead q hq := by
    rcases eq_or_ne q p with rfl | hne
    · simp only [State.setProc, update_self] at hq ⊢
      exact hdead hq
    · simp only [State.setProc, update_of_ne hne] at hq ⊢
      exact h.dead q hq
  home q hq := by
    rcases eq_or_ne q p with rfl | hne
    · simp only [State.setProc, update_self] at hq ⊢
      exact hhome hq
    · simp only [State.setProc, update_of_ne hne] at hq ⊢
      exact h.home q hq
  pipes := ⟨h.pipes.ends, h.pipes.inj, h.pipes.openEnds, h.pipes.frees⟩

end Xv6.Files
