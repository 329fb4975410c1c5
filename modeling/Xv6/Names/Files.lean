import Xv6.Names.Create

/-!
# Open files

`open` and `close`. An open file holds one reference to its inode, and is itself counted by the
descriptors that stand for it; with the last descriptor the reference to the inode goes.
-/

namespace Xv6.Names

open Hoare Tally Function

def View.setFile (v : View) (f : Fin NFILE) (x : File) : View :=
  { v with ftable := update v.ftable f x }

def View.withProcs (v : View) (procs : Fin NPROC → Proc) : View := { v with procs := procs }

variable {v : View} {ip : Ptr} {i : ℕ} {p : Fin NPROC} {f : Fin NFILE} {fd : Fin NOFILE}
  {E : Stop → Prop} {ninodes : ℕ} {c : Call}

theorem View.setFile_setFile {x y : File} : (v.setFile f x).setFile f y = v.setFile f y := by
  unfold View.setFile
  rw [update_idem]

theorem View.setFile_self : v.setFile f (v.ftable f) = v := by
  unfold View.setFile
  rw [update_eq_self]

/-! ### The primitives -/

theorem via_file {R : File → View → Prop} (h : R (v.ftable f) v) : Via Shows (file f) R E v := by
  rintro s ⟨hc, rfl⟩
  exact ⟨_, ⟨hc, rfl⟩, h⟩

variable {x : File} {R : Unit → View → Prop}

theorem via_setFile (h : R () (v.setFile f x)) : Via Shows (setFile f x) R E v := by
  rintro s ⟨hc, rfl⟩
  exact ⟨_, ⟨⟨hc.entry, hc.inj⟩, rfl⟩, h⟩

theorem via_setProc {x : Proc}
    (h : R () (v.withProcs (update v.procs p x))) : Via Shows (setProc p x) R E v := by
  rintro s ⟨hc, rfl⟩
  exact ⟨_, ⟨⟨hc.entry, hc.inj⟩, rfl⟩, h⟩

theorem via_setOfile {o : Option (Fin NFILE)}
    (h : R () (v.withProcs (setFd v.procs p fd o))) : Via Shows (setOfile p fd o) R E v := by
  refine Via.cont (via_myproc ?_)
  exact via_setProc h

theorem via_filealloc {R : Option (Fin NFILE) → View → Prop}
    (hnone : (∀ f, (v.ftable f).ref ≠ 0) → R none v) (hsome : ∀ f, (v.ftable f).ref = 0 →
      R (some f) (v.setFile f { v.ftable f with ref := 1 })) : Via Shows filealloc R E v := by
  rintro s ⟨hc, rfl⟩
  unfold filealloc
  rw [wp_bind, wp_get]
  cases hfind : (List.finRange NFILE).find? fun f => (s.ftable f).ref = 0 with
  | none =>
    refine ⟨_, ⟨hc, rfl⟩, hnone fun f hf => ?_⟩
    exact List.find?_eq_none.mp hfind f (List.mem_finRange f) (decide_eq_true hf)
  | some f =>
  have hr := List.find?_some hfind
  rw [decide_eq_true_eq] at hr
  exact ⟨_, ⟨⟨hc.entry, hc.inj⟩, rfl⟩, hsome f hr⟩

theorem via_fdalloc {R : Option (Fin NOFILE) → View → Prop}
    (hnone : (∀ fd, (v.procs p).ofile fd ≠ none) → R none v)
    (hsome : ∀ fd, (v.procs p).ofile fd = none →
      R (some fd) (v.withProcs (setFd v.procs p fd (some f)))) : Via Shows (fdalloc p f) R E v := by
  refine Via.cont (via_myproc ?_)
  cases hfind : (List.finRange NOFILE).find? fun fd => ((v.procs p).ofile fd).isNone with
  | none =>
    refine Via.pure (hnone fun fd hfd => ?_)
    exact List.find?_eq_none.mp hfind fd (List.mem_finRange fd) (Option.isNone_iff_eq_none.mpr hfd)
  | some fd =>
  have hfree := List.find?_some hfind
  rw [Option.isNone_iff_eq_none] at hfree
  exact Via.cont (via_setOfile (Via.pure (hsome fd hfree)))

/-! ### Counting -/

theorem ofileRef_self (f : Fin NFILE) : ofileRef f (some f) = 1 := if_pos rfl

theorem ofileRef_none (f : Fin NFILE) : ofileRef f none = 0 := if_neg nofun

theorem ofileRef_of_ne {f' : Fin NFILE} (h : f' ≠ f) : ofileRef f' (some f) = 0 :=
  if_neg fun he => h (Option.some.inj he).symm

variable {procs : Fin NPROC → Proc}

theorem Counts.setFd {w : View} {o : Option (Fin NFILE)}
    (h : Counts v procs) (hft : w.ftable = update v.ftable f x)
    (hcache : ∀ ip, Held.count (w.cache ip) + fileRef ip (v.ftable f) =
      Held.count (v.cache ip) + fileRef ip x)
    (hself : x.ref + ofileRef f ((procs p).ofile fd) = (v.ftable f).ref + ofileRef f o)
    (hother : ∀ f', f' ≠ f → ofileRef f' ((procs p).ofile fd) = ofileRef f' o)
    (hz : x.ref = 0 → x.type = .none) : Counts w (setFd procs p fd o) where
  inodes ip := by
    have hfiles := tally_update (g := fileRef ip) (h := v.ftable) (Finset.mem_univ f) x
    have hchange := hcache ip
    have hbefore := h.inodes ip
    rw [tally_cwdRef_setFd, hft]
    omega
  files f' := by
    have hfds : tally Finset.univ (fdRef f') (Names.setFd procs p fd o) +
        ofileRef f' ((procs p).ofile fd) = tally Finset.univ (fdRef f') procs + ofileRef f' o :=
      tally_fdRef_setFd
    have hbefore := h.files f'
    rw [hft]
    rcases eq_or_ne f' f with rfl | hne
    · rw [update_self]
      omega
    · have hsame := hother f' hne
      rw [update_of_ne hne]
      omega
  closed f' hf' := by
    rw [hft] at hf' ⊢
    rcases eq_or_ne f' f with rfl | hne
    · rw [update_self] at hf' ⊢
      exact hz hf'
    · rw [update_of_ne hne] at hf' ⊢
      exact h.closed f' hf'

/-! ### Closing -/

def File.closed (x : File) : File := { x with ref := 0, type := .none }

theorem fileRef_closed (ip : Ptr) (x : File) : fileRef ip x.closed = 0 := if_neg nofun

theorem Dropped.setFile (hx : x.type = .inode → x.Was (v.ftable f)) :
    Dropped v (v.setFile f x) where
  entries _ _ := id
  files f' hf := by
    change (update v.ftable f x f').type = .inode at hf
    change (update v.ftable f x f').Was (v.ftable f')
    rcases eq_or_ne f' f with rfl | hne
    · rw [update_self] at hf ⊢
      exact hx hf
    · rw [update_of_ne hne] at hf ⊢
      exact ⟨hf, rfl, rfl⟩

theorem via_fileclose (ninodes : ℕ)
    (hq : v.Quiet) (hc : Counts v procs) (hfd : (procs p).ofile fd = some f)
    (h : ∀ w, w.Quiet → Counts w (setFd procs p fd none) → w.procs = v.procs →
      Settles ninodes v.ns w.ns → Dropped v w → R () w) (hE : E .fileclose) :
    Via Shows (fileclose f) R E v := by
  have hother : ∀ f', f' ≠ f → ofileRef f' ((procs p).ofile fd) = ofileRef f' none := by
    intro f' hne
    rw [hfd, ofileRef_of_ne hne, ofileRef_none]
  refine Via.cont (via_file ?_)
  refine Via.ite (fun _ => Via.throw hE) fun hpos => ?_
  refine Via.ite (fun hmore => ?_) fun hlast => ?_
  · refine via_setFile (h _ hq ?_ rfl .refl (.setFile fun ht => ⟨ht, rfl, rfl⟩))
    refine hc.setFd rfl (fun ip => rfl) ?_ hother fun h₀ => ?_
    · rw [hfd, ofileRef_self, ofileRef_none]
      dsimp only
      omega
    · dsimp only at h₀
      omega
  refine Via.cont (via_setFile ?_)
  have hself : (v.ftable f).closed.ref + ofileRef f ((procs p).ofile fd) =
      (v.ftable f).ref + ofileRef f none := by
    rw [hfd, ofileRef_self, ofileRef_none]
    change 0 + 1 = _
    omega
  have hclosed : Dropped v (v.setFile f (v.ftable f).closed) := .setFile nofun
  have hdone : (v.ftable f).type ≠ .inode → R () (v.setFile f (v.ftable f).closed) := by
    intro ht
    refine h _ hq (hc.setFd rfl (fun ip => ?_) hself hother fun _ => rfl) rfl .refl hclosed
    rw [fileRef_closed, fileRef, if_neg fun hn => ht hn.1]
    rfl
  cases ht : (v.ftable f).type with
  | inode =>
    obtain ⟨i, hat⟩ := hc.at_file ht
    refine via_iput (v := v.setFile f (v.ftable f).closed) hat (hq _) fun hg => ?_
    have hquiet : (v.setFile f (v.ftable f).closed).Quiet := hq
    refine h _ (hquiet.put _ i) (hc.setFd ?_ (fun ip => ?_) hself hother fun _ => rfl)
      (procs_put ..) (.single ⟨i, .inr (step_put hg hat)⟩) (hclosed.trans (.put ..))
    · rw [ftable_put]
      rfl
    have hone : fileRef ip (v.ftable f) = if (v.ftable f).ip = ip then 1 else 0 := by
      simp only [fileRef, ht, true_and]
    rw [fileRef_closed, hone]
    exact count_put (v := v.setFile f (v.ftable f).closed) hat ip
  | pipe | none => exact Via.pure (hdone (by rw [ht]; decide))

theorem via_sysClose {fd : ℤ} (hv : Idle v) (hp : (v.procs p).live = true) :
    Via Shows (sysClose p fd) (Leaves ninodes v p (.close fd)) (Err v p (.close fd)) v := by
  have hidle : Leaves ninodes v p (.close fd) (-1) v := hv.leaves id id
  refine Via.cont (via_myproc ?_)
  split
  case isFalse => exact Via.pure hidle
  case isTrue hrange =>
  cases hfd : (v.procs p).ofile ⟨fd.toNat, by omega⟩ with
  | none => exact Via.pure hidle
  | some f =>
  refine Via.cont (via_setOfile ?_)
  have hcounts : Counts (v.withProcs (setFd v.procs p ⟨fd.toNat, by omega⟩ none)) v.procs :=
    ⟨hv.rest.exact.inodes, hv.rest.exact.files, hv.rest.exact.closed⟩
  refine Via.cont (via_fileclose ninodes hv.rest.quiet hcounts hfd
    (fun w hq hc hprocs hrel hdrop => ?_) (.other id (by decide) (by decide)))
  refine Via.pure ⟨⟨⟨hq, ?_, ?_⟩, .of_settles hrel, id, fun h => by cases h⟩,
    ⟨hdrop.left.entries, hdrop.left.files⟩⟩
  · rw [Exact, hprocs]
    exact hc
  · rw [hprocs]
    exact dead_setFd hv.rest.dead hp

/-! ### Opening -/

theorem via_fileclose_last (hr : (v.ftable f).ref = 1)
    (ht : (v.ftable f).type ≠ .inode) (h : R () (v.setFile f (v.ftable f).closed)) :
    Via Shows (fileclose f) R E v := by
  refine Via.cont (via_file ?_)
  rw [if_neg (by omega), if_neg (by omega)]
  refine Via.cont (via_setFile ?_)
  cases htype : (v.ftable f).type with
  | inode => exact absurd htype ht
  | pipe | none => exact Via.pure h

theorem File.closed_eq (hr : x.ref = 0) (ht : x.type = .none) : x.closed = x := by
  cases x
  subst hr ht
  rfl

/-- A file for inode `ip` that `open` has filled in. -/
structure File.For (x : File) (ip : Ptr) : Prop where
  type : x.type = .inode
  ref : x.ref = 1
  ip : x.ip = ip

def Writes (omode : UInt32) : Bool := omode &&& O_WRONLY ≠ 0 ∨ omode &&& O_RDWR ≠ 0

variable {t : ℕ → Dinode}

theorem via_openFile {R : ℤ → View → Prop} {omode : UInt32} (hv : Rest v)
    (ho : Opened ninodes v p c t ip i)
    (hnone : ((∀ f, (v.ftable f).ref ≠ 0) ∨ ∀ fd, (v.procs p).ofile fd ≠ none) →
      R (-1) (v.withTable t))
    (hsome : ∀ (fd : Fin NOFILE) f x, (v.procs p).ofile fd = none → (v.ftable f).ref = 0 →
      File.For x ip → x.writable = Writes omode → R (fd : ℕ)
        ((((v.withTable t).take ip i).setFile f x).withProcs (setFd v.procs p fd (some f)))) :
    Via Shows (openFile p ip omode) R E (oneLocked (v.withTable t) ip i) := by
  have hat : (oneLocked (v.withTable t) ip i).At ip i := ho.gets.at_take
  have hl : (oneLocked (v.withTable t) ip i).locked ip = true := View.locked_lock_self
  have hleave : ((∀ f, (v.ftable f).ref ≠ 0) ∨ ∀ fd, (v.procs p).ofile fd ≠ none) →
      Via Shows (do iunlockput ip; return -1) R E (oneLocked (v.withTable t) ip i) := by
    intro hfull
    refine Via.seq (u := v.withTable t) (via_iunlockput hat hl (ho.leave hv.quiet)) ?_
    exact Via.pure (hnone hfull)
  refine Via.cont (via_filealloc (fun hfull => hleave (.inl hfull)) fun f hf => ?_)
  change Via Shows _ R E ((oneLocked (v.withTable t) ip i).setFile f { v.ftable f with ref := 1 })
  refine Via.cont (via_fdalloc (fun hfull => ?_) fun fd hfd => ?_)
  · have hself : ((oneLocked (v.withTable t) ip i).setFile f { v.ftable f with ref := 1 }).ftable
        f = { v.ftable f with ref := 1 } := update_self ..
    refine Via.cont (via_fileclose_last ?_ ?_ ?_)
    · rw [hself]
    · rw [hself]
      exact fun ht => nomatch (hv.exact.closed f hf).symm.trans ht
    have hback : ({ v.ftable f with ref := 1 } : File).closed = v.ftable f :=
      File.closed_eq hf (hv.exact.closed f hf)
    have hnew : (oneLocked (v.withTable t) ip i).setFile f (v.ftable f) = _ := View.setFile_self
    rw [hself, View.setFile_setFile, hback, hnew]
    exact hleave (.inr hfull)
  refine Via.bind (via_iunlock (R := fun _ w => w = (((v.withTable t).take ip i).setFile f
    { v.ftable f with ref := 1 }).withProcs (setFd v.procs p fd (some f))) hat hl ?_) ?_
  · exact congrArg (fun u => (View.setFile u f { v.ftable f with ref := 1 }).withProcs
      (setFd v.procs p fd (some f)))
      (View.unlock_lock (v := (v.withTable t).take ip i) (hv.quiet ip))
  rintro _ _ rfl
  have hself : ((((v.withTable t).take ip i).setFile f { v.ftable f with ref := 1 }).withProcs
    (setFd v.procs p fd (some f))).ftable f = { v.ftable f with ref := 1 } :=
      update_self ..
  refine Via.bind (via_file (R := fun x w => x = { v.ftable f with ref := 1 } ∧
    (((v.withTable t).take ip i).setFile f { v.ftable f with ref := 1 }).withProcs
    (setFd v.procs p fd (some f)) = w) ⟨hself, rfl⟩) ?_
  rintro _ _ ⟨rfl, rfl⟩
  refine Via.cont (via_setFile (Via.pure ?_))
  have hover : ∀ x, ((((v.withTable t).take ip i).setFile f { v.ftable f with ref :=
      1 }).withProcs (setFd v.procs p fd (some f))).setFile f x =
        (((v.withTable t).take ip i).setFile f x).withProcs (setFd v.procs p fd (some f)) :=
    fun x => congrArg (fun u => View.withProcs u (setFd v.procs p fd (some f))) View.setFile_setFile
  rw [hover]
  exact hsome fd f _ hfd hf ⟨rfl, rfl, rfl⟩ rfl

theorem via_openInode {path : Path} {omode : UInt32} {R : Option Ptr → View → Prop} (hv : Idle v)
    (hp : (v.procs p).live = true) (hN : ninodes ≤ 65536)
    (hnone : ¬ (omode &&& O_CREATE ≠ 0 ∧ Creates v p path) → R none v)
    (hsome : ∀ t ip i, Opened ninodes v p (.open (some path) omode) t ip i →
      ((t i).type = T_DIR → omode = O_RDONLY) →
      (t = v.inode ↔ ¬ (omode &&& O_CREATE ≠ 0 ∧ Creates v p path)) →
      R (some ip) (oneLocked (v.withTable t) ip i)) :
    Via Shows (openInode ninodes p path omode) R (Err v p (.open (some path) omode)) v := by
  refine Via.ite (fun hcreate => ?_) fun hopen => ?_
  · refine via_create hv hp hN (by decide) id (fun d name i hr => ⟨hcreate, rfl, hr⟩)
      (fun h => hnone fun h' => h h'.2) fun t ip i ho ht heq => hsome t ip i ho (fun hd => ?_) ?_
    · have hne : T_FILE ≠ T_DIR := by decide
      exact absurd (ht.symm.trans hd) hne
    rw [heq]
    exact not_congr ⟨fun h => ⟨hcreate, h⟩, fun h => h.2⟩
  have hsame : ¬ (omode &&& O_CREATE ≠ 0 ∧ Creates v p path) := fun h => hopen h.1
  obtain ⟨cwd, hcwd⟩ := hv.rest.exact.at_cwd hp
  refine Via.cont (via_namei hv.lookable hcwd (fun _ => Via.pure (hnone hsame))
    (fun ip i x hres hg => ?_) fun e he => hv.resolve_error hp id he)
  refine Via.cont (via_ilock hg.at_take (hv.rest.quiet ip) (fun h₀ => ?_)
    fun ht => .of_free id fun hc => hv.resolve_live hp hc hres ht)
  refine Via.cont (via_inode hg.at_take View.locked_lock_self ?_)
  refine Via.ite (fun _ => ?_) fun hmode => Via.pure (hsome v.inode ip i (hv.opened hg h₀)
    (fun hd => not_not.mp fun hne => hmode ⟨hd, hne⟩) (iff_of_true rfl hsame))
  exact hv.lookable.via_leave hg (Via.pure (hnone hsame))

theorem Rest.openFile (hv : Rest v) (hp : (v.procs p).live = true)
    (hfd : (v.procs p).ofile fd = none) (hf : (v.ftable f).ref = 0) (hx : x.For ip) :
    Rest ((((v.withTable t).take ip i).setFile f x).withProcs (setFd v.procs p fd (some f))) where
  quiet := hv.quiet
  exact := by
    refine hv.exact.setFd rfl (fun ip' => ?_) ?_ (fun f' hne => ?_) fun h₀ => ?_
    · have hold : fileRef ip' (v.ftable f) = 0 := by
        rw [fileRef, hv.exact.closed f hf]
        exact if_neg nofun
      have hnew : fileRef ip' x = if ip = ip' then 1 else 0 := by
        simp only [fileRef, hx.type, hx.ip, true_and]
      rw [hold, hnew]
      exact count_take (v.withTable t) ip ip' i
    · rw [hfd, hf, hx.ref, ofileRef_none, ofileRef_self]
    · rw [hfd, ofileRef_none, ofileRef_of_ne hne]
    · rw [hx.ref] at h₀
      cases h₀
  dead := dead_setFd hv.dead hp

theorem Opened.left_openFile (ho : Opened ninodes v p c t ip i) (hx : x.For ip)
    (hdir : (t i).type = T_DIR → x.writable = false) :
    Left v ((((v.withTable t).take ip i).setFile f x).withProcs procs) where
  entries _ _ _ hj hk := ho.gets.entries hj hk
  files f' hf := by
    change (update v.ftable f x f').type = .inode at hf
    change (update v.ftable f x f').Was (v.ftable f') ∨ View.Guards _ (update v.ftable f x f')
    rcases eq_or_ne f' f with rfl | hne
    · rw [update_self] at hf ⊢
      refine .inr fun hw j hj hd => ?_
      rw [hx.ip] at hj
      have hi : j = i := View.At.inum_eq hj ho.gets.at_take
      subst hi
      exact Bool.false_ne_true ((hdir hd).symm.trans hw)
    · rw [update_of_ne hne] at hf ⊢
      exact .inl ⟨hf, rfl, rfl⟩

theorem via_sysOpen {path : Option Path} {omode : UInt32} (hv : Idle v)
    (hp : (v.procs p).live = true) (hN : ninodes ≤ 65536) :
    Via Shows (sysOpen ninodes p path omode) (Leaves ninodes v p (.open path omode))
      (Err v p (.open path omode)) v := by
  cases path with
  | none => exact Via.pure (hv.leaves id id)
  | some path =>
  refine Via.cont (via_openInode hv hp hN
    (fun hsame => Via.pure (hv.leaves id fun h => hsame ⟨h.1, h.2.1⟩))
    fun t ip i ho hdir heq => ?_)
  refine via_openFile hv.rest ho
    (fun hfull => ⟨⟨hv.rest.withTable t, ⟨_, ho.begun, .refl⟩, id, fun _ => ?_⟩, .withTable v _⟩)
    fun fd f x hfd hf hx hwr => ⟨⟨hv.rest.openFile hp hfd hf hx, ?_, id, ?_⟩, ?_⟩
  · exact heq.trans (not_congr ⟨fun h => ⟨h.1, h.2, hfull⟩, fun h => ⟨h.1, h.2.1⟩⟩)
  · have hns : ((((v.withTable t).take ip i).setFile f x).withProcs
        (setFd v.procs p fd (some f))).ns = ⟨t, insert i v.cached⟩ :=
      congrArg (Ns.mk t) (View.cached_take_eq (v := v) ho.gets)
    rw [hns]
    exact ⟨_, ho.begun, .single ⟨i, .inl (.hold ho.live)⟩⟩
  · intro hneg
    exact absurd hneg (by omega)
  · exact ho.left_openFile hx fun h => by rw [hwr, hdir h]; decide

end Xv6.Names
