import Xv6.Names.Files

/-!
# Processes

`chdir`, `fork` and `exit`: a process holds a reference to its current directory, `fork` duplicates
what a process holds and `exit` gives it back.
-/

namespace Xv6.Names

open Hoare Tally Function List

variable {v u w : View} {ip : Ptr} {i j : ℕ} {p np : Fin NPROC} {fd : Fin NOFILE} {E : Stop → Prop}
  {ninodes : ℕ}

theorem cwdRef_live {x : Proc} (h : x.live = true) (ip : Ptr) :
    cwdRef ip x = if x.cwd = ip then 1 else 0 := by
  simp only [cwdRef, h, true_and]

theorem cwdRef_dead {x : Proc} (h : x.live = false) (ip : Ptr) : cwdRef ip x = 0 := by
  rw [cwdRef, h]
  exact if_neg nofun

theorem Counts.setCwd {procs : Fin NPROC → Proc} {x : Proc} (h : Counts v procs)
    (hft : w.ftable = v.ftable) (hcache : ∀ ip, Held.count (w.cache ip) + cwdRef ip (procs p) =
      Held.count (v.cache ip) + cwdRef ip x)
    (hfd : x.ofile = (procs p).ofile) : Counts w (update procs p x) where
  inodes ip := by
    have hprocs := tally_update (g := cwdRef ip) (h := procs) (Finset.mem_univ p) x
    have hchange := hcache ip
    have hbefore := h.inodes ip
    rw [hft]
    omega
  files f := by
    have hsame : fdRef f x = fdRef f (procs p) := by
      unfold fdRef
      rw [hfd]
    rw [hft, tally_update_eq (Finset.mem_univ p) hsame]
    exact h.files f
  closed f := by
    rw [hft]
    exact h.closed f

theorem dead_update {procs : Fin NPROC → Proc} {x : Proc}
    (h : ∀ q, (procs q).live = false → ∀ fd, (procs q).ofile fd = none)
    (hx : x.live = false → ∀ fd, x.ofile fd = none) (q : Fin NPROC)
    (hq : (update procs p x q).live = false) (fd : Fin NOFILE) :
    (update procs p x q).ofile fd = none := by
  rcases eq_or_ne q p with rfl | hne
  · rw [update_self] at hq ⊢
    exact hx hq fd
  · rw [update_of_ne hne] at hq ⊢
    exact h q hq fd

/-! ### `chdir` -/

theorem via_sysChdir {path : Option Path} (hv : Idle v) (hp : (v.procs p).live = true) :
    Via Shows (sysChdir p path) (Leaves ninodes v p (.chdir path)) (Err v p (.chdir path)) v := by
  obtain ⟨cwd, hcwd⟩ := hv.rest.exact.at_cwd hp
  cases path with
  | none => exact Via.pure (hv.leaves id id)
  | some path =>
  have hidle : Leaves ninodes v p (.chdir (some path)) (-1) v := hv.leaves id id
  refine Via.cont (via_namei hv.lookable hcwd (fun _ => Via.pure hidle) (fun ip i x hres hg => ?_)
    fun e he => hv.resolve_error hp id he)
  refine Via.cont (via_ilock hg.at_take (hv.rest.quiet ip) (fun h₀ => ?_)
    fun ht => .of_free id fun hc => hv.resolve_live hp hc hres ht)
  refine Via.cont (via_inode hg.at_take View.locked_lock_self ?_)
  refine Via.ite (fun _ => ?_) fun _ => ?_
  · exact hv.lookable.via_leave hg (Via.pure hidle)
  refine Via.seq (u := v.take ip i) (via_iunlock hg.at_take View.locked_lock_self
    (View.unlock_lock (hv.rest.quiet ip))) ?_
  refine Via.bind_eq (via_myproc (R := fun x w => x = v.procs p ∧ v.take ip i = w) ⟨rfl, rfl⟩) ?_
  -- the reference to the new directory is kept, the one to the old is dropped
  have hat : (v.take ip i).At (v.procs p).cwd cwd := hcwd.take ip i
  refine Via.cont (via_iput hat (hv.rest.quiet _) fun hgc => ?_)
  have hprocs : ((v.take ip i).put (v.procs p).cwd cwd).procs = v.procs := procs_put ..
  refine Via.cont (via_setProc (Via.pure ?_))
  rw [hprocs]
  have hdrop := Dropped.put (v.take ip i) (v.procs p).cwd cwd
  refine ⟨⟨⟨View.Quiet.put (v := v.take ip i) hv.rest.quiet _ _, ?_, ?_⟩, ?_, id, nofun⟩,
    ⟨(hdrop.left_take hg).entries, (hdrop.left_take hg).files⟩⟩
  · refine Counts.setCwd hv.rest.exact (ftable_put ..) (fun ip' => ?_) rfl
    have hput := count_put hat ip'
    rw [count_take] at hput
    rw [cwdRef_live hp, cwdRef_live (x := { v.procs p with cwd := ip }) hp]
    exact hput
  · exact dead_update hv.rest.dead fun hd => absurd (hp.symm.trans hd) Bool.true_eq_false.mp
  have hns : (v.take ip i).ns = ⟨v.inode, insert i v.cached⟩ :=
    congrArg (Ns.mk v.inode) (View.cached_take_eq hg)
  have hhold : Step ninodes v.ns (.hold i) (v.take ip i).ns := by
    rw [hns]
    exact .hold h₀
  have hsettles : Settles ninodes v.ns ((v.take ip i).put (v.procs p).cwd cwd).ns :=
    .tail (.single ⟨i, .inl hhold⟩) ⟨cwd, .inr (step_put hgc hat)⟩
  exact .of_settles hsettles

/-! ### `fork` -/

/-- The state in the loop of `fork`, with the descriptors `fds` still to be copied. -/
structure Forking (v : View) (np : Fin NPROC) (fds : List (Fin NOFILE)) (u : View) : Prop where
  ns : u.ns = v.ns
  cache : u.cache = v.cache
  quiet : u.Quiet
  exact : Exact u
  others : ∀ q, q ≠ np → u.procs q = v.procs q
  dead : (u.procs np).live = false
  dropped : Dropped v u
  nodup : fds.Nodup
  empty : ∀ fd ∈ fds, (u.procs np).ofile fd = none

theorem via_filedup {f : Fin NFILE} {R : Unit → View → Prop}
    (h : R () (v.setFile f { v.ftable f with ref := (v.ftable f).ref + 1 })) (hE : E .filedup) :
    Via Shows (filedup f) R E v := by
  refine Via.cont (via_file ?_)
  exact Via.ite (fun _ => Via.throw hE) fun _ => via_setFile h

variable {fds : List (Fin NOFILE)}

theorem Forking.dup {f : Fin NFILE} (h : Forking v np (fd :: fds) u) :
    Forking v np fds ((u.setFile f { u.ftable f with ref := (u.ftable f).ref + 1 }).withProcs
      (setFd u.procs np fd (some f))) where
  ns := h.ns
  cache := h.cache
  quiet := h.quiet
  exact := by
    have hnone := h.empty fd mem_cons_self
    refine Counts.setFd h.exact rfl (fun ip => rfl) ?_ (fun f' hne => ?_) nofun
    · rw [hnone, ofileRef_none, ofileRef_self]
    · rw [hnone, ofileRef_none, ofileRef_of_ne hne]
  others q hq := (setFd_of_ne hq).trans (h.others q hq)
  dead := by
    change (setFd u.procs np fd (some f) np).live = false
    rw [setFd_self]
    exact h.dead
  dropped := by
    have hset : Dropped u (u.setFile f { u.ftable f with ref := (u.ftable f).ref + 1 }) :=
      .setFile fun ht => ⟨ht, rfl, rfl⟩
    exact h.dropped.trans ⟨hset.entries, hset.files⟩
  nodup := (nodup_cons.mp h.nodup).2
  empty fd' hfd' := by
    have hne : fd' ≠ fd := by
      rintro rfl
      exact (nodup_cons.mp h.nodup).1 hfd'
    change (setFd u.procs np fd (some f) np).ofile fd' = none
    rw [setFd_self]
    exact (update_of_ne hne ..).trans (h.empty fd' (mem_cons_of_mem fd hfd'))

theorem Forking.skip (h : Forking v np (fd :: fds) u) : Forking v np fds u :=
  { h with
    nodup := (nodup_cons.mp h.nodup).2
    empty := fun fd' hfd' => h.empty fd' (mem_cons_of_mem fd hfd') }

theorem Forking.finish {cwd : Ptr} (hv : Rest v) (h : Forking v np [] u) (i : ℕ) :
    Rest ((u.take cwd i).withProcs
      (update u.procs np { u.procs np with cwd := cwd, live := true })) where
  quiet := h.quiet
  exact := by
    refine Counts.setCwd h.exact rfl (fun ip' => ?_) rfl
    rw [cwdRef_dead h.dead, cwdRef_live (x := { u.procs np with cwd := cwd, live := true }) rfl]
    exact count_take u cwd ip' i
  dead q hq fd := by
    change (update u.procs np _ q).ofile fd = none
    change (update u.procs np _ q).live = false at hq
    rcases eq_or_ne q np with rfl | hne
    · rw [update_self] at hq
      cases hq
    · rw [update_of_ne hne, h.others q hne] at hq ⊢
      exact hv.dead q hq fd

theorem via_fork {np : Option (Fin NPROC)} (hv : Idle v) (hp : (v.procs p).live = true)
    (hnp : ∀ q ∈ np, (v.procs q).live = false) :
    Via Shows (fork p np) (Leaves ninodes v p (.fork np)) (Err v p (.fork np)) v := by
  obtain ⟨cwd, hcwd⟩ := hv.rest.exact.at_cwd hp
  cases np with
  | none => exact Via.pure (hv.leaves id id)
  | some np =>
  have hdead := hnp np rfl
  refine Via.cont (via_myproc ?_)
  refine Via.bind (Via.forEach (I := Forking v np) (fun fd fds u h => ?_) ?_) ?_
  · cases (v.procs p).ofile fd with
    | none => exact Via.pure h.skip
    | some f =>
      exact Via.cont (via_filedup (via_setOfile h.dup) (.other id (by decide) (by decide)))
  · exact ⟨rfl, rfl, hv.rest.quiet, hv.rest.exact, fun _ _ => rfl, hdead, .of_eq rfl rfl,
      nodup_finRange _, fun fd _ => hv.rest.dead np hdead fd⟩
  intro _ u h
  have hat : u.At (v.procs p).cwd cwd := by
    obtain ⟨n, hn⟩ := hcwd
    exact ⟨n, by rw [h.cache, hn]⟩
  refine Via.cont (via_idup hat fun hg => ?_)
  refine Via.cont (via_myproc ?_)
  refine Via.cont (via_setProc (Via.pure ?_))
  have hns : (u.take (v.procs p).cwd cwd).ns = ⟨v.inode, insert cwd v.cached⟩ := by
    rw [View.ns, View.cached_take_eq hg]
    exact congrArg (fun n : Ns => (⟨n.table, insert cwd n.refs⟩ : Ns)) h.ns
  have hhold : Step ninodes v.ns (.hold cwd) (u.take (v.procs p).cwd cwd).ns := by
    rw [hns]
    exact .hold (hv.live cwd ⟨_, hcwd⟩)
  refine ⟨⟨h.finish hv.rest cwd, .of_settles (.single ⟨cwd, .inl hhold⟩), id, nofun⟩,
    fun ip' i' j hi hj => ?_, fun f hf => .inl (h.dropped.files f hf)⟩
  obtain ⟨n, hn⟩ := hi
  exact hg.entries ⟨n, by rw [h.cache, hn]⟩ hj

/-! ### `exit` -/

/-- The state in the loop of `exit`, with the descriptors `fds` still to be closed. -/
structure Exiting (ninodes : ℕ) (v : View) (p : Fin NPROC) (fds : List (Fin NOFILE)) (u : View) :
    Prop where
  rest : Rest u
  settles : Settles ninodes v.ns u.ns
  dropped : Dropped v u
  live : (u.procs p).live = true
  closed : ∀ fd ∉ fds, (u.procs p).ofile fd = none

theorem Exiting.close (h : Exiting ninodes v p (fd :: fds) u)
    (hq : w.Quiet) (hc : Counts w (setFd u.procs p fd none)) (hrel : Settles ninodes u.ns w.ns)
    (hdrop : Dropped u w) : Exiting ninodes v p fds (w.withProcs (setFd u.procs p fd none)) where
  rest := ⟨hq, ⟨hc.inodes, hc.files, hc.closed⟩, dead_setFd h.rest.dead h.live⟩
  settles := h.settles.trans hrel
  dropped := h.dropped.trans ⟨hdrop.entries, hdrop.files⟩
  live := by
    change (setFd u.procs p fd none p).live = true
    rw [setFd_self]
    exact h.live
  closed fd' hfd' := by
    change (setFd u.procs p fd none p).ofile fd' = none
    rw [setFd_self]
    rcases eq_or_ne fd' fd with rfl | hne
    · exact update_self ..
    refine (update_of_ne hne ..).trans (h.closed fd' fun hm => ?_)
    rcases mem_cons.mp hm with rfl | hm
    · exact hne rfl
    · exact hfd' hm

theorem Exiting.skip (h : Exiting ninodes v p (fd :: fds) u)
    (hnone : (u.procs p).ofile fd = none) : Exiting ninodes v p fds u :=
  { h with
    closed := fun fd' hfd' => by
      rcases eq_or_ne fd' fd with rfl | hne
      · exact hnone
      · exact h.closed fd' fun hm => (mem_cons.mp hm).elim hne hfd' }

theorem via_exit (hv : Idle v) (hp : (v.procs p).live = true) :
    Via Shows (exit p) (Leaves ninodes v p .exit) (Err v p .exit) v := by
  refine Via.ite (fun _ => Via.throw (.other id (by decide) (by decide))) fun _ => ?_
  refine Via.bind (Via.forEach (I := Exiting ninodes v p) (fun fd fds u h => ?_) ?_) ?_
  · refine Via.cont (via_myproc ?_)
    cases hfd : (u.procs p).ofile fd with
    | none => exact Via.pure (h.skip hfd)
    | some f =>
    refine Via.cont (via_fileclose ninodes h.rest.quiet h.rest.exact hfd
      (fun w hq hc hprocs hrel hdrop => ?_) (.other id (by decide) (by decide)))
    refine via_setOfile ?_
    rw [hprocs]
    exact h.close hq hc hrel hdrop
  · exact ⟨hv.rest, .refl, .of_eq rfl rfl, hp, fun fd hfd => absurd (mem_finRange fd) hfd⟩
  intro _ u h
  obtain ⟨cwd, hat⟩ := h.rest.exact.at_cwd h.live
  refine Via.cont (via_myproc ?_)
  refine Via.cont (via_iput hat (h.rest.quiet _) fun hg => ?_)
  have hprocs : (u.put (u.procs p).cwd cwd).procs = u.procs := procs_put ..
  refine Via.cont (via_setProc (Via.pure ?_))
  rw [hprocs]
  have hsettles : Settles ninodes v.ns (u.put (u.procs p).cwd cwd).ns :=
    .tail h.settles ⟨cwd, .inr (step_put hg hat)⟩
  have hdrop := (h.dropped.trans (.put u (u.procs p).cwd cwd)).left
  refine ⟨⟨⟨h.rest.quiet.put _ _, ?_, ?_⟩, .of_settles hsettles, id, nofun⟩,
    ⟨hdrop.entries, hdrop.files⟩⟩
  · refine Counts.setCwd h.rest.exact (ftable_put ..) (fun ip' => ?_) rfl
    rw [cwdRef_live h.live, cwdRef_dead (x := { u.procs p with live := false }) rfl]
    exact count_put hat ip'
  · exact dead_update h.rest.dead fun _ fd => h.closed fd not_mem_nil

end Xv6.Names
