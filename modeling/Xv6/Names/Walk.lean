import Xv6.Names.Dir

/-!
# Path lookup on views

`walk` follows the components of a path through the inode table, and says where the lookup stops:
at an inode, nowhere, or in a panic, because a name leads to a free inode or because the inode cache
is full. `namex` does what `walk` says, and it leaves the view as it was but for one reference to
the inode it returns.
-/

namespace Xv6.Names

open Hoare

def lookup (t : ℕ → Dinode) (d : ℕ) (name : List UInt8) : Option ℕ :=
  (find (t d).data name).map Prod.snd

/-- Follow names from inode `d`; with `parent`, to the directory of the last name. -/
def walk (v : View) (parent : Bool) :
    List (List UInt8) → ℕ → Except Stop (Option (ℕ × List UInt8))
  | [], d => .ok (if parent then none else some (d, []))
  | name :: names, d =>
    if (v.inode d).type = 0 then .error .ilockNoType
    else if (v.inode d).type ≠ T_DIR then .ok none
    else if parent ∧ names = [] then .ok (some (d, name))
    else
      match lookup v.inode d name with
      | none => .ok none
      | some i => if v.Room {d, i} then walk v parent names i else .error .igetNoInodes

def View.cwd (v : View) (p : Fin NPROC) : ℕ := (v.cache (v.procs p).cwd).elim 0 Held.inum

def View.start (v : View) (p : Fin NPROC) (path : Path) : ℕ :=
  if path.head? = some slash then ROOTINO else v.cwd p

/-- Where a path of process `p` leads. -/
def resolve (v : View) (p : Fin NPROC) (parent : Bool) (path : Path) :
    Except Stop (Option (ℕ × List UInt8)) :=
  if v.Room {v.start p path} then walk v parent (components path) (v.start p path)
  else .error .igetNoInodes

variable {v : View} {ip : Ptr} {i : ℕ} {E : Stop → Prop}

section Equations

variable {parent : Bool} {name : List UInt8} {names : List (List UInt8)} {d e : ℕ}

theorem walk_free (h : (v.inode d).type = 0) :
    walk v parent (name :: names) d = .error .ilockNoType := by
  rw [walk, if_pos h]

theorem walk_file (h₀ : (v.inode d).type ≠ 0) (h : (v.inode d).type ≠ T_DIR) :
    walk v parent (name :: names) d = .ok none := by
  rw [walk, if_neg h₀, if_pos h]

theorem ne_zero_of_dir {t : ℕ → Dinode} (h : (t d).type = T_DIR) : (t d).type ≠ 0 := by
  rw [h]
  decide

theorem walk_last (h : (v.inode d).type = T_DIR) (hp : parent = true) (hn : names = []) :
    walk v parent (name :: names) d = .ok (some (d, name)) := by
  rw [walk, if_neg (ne_zero_of_dir h), if_neg (not_not.mpr h), if_pos ⟨hp, hn⟩]

section

variable (h : (v.inode d).type = T_DIR) (hn : ¬ (parent = true ∧ names = []))

include h hn

theorem walk_missing
    (hf : find (v.inode d).data name = none) : walk v parent (name :: names) d = .ok none := by
  rw [walk, if_neg (ne_zero_of_dir h), if_neg (not_not.mpr h), if_neg hn, lookup, hf]
  rfl

theorem walk_full (hf : find (v.inode d).data name = some (e, i)) (hroom : ¬ v.Room {d, i}) :
    walk v parent (name :: names) d = .error .igetNoInodes := by
  rw [walk, if_neg (ne_zero_of_dir h), if_neg (not_not.mpr h), if_neg hn, lookup, hf]
  exact if_neg hroom

theorem walk_next (hf : find (v.inode d).data name = some (e, i)) (hroom : v.Room {d, i}) :
    walk v parent (name :: names) d = walk v parent names i := by
  rw [walk, if_neg (ne_zero_of_dir h), if_neg (not_not.mpr h), if_neg hn, lookup, hf]
  exact if_pos hroom

end

theorem walk_cons_some {x : ℕ × List UInt8} (h : walk v parent (name :: names) d = .ok (some x)) :
    (v.inode d).type = T_DIR ∧ ((parent = true ∧ names = [] ∧ x = (d, name)) ∨
      (¬ (parent = true ∧ names = []) ∧ ∃ e i, find (v.inode d).data name = some (e, i) ∧
        v.Room {d, i} ∧ walk v parent names i = .ok (some x))) := by
  rw [walk] at h
  split at h
  · cases h
  split at h
  · cases h
  next hd =>
  refine ⟨not_not.mp hd, ?_⟩
  split at h
  · next hp =>
    cases h
    exact .inl ⟨hp.1, hp.2, rfl⟩
  next hp =>
  split at h
  · cases h
  next i hi =>
  obtain ⟨⟨e, _⟩, hf, rfl⟩ := Option.map_eq_some_iff.mp hi
  split at h
  · next hroom => exact .inr ⟨hp, e, _, hf, hroom, h⟩
  · cases h

theorem walk_cons_error {x : Stop} (h : walk v parent (name :: names) d = .error x) :
    ((v.inode d).type = 0 ∧ x = .ilockNoType) ∨
      ((v.inode d).type = T_DIR ∧ ∃ e i, find (v.inode d).data name = some (e, i) ∧
        (x = .igetNoInodes ∨ walk v parent names i = .error x)) := by
  rw [walk] at h
  split at h
  · next h₀ =>
    cases h
    exact .inl ⟨h₀, rfl⟩
  split at h
  · cases h
  next hd =>
  split at h
  · cases h
  split at h
  · cases h
  next i hi =>
  obtain ⟨⟨e, _⟩, hf, rfl⟩ := Option.map_eq_some_iff.mp hi
  refine .inr ⟨not_not.mp hd, e, _, hf, ?_⟩
  split at h
  · exact .inr h
  · cases h
    exact .inl rfl

end Equations

theorem View.Gets.room (h : v.Gets ip i) : v.Room {i} := by
  by_contra hn
  obtain ⟨hc, hfull⟩ := View.full_iff.mpr hn
  rcases h.self with hs | hs
  · exact hfull ip hs
  · exact hc ⟨ip, hs⟩

theorem via_iunlockput {R : Unit → View → Prop} (hat : v.At ip i) (hl : v.locked ip = true)
    (h : R () ((v.unlock ip).put ip i)) : Via Shows (iunlockput ip) R E v := by
  refine Via.seq (u := v.unlock ip) (via_iunlock hat hl rfl) ?_
  exact via_iput (v := v.unlock ip) hat View.locked_unlock_self fun _ => h

/-- What `namex` relies on: nothing is locked, inodes without links are referenced, and directories
consist of whole entries. -/
structure Lookable (v : View) : Prop where
  quiet : v.Quiet
  kept : v.Kept
  dirs : ∀ i, (v.inode i).type = T_DIR → DirData (v.inode i).data

theorem Lookable.leave (hv : Lookable v) (hg : v.Gets ip i) :
    ((((v.take ip i).lock ip).unlock ip).put ip i) = v := by
  rw [View.unlock_lock (v := v.take ip i) (hv.quiet ip), View.put_take hg hv.kept]

theorem Lookable.via_leave {α : Type} {k : Unit → KM α} {R : α → View → Prop} (hv : Lookable v)
    (hg : v.Gets ip i) (h : Via Shows (k ()) R E v) :
    Via Shows (iunlockput ip >>= k) R E ((v.take ip i).lock ip) := by
  refine Via.cont (via_iunlockput hg.at_take View.locked_lock_self ?_)
  rw [hv.leave hg]
  exact h

theorem Lookable.move {ip' : Ptr} {j : ℕ} (hv : Lookable v) (hg : v.Gets ip i)
    (hg' : ((v.take ip i).lock ip).Gets ip' j) :
    v.Gets ip' j ∧ ((((v.take ip i).lock ip).take ip' j).unlock ip).put ip i = v.take ip' j := by
  rw [View.unlock_take, View.unlock_lock (v := v.take ip i) (hv.quiet ip)]
  exact View.put_take_take hg hv.kept (View.gets_lock.mp hg')

theorem via_namexLoop {parent : Bool} {R : Option (Ptr × List UInt8) → View → Prop}
    (hv : Lookable v) : ∀ fuel path ip i, path.length < fuel → v.Gets ip i →
      (walk v parent (components path) i = .ok none → R none v) →
      (∀ ip' j name, walk v parent (components path) i = .ok (some (j, name)) → v.Gets ip' j →
        R (some (ip', name)) (v.take ip' j)) →
      (∀ e, walk v parent (components path) i = .error e → E e) →
      Via Shows (namexLoop parent fuel path ip) R E (v.take ip i) := by
  intro fuel
  induction fuel with
  | zero => exact fun path _ _ hfuel => absurd hfuel (Nat.not_lt_zero _)
  | succ fuel ih =>
  intro path ip i hfuel hg hnone hsome hE
  rw [namexLoop]
  cases hskip : skipelem path with
  | none =>
    rw [skipelem_eq_none hskip] at hnone hsome hE
    cases parent with
    | false => exact Via.pure (hsome ip i [] rfl hg)
    | true =>
    refine Via.seq (u := v) (via_iput hg.at_take (hv.quiet ip) fun _ => View.put_take hg hv.kept) ?_
    exact Via.pure (hnone rfl)
  | some r =>
  obtain ⟨rest, name⟩ := r
  obtain ⟨hcomp, hend, hlen⟩ := skipelem_eq_some hskip
  rw [hcomp] at hnone hsome hE
  have hat : ((v.take ip i).lock ip).At ip i := hg.at_take
  have hl : ((v.take ip i).lock ip).locked ip = true := View.locked_lock_self
  refine Via.cont (via_ilock hg.at_take (hv.quiet ip) (fun ht => ?_) fun ht => hE _ (walk_free ht))
  refine Via.cont (via_inode hat hl ?_)
  refine Via.ite (fun hnd => ?_) fun hd => ?_
  · exact hv.via_leave hg (Via.pure (hnone (walk_file ht hnd)))
  have htype : (v.inode i).type = T_DIR := not_not.mp hd
  refine Via.ite (fun hp => ?_) fun hp => ?_
  · refine Via.seq (u := v.take ip i) (via_iunlock hat hl (View.unlock_lock (hv.quiet ip))) ?_
    exact Via.pure (hsome ip i name (walk_last htype hp.1 (hend.mp hp.2)) hg)
  have hlast : ¬ (parent = true ∧ components rest = []) :=
    fun hp' => hp ⟨hp'.1, hend.mpr hp'.2⟩
  refine Via.cont (via_dirlookup (v := (v.take ip i).lock ip) hat hl htype (hv.dirs i htype)
    (hv.kept.take hg) (fun hf => ?_) (fun ip' e j hf hg' => ?_) fun e j hf hfull => ?_)
  · exact hv.via_leave hg (Via.pure (hnone (walk_missing htype hlast hf)))
  · have hroom : v.Room {i, j} :=
      (View.room_take hg {j}).mp (View.Gets.room (View.gets_lock.mp hg'))
    obtain ⟨hgj, hmove⟩ := hv.move hg hg'
    rw [walk_next htype hlast hf hroom] at hnone hsome hE
    refine Via.seq (u := v.take ip' j) (via_iunlockput (hat.take ip' j) hl hmove) ?_
    exact ih rest ip' j (by omega) hgj hnone hsome hE
  · have hroom : ¬ v.Room {i, j} :=
      fun h => View.full_iff.mp hfull ((View.room_take hg {j}).mpr h)
    exact hE _ (walk_full htype hlast hf hroom)

variable {p : Fin NPROC}

theorem View.At.cwd_eq (h : v.At (v.procs p).cwd i) : v.cwd p = i := by
  obtain ⟨n, hn⟩ := h
  rw [View.cwd, hn]
  rfl

theorem via_myproc {R : Proc → View → Prop} (h : R (v.procs p) v) : Via Shows (myproc p) R E v := by
  rintro s ⟨hc, rfl⟩
  exact ⟨_, ⟨hc, rfl⟩, h⟩

theorem via_namex {parent : Bool} {path : Path} {R : Option (Ptr × List UInt8) → View → Prop}
    (hv : Lookable v) (hcwd : v.At (v.procs p).cwd i)
    (hnone : resolve v p parent path = .ok none → R none v)
    (hsome : ∀ ip j name, resolve v p parent path = .ok (some (j, name)) → v.Gets ip j →
      R (some (ip, name)) (v.take ip j)) (hE : ∀ e, resolve v p parent path = .error e → E e) :
    Via Shows (namex p path parent) R E v := by
  unfold resolve at hnone hsome hE
  refine Via.bind (R := fun ip w => v.Gets ip (v.start p path) ∧
    w = v.take ip (v.start p path)) ?_ ?_
  · unfold View.start at hE ⊢
    refine Via.ite (fun habs => ?_) fun hrel => ?_
    · rw [if_pos habs] at hE ⊢
      refine via_iget (hv.kept _) (fun ip hg => ⟨hg, rfl⟩) fun hn hf => hE _ (if_neg ?_)
      exact View.full_iff.mp ⟨hn, hf⟩
    · rw [if_neg hrel, hcwd.cwd_eq]
      refine Via.cont (via_myproc ?_)
      exact via_idup hcwd fun hg => ⟨hg, rfl⟩
  · rintro ip _ ⟨hg, rfl⟩
    have hroom := hg.room
    rw [if_pos hroom] at hnone hsome hE
    exact via_namexLoop hv _ path ip _ (Nat.lt_succ_self _) hg hnone hsome hE

theorem via_namei {path : Path} {R : Option Ptr → View → Prop} (hv : Lookable v)
    (hcwd : v.At (v.procs p).cwd i) (hnone : resolve v p false path = .ok none → R none v)
    (hsome : ∀ ip j name, resolve v p false path = .ok (some (j, name)) → v.Gets ip j →
      R (some ip) (v.take ip j))
    (hE : ∀ e, resolve v p false path = .error e → E e) : Via Shows (namei p path) R E v :=
  Via.cont (via_namex hv hcwd (fun h => Via.pure (hnone h))
    (fun ip i name h hg => Via.pure (hsome ip i name h hg)) hE)

end Xv6.Names
