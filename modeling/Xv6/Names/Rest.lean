import Xv6.Lib.Footprint
import Xv6.Names.Walk

/-!
# Between calls

Between calls no inode is locked and every reference count is exact: an inode is referenced once by
every open file for it and once by every process that works in it, and a file once by every
descriptor.
-/

namespace Xv6.Names

open Tally Function Finset

def Held.count : Option Held → ℕ
  | none => 0
  | some h => h.more + 1

def fileRef (ip : Ptr) (x : File) : ℕ := if x.type = .inode ∧ x.ip = ip then 1 else 0

def cwdRef (ip : Ptr) (x : Proc) : ℕ := if x.live = true ∧ x.cwd = ip then 1 else 0

def ofileRef (f : Fin NFILE) (x : Option (Fin NFILE)) : ℕ := if x = some f then 1 else 0

def fdRef (f : Fin NFILE) (x : Proc) : ℕ := tally univ (ofileRef f) x.ofile

/-- The reference counts are those of the processes `procs`. -/
structure Counts (v : View) (procs : Fin NPROC → Proc) : Prop where
  inodes : ∀ ip, Held.count (v.cache ip) =
    tally univ (fileRef ip) v.ftable + tally univ (cwdRef ip) procs
  files : ∀ f, (v.ftable f).ref = tally univ (fdRef f) procs
  closed : ∀ f, (v.ftable f).ref = 0 → (v.ftable f).type = .none

def Exact (v : View) : Prop := Counts v v.procs

structure Rest (v : View) : Prop where
  quiet : v.Quiet
  exact : Exact v
  dead : ∀ p, (v.procs p).live = false → ∀ fd, (v.procs p).ofile fd = none

variable {v : View} {ip : Ptr} {i : ℕ} {p : Fin NPROC} {f : Fin NFILE}

theorem at_of_count_ne_zero (h : Held.count (v.cache ip) ≠ 0) : ∃ i, v.At ip i := by
  cases hc : v.cache ip with
  | none => rw [hc] at h; exact absurd rfl h
  | some x => exact ⟨x.inum, x.more, hc⟩

theorem Exact.at_cwd (h : Exact v) (hp : (v.procs p).live = true) :
    ∃ i, v.At (v.procs p).cwd i := by
  refine at_of_count_ne_zero ?_
  have hle := le_tally (g := cwdRef (v.procs p).cwd) (h := v.procs) (mem_univ p)
  have hone : cwdRef (v.procs p).cwd (v.procs p) = 1 := if_pos ⟨hp, rfl⟩
  rw [h.inodes]
  omega

theorem Counts.at_file {procs : Fin NPROC → Proc} (h : Counts v procs)
    (hf : (v.ftable f).type = .inode) : ∃ i, v.At (v.ftable f).ip i := by
  refine at_of_count_ne_zero ?_
  have hle := le_tally (g := fileRef (v.ftable f).ip) (h := v.ftable) (mem_univ f)
  have hone : fileRef (v.ftable f).ip (v.ftable f) = 1 := if_pos ⟨hf, rfl⟩
  rw [h.inodes]
  omega

theorem Rest.withTable (h : Rest v) (t : ℕ → Dinode) : Rest (v.withTable t) :=
  ⟨h.quiet, ⟨h.exact.inodes, h.exact.files, h.exact.closed⟩, h.dead⟩

/-! ### Counts of entries -/

theorem count_inc (i : ℕ) (o : Option Held) :
    Held.count (some (Held.inc i o)) = Held.count o + 1 := by
  cases o <;> rfl

theorem count_take (v : View) (ip ip' : Ptr) (i : ℕ) : Held.count ((v.take ip i).cache ip') =
      Held.count (v.cache ip') + if ip = ip' then 1 else 0 := by
  rcases eq_or_ne ip ip' with rfl | hne
  · rw [View.cache_take_self, count_inc, if_pos rfl]
  · rw [View.cache_take_of_ne hne.symm, if_neg hne, Nat.add_zero]

theorem count_dec {o : Option Held} (h : o ≠ none) :
    Held.count (Held.dec o) + 1 = Held.count o := by
  match o with
  | none => exact absurd rfl h
  | some ⟨_, 0⟩ => rfl
  | some ⟨_, _ + 1⟩ => rfl

theorem View.At.ne_none (h : v.At ip i) : v.cache ip ≠ none := by
  obtain ⟨n, hn⟩ := h
  rw [hn]
  exact Option.some_ne_none _

theorem cache_put (v : View) (ip : Ptr) (i : ℕ) : (v.put ip i).cache = (v.drop ip).cache := by
  unfold View.put
  split <;> rfl

theorem locked_put (v : View) (ip : Ptr) (i : ℕ) : (v.put ip i).locked = v.locked := by
  unfold View.put
  split <;> rfl

theorem ftable_put (v : View) (ip : Ptr) (i : ℕ) : (v.put ip i).ftable = v.ftable := by
  unfold View.put
  split <;> rfl

theorem procs_put (v : View) (ip : Ptr) (i : ℕ) : (v.put ip i).procs = v.procs := by
  unfold View.put
  split <;> rfl

theorem View.Quiet.put (h : v.Quiet) (ip : Ptr) (i : ℕ) : (v.put ip i).Quiet := by
  intro ip'
  rw [locked_put]
  exact h ip'

theorem count_put (h : v.At ip i) (ip' : Ptr) :
    Held.count ((v.put ip i).cache ip') + (if ip = ip' then 1 else 0) =
      Held.count (v.cache ip') := by
  rw [cache_put]
  rcases eq_or_ne ip ip' with rfl | hne
  · have hdec : (v.drop ip).cache ip = Held.dec (v.cache ip) := update_self ..
    rw [hdec, if_pos rfl, count_dec h.ne_none]
  · have hsame : (v.drop ip).cache ip' = v.cache ip' := update_of_ne hne.symm ..
    rw [hsame, if_neg hne, Nat.add_zero]

/-! ### Entries and files over a call -/

/-- `y` is a file that was `x`, on the same entry and in the same mode. -/
structure File.Was (y x : File) : Prop where
  type : x.type = .inode
  ip : y.ip = x.ip
  writable : y.writable = x.writable

/-- `y` is not a directory that is open for writing. -/
def View.Guards (v : View) (y : File) : Prop :=
  y.writable = true → ∀ i, v.At y.ip i → (v.inode i).type ≠ T_DIR

/-- What a call leaves of cache entries and files: an entry that is referenced before and after is
for the same inode, and a file is new only if it is not a directory that is open for writing. -/
structure Left (v w : View) : Prop where
  entries : ∀ ip i j, v.At ip i → w.At ip j → i = j
  files : ∀ f, (w.ftable f).type = .inode →
    (w.ftable f).Was (v.ftable f) ∨ w.Guards (w.ftable f)

structure Dropped (v w : View) : Prop where
  entries : ∀ ip i, w.At ip i → v.At ip i
  files : ∀ f, (w.ftable f).type = .inode → (w.ftable f).Was (v.ftable f)

theorem View.At.of_put {ip' : Ptr} {j : ℕ} (h : (v.put ip i).At ip' j) : v.At ip' j := by
  obtain ⟨n, hn⟩ := h
  rw [cache_put] at hn
  rcases eq_or_ne ip' ip with rfl | hne
  · have hdec : (v.drop ip').cache ip' = Held.dec (v.cache ip') := update_self ..
    rw [hdec] at hn
    match hc : v.cache ip' with
    | none => rw [hc] at hn; cases hn
    | some ⟨k, 0⟩ => rw [hc] at hn; cases hn
    | some ⟨k, m + 1⟩ =>
      rw [hc] at hn
      cases hn
      exact ⟨n + 1, hc⟩
  · have hsame : (v.drop ip).cache ip' = v.cache ip' := update_of_ne hne ..
    rw [hsame] at hn
    exact ⟨n, hn⟩

theorem View.Gets.entries {ip' : Ptr} {j k : ℕ} (hg : v.Gets ip i) (h : v.At ip' j)
    (h' : (v.take ip i).At ip' k) : j = k := by
  rcases eq_or_ne ip' ip with rfl | hne
  · rcases hg.self with hnone | hat
    · obtain ⟨n, hn⟩ := h
      rw [hnone] at hn
      cases hn
    · exact (h.inum_eq hat).trans (hg.at_take.inum_eq h')
  · obtain ⟨n, hn⟩ := h'
    rw [View.cache_take_of_ne hne] at hn
    exact h.inum_eq ⟨n, hn⟩

theorem Dropped.of_eq {w : View} (hcache : w.cache = v.cache) (hft : w.ftable = v.ftable) :
    Dropped v w where
  entries ip i := by
    rintro ⟨n, hn⟩
    exact ⟨n, hcache ▸ hn⟩
  files f hf := by
    rw [hft] at hf ⊢
    exact ⟨hf, rfl, rfl⟩

theorem Dropped.trans {u w : View} (h : Dropped v u) (h' : Dropped u w) : Dropped v w where
  entries ip i hi := h.entries ip i (h'.entries ip i hi)
  files f hf :=
    have hw := h'.files f hf
    have hu := h.files f hw.type
    ⟨hu.type, hw.ip.trans hu.ip, hw.writable.trans hu.writable⟩

theorem Dropped.put (v : View) (ip : Ptr) (i : ℕ) : Dropped v (v.put ip i) where
  entries _ _ := View.At.of_put
  files f hf := by
    rw [ftable_put] at hf ⊢
    exact ⟨hf, rfl, rfl⟩

theorem Dropped.left {w : View} (h : Dropped v w) : Left v w where
  entries ip _ j hi hj := hi.inum_eq (h.entries ip j hj)
  files f hf := .inl (h.files f hf)

theorem Left.withTable (v : View) (t : ℕ → Dinode) : Left v (v.withTable t) :=
  have h : Dropped v (v.withTable t) := .of_eq rfl rfl
  h.left

theorem Dropped.left_take {w : View} (h : Dropped (v.take ip i) w) (hg : v.Gets ip i) :
    Left v w where
  entries ip' _ k hj hk := hg.entries hj (h.entries ip' k hk)
  files f hf := .inl (h.files f hf)

/-! ### Descriptors -/

/-- Set descriptor `fd` of process `p`. -/
def setFd (procs : Fin NPROC → Proc) (p : Fin NPROC) (fd : Fin NOFILE) (o : Option (Fin NFILE)) :
    Fin NPROC → Proc :=
  update procs p { procs p with ofile := update (procs p).ofile fd o }

section SetFd

variable {procs : Fin NPROC → Proc} {fd : Fin NOFILE} {o : Option (Fin NFILE)}

theorem tally_cwdRef_setFd : tally univ (cwdRef ip) (setFd procs p fd o) =
    tally univ (cwdRef ip) procs := tally_update_eq (mem_univ p) rfl

theorem tally_fdRef_setFd :
    tally univ (fdRef f) (setFd procs p fd o) + ofileRef f ((procs p).ofile fd) =
      tally univ (fdRef f) procs + ofileRef f o := by
  have hproc := tally_update (g := fdRef f) (h := procs) (mem_univ p)
    { procs p with ofile := update (procs p).ofile fd o }
  have hfd := tally_update (g := ofileRef f) (h := (procs p).ofile) (mem_univ fd) o
  unfold setFd
  unfold fdRef at hproc ⊢
  dsimp only at hproc ⊢
  omega

theorem setFd_of_ne {q : Fin NPROC} (h : q ≠ p) : setFd procs p fd o q = procs q :=
  update_of_ne h ..

theorem setFd_self : setFd procs p fd o p =
    { procs p with ofile := update (procs p).ofile fd o } := update_self ..

theorem dead_setFd (h : ∀ q, (procs q).live = false → ∀ fd, (procs q).ofile fd = none)
    (hp : (procs p).live = true) (q : Fin NPROC) (hq : (setFd procs p fd o q).live = false)
    (fd' : Fin NOFILE) : (setFd procs p fd o q).ofile fd' = none := by
  rcases eq_or_ne q p with rfl | hne
  · rw [setFd_self] at hq
    exact absurd (hp.symm.trans hq) Bool.true_eq_false.mp
  · rw [setFd_of_ne hne] at hq ⊢
    exact h q hq fd'

end SetFd

end Xv6.Names
