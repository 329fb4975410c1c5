import Xv6.Lib.Run
import Xv6.Names.Forest

/-!
# Where runs start

A well-formed image: link counts agree with the names, every directory is connected to the root by
names, and nothing is left without links. Runs start from such an image with no open files and all
processes in the root directory, as after booting.
-/

namespace Xv6.Names

open Tally

/-- Directories connected to the root by names beside `"."` and `".."`. -/
inductive Conn (t : ℕ → Dinode) : ℕ → Prop
  | root : Conn t ROOTINO
  | child {d e i : ℕ} : Conn t d → Entry t d e i → (t i).type = T_DIR → Conn t i

structure Image (ninodes : ℕ) (t : ℕ → Dinode) : Prop where
  fits : ninodes ≤ 65536
  tree : Tree ninodes True t
  conn : ∀ d, (t d).type = T_DIR → Conn t d
  linked : ∀ i, ¬ Unlinked t i

/-- All descriptors are closed and every process is in the root directory. -/
structure Quiescent (v : View) : Prop where
  files : ∀ p fd, (v.procs p).ofile fd = none
  home : ∀ p, (v.procs p).live = true → v.At (v.procs p).cwd ROOTINO

structure Start (ninodes : ℕ) (s : Kernel) : Prop where
  coherent : Coherent s
  rest : Rest s.view
  image : Image ninodes s.disk
  quiescent : Quiescent s.view

variable {ninodes : ℕ} {t : ℕ → Dinode} {v : View} {s : Kernel} {d e i : ℕ}

theorem Rest.cached_cases (h : Rest v) (hc : v.Cached i) :
    (∃ f, (v.ftable f).ref ≠ 0 ∧ (v.ftable f).type = .inode ∧ v.At (v.ftable f).ip i) ∨
      ∃ p, (v.procs p).live = true ∧ v.At (v.procs p).cwd i := by
  obtain ⟨ip, n, hn⟩ := hc
  have hcount := h.exact.inodes ip
  rw [hn] at hcount
  have hsucc : Held.count (some ⟨i, n⟩) = n + 1 := rfl
  by_cases hf : tally Finset.univ (fileRef ip) v.ftable = 0
  · have hp : tally Finset.univ (cwdRef ip) v.procs ≠ 0 := by omega
    obtain ⟨p, -, hne⟩ := exists_of_tally_ne_zero hp
    have hcwd : (v.procs p).live = true ∧ (v.procs p).cwd = ip := by
      by_contra hno
      exact hne (if_neg hno)
    exact .inr ⟨p, hcwd.1, n, hcwd.2 ▸ hn⟩
  obtain ⟨f, -, hne⟩ := exists_of_tally_ne_zero hf
  have hfile : (v.ftable f).type = .inode ∧ (v.ftable f).ip = ip := by
    by_contra hno
    exact hne (if_neg hno)
  refine .inl ⟨f, fun hz => ?_, hfile.1, n, hfile.2 ▸ hn⟩
  have hnone := h.exact.closed f hz
  rw [hfile.1] at hnone
  cases hnone

theorem Quiescent.eq_root (hq : Quiescent v) (h : Rest v) (hc : v.Cached i) : i = ROOTINO := by
  rcases h.cached_cases hc with ⟨f, hf, -⟩ | ⟨p, hp, hat⟩
  · rw [h.exact.files f] at hf
    obtain ⟨p, -, hp⟩ := exists_of_tally_ne_zero hf
    obtain ⟨fd, -, hfd⟩ := exists_of_tally_ne_zero hp
    rw [hq.files p fd] at hfd
    exact absurd (if_neg nofun) hfd
  · exact hat.inum_eq (hq.home p hp)

theorem Conn.dir (hroot : (t ROOTINO).type = T_DIR) (h : Conn t d) : (t d).type = T_DIR := by
  cases h with
  | root => exact hroot
  | child _ _ hd => exact hd

theorem Conn.not_removed (h : Conn t d) : ¬ Removed t d := by
  intro hr
  cases h with
  | root => exact hr.ne_root rfl
  | child _ hent _ => exact hr.unnamed _ _ hent

theorem Start.between (h : Start ninodes s) : Between ninodes s where
  fits := h.image.fits
  coherent := h.coherent
  rest := h.rest
  base :=
    { inode := h.image.tree.inode
      kept := fun i hi => absurd hi (h.image.linked i)
      live := fun i hi => by
        rw [h.quiescent.eq_root h.rest (View.mem_cached.mp hi)]
        exact ne_zero_of_dir h.image.tree.root.1 }

/-! ### Runs -/

/-- Every change that the call may cause satisfies `K`. -/
def OnlyCauses (ninodes : ℕ) (K : Ns → Event → Prop) (s : Kernel) (a : Fin NPROC × Call) : Prop :=
  ∀ ev n, Why s.view a.1 a.2 ev → Step ninodes s.view.ns ev n → K s.view.ns ev

section Keeps

variable {K : Ns → Event → Prop} {I : Ns → Prop} (hmove : ∀ n i, K n (.hold i) ∧ K n (.release i))
  (hstep : ∀ n ev n', ninodes ≤ 65536 → I n → K n ev → Step ninodes n ev n' → I n')
include hmove hstep

theorem Between.keeps {a : Fin NPROC × Call} {s' : Kernel} (hb : Between ninodes s)
    (hI : I s.view.ns) (hK : OnlyCauses ninodes K s a) (hs : step ninodes s a = some s') :
    Between ninodes s' ∧ I s'.view.ns := by
  obtain ⟨hen, r, hrun⟩ := step_eq_some hs
  obtain ⟨hb', hdone⟩ := hb.done hen hrun
  refine ⟨hb', hdone.effect.keeps hI ?_ ?_⟩
  · exact fun ev n' hwhy hs => hstep _ ev n' hb.fits hI (hK ev n' hwhy hs) hs
  · rintro n n' hn ⟨i, hs | hs⟩
    · exact hstep n _ n' hb.fits hn (hmove n i).1 hs
    · exact hstep n _ n' hb.fits hn (hmove n i).2 hs

theorem reachable_keeps (h : Run.Reachable (step ninodes) (OnlyCauses ninodes K) (Start ninodes) s)
    (hstart : ∀ s, Start ninodes s → I s.view.ns) : Between ninodes s ∧ I s.view.ns :=
  h.invariant (I := fun s => Between ninodes s ∧ I s.view.ns)
    (fun s hs => ⟨hs.between, hstart s hs⟩)
    fun _ _ _ hs hK hstep' => hs.1.keeps hmove hstep hs.2 hK hstep'

end Keeps

/-! ### Booting -/

def bootDisk (i : ℕ) : Dinode :=
  if i = ROOTINO then ⟨T_DIR, 0, 0, 1, dotData ROOTINO ROOTINO⟩ else ⟨0, 0, 0, 0, []⟩

/-- The state after booting: the first process is in the root directory. -/
def boot : Kernel where
  disk := bootDisk
  icache ip := if ip = 0 then ⟨ROOTINO, 1, false, false, ⟨0, 0, 0, 0, []⟩⟩
    else ⟨0, 0, false, false, ⟨0, 0, 0, 0, []⟩⟩
  ftable _ := ⟨.none, 0, false, false, 0, 0⟩
  procs p := ⟨p = 0, 0, fun _ => none⟩

theorem bootDisk_root : bootDisk ROOTINO = ⟨T_DIR, 0, 0, 1, dotData ROOTINO ROOTINO⟩ := if_pos rfl

theorem eq_root_of_bootDisk (h : (bootDisk i).type ≠ 0) : i = ROOTINO := by
  by_contra hne
  rw [bootDisk, if_neg hne] at h
  exact h rfl

theorem no_entry_bootDisk (d e i : ℕ) : ¬ Entry bootDisk d e i := by
  intro hent
  have hd := eq_root_of_bootDisk (ne_zero_of_dir hent.dir)
  have hslot := hent.slot
  rw [hd, bootDisk_root, slots, entry_of_nentries_le rfl hent.two_le] at hslot
  exact hent.ne_zero hslot.symm

theorem image_bootDisk : Image 200 bootDisk := by
  have hlinks : ∀ i, i ≠ 0 → links 200 bootDisk i = 0 := by
    intro i hi
    by_contra hne
    obtain ⟨d, e, hent⟩ := exists_entry_of_links hi hne
    exact no_entry_bootDisk d e i hent
  have hzero : ¬ (bootDisk 0).type = T_DIR := by decide
  have hsub : subdirs bootDisk ROOTINO = 0 := by
    by_contra hne
    obtain ⟨e, i, hent, -⟩ := exists_entry_of_kids hzero hne
    exact no_entry_bootDisk _ e i hent
  have hfile : ∀ i, (bootDisk i).type ≠ 0 → (bootDisk i).type = T_DIR := by
    intro i hi
    rw [eq_root_of_bootDisk hi]
    rfl
  have hone : ((1 : Int16).toInt : ℤ) = 1 := by decide
  refine ⟨by decide, ⟨fun i => ⟨fun hi => ?_, fun hd => ?_⟩, ⟨rfl, by decide +kernel⟩, ?_, ?_,
    fun i hd => ?_, fun i hd => ?_, fun i hi hd => ?_, fun _ i hi hd => ?_⟩, fun d hd => ?_,
    fun i hu => ?_⟩
  · rw [eq_root_of_bootDisk hi]
    decide
  · rw [eq_root_of_bootDisk (ne_zero_of_dir hd), bootDisk_root]
    exact .new (by decide) (by decide) (by decide) (by decide)
  iterate 2 · exact fun d e i hent => absurd hent (no_entry_bootDisk d e i)
  · rw [eq_root_of_bootDisk (ne_zero_of_dir hd), hlinks _ (by decide)]
    exact Nat.zero_le 1
  · rw [eq_root_of_bootDisk (ne_zero_of_dir hd), hlinks _ (by decide), hsub, if_pos rfl,
      bootDisk_root]
    exact hone
  · exact absurd (hfile i hi) hd
  · exact absurd (hfile i hi) hd
  · rw [eq_root_of_bootDisk (ne_zero_of_dir hd)]
    exact .root
  · have hnlink := hu.2
    rw [eq_root_of_bootDisk hu.1, bootDisk_root] at hnlink
    exact absurd hnlink (by decide)

theorem start_boot : Start 200 boot where
  coherent := by
    constructor
    · intro ip
      rcases eq_or_ne ip 0 with rfl | hne
      · refine ⟨?_, ?_, ?_⟩ <;> decide +kernel
      · have hip : boot.icache ip = ⟨0, 0, false, false, ⟨0, 0, 0, 0, []⟩⟩ := if_neg hne
        rw [hip]
        exact ⟨nofun, nofun, nofun⟩
    · have href : ∀ ip, 0 < (boot.icache ip).ref → ip = 0 := by decide +kernel
      intro ip ip' h h' _
      rw [href ip h, href ip' h']
  rest := by
    refine ⟨fun ip => ?_, ⟨fun ip => ?_, fun f => ?_, fun _ _ => rfl⟩, fun p _ fd => rfl⟩
    · change (boot.icache ip).locked = false
      revert ip
      decide +kernel
    · have hfile : ∀ f, fileRef ip (boot.view.ftable f) = 0 := fun f => if_neg nofun
      rw [tally_eq_zero fun f _ => hfile f, Nat.zero_add]
      revert ip
      decide +kernel
    have hfd : ∀ p fd, ofileRef f ((boot.view.procs p).ofile fd) = 0 := fun p fd => if_neg nofun
    have hproc : ∀ p, fdRef f (boot.view.procs p) = 0 := by
      intro p
      rw [fdRef, tally_eq_zero fun fd _ => hfd p fd]
    rw [tally_eq_zero fun p _ => hproc p]
    rfl
  image := image_bootDisk
  quiescent := by
    exact ⟨fun p fd => rfl, fun p hp => ⟨0, rfl⟩⟩

/-! ### Calls on concrete states -/

section Concrete

variable {p : Fin NPROC} {c : Call}

/-- The call stops with `e`. -/
def stopsWith (e : Stop) (ninodes : ℕ) (p : Fin NPROC) (c : Call) (s : Kernel) : Bool :=
  match c.run ninodes p s with
  | .ok _ => false
  | .error e' => e' = e

theorem eq_of_stopsWith {e : Stop} (h : stopsWith e ninodes p c s = true) :
    c.run ninodes p s = .error e := by
  unfold stopsWith at h
  split at h
  · cases h
  · next hrun => rw [hrun, of_decide_eq_true h]

/-- The call returns -1 in a state with `q`. -/
def failsWith (q : Kernel → Bool) (ninodes : ℕ) (p : Fin NPROC) (c : Call) (s : Kernel) : Bool :=
  match c.run ninodes p s with
  | .ok (r, s') => r = -1 ∧ q s' = true
  | .error _ => false

theorem exists_of_failsWith {q : Kernel → Bool} (h : failsWith q ninodes p c s = true) :
    ∃ s', c.run ninodes p s = .ok (-1, s') ∧ q s' = true := by
  unfold failsWith at h
  split at h
  · next r s' hrun =>
    obtain ⟨hr, hq⟩ := of_decide_eq_true h
    exact ⟨s', hr ▸ hrun, hq⟩
  · cases h

end Concrete

/-! ### Single calls

What goes wrong in a single call, from any state between calls.

A `link` whose new name stands for the directory it would be stored in — `"."`, or `".."` in the
root — finds that name in `dirlink`, which drops the reference to the directory while the caller
holds its lock; `iput` takes that lock. No other call locks an inode twice.

An `open` that makes a file and then finds no free file structure or descriptor fails, and the file
stays. No other call that fails has changed an inode. -/

section SingleCalls

open Run

variable {ninodes : ℕ} {s s' : Kernel} {p : Fin NPROC} {c : Call}

/-- **No call locks an inode that it holds locked**, but for `link` to a name that stands for the
directory of the new name. -/
theorem no_self_deadlock (h : Between ninodes s) (hen : Enabled s p c) :
    c.run ninodes p s ≠ .error .deadlock ↔ ¬ BadLink s.view p c := by
  cases hrun : c.run ninodes p s with
  | ok x => exact iff_of_true nofun (h.done hen hrun).2.good
  | error e =>
    rw [← (h.err hen hrun).deadlock]
    exact not_congr ⟨fun he => Except.error.inj he, congrArg Except.error⟩

theorem no_self_deadlock_mkdir : (Call.mkdir (some [97])).run 200 0 boot ≠ .error .deadlock :=
  (no_self_deadlock (p := 0) (c := .mkdir (some [97])) start_boot.between ⟨rfl, nofun⟩).mpr id

/-- After `open("a", O_CREATE)`, the call `link("a", ".")` waits for ever. -/
theorem link_dot_deadlocks : ∃ s, Reachable (step 200) (fun _ _ => True) (Start 200) s ∧
    (Call.link (some [97]) (some dot)).run 200 0 s = .error .deadlock := by
  obtain ⟨s, hs, hq⟩ := Reachable.exists_of_exec [(0, Call.open (some [97]) O_CREATE)]
    (stopsWith .deadlock 200 0 (.link (some [97]) (some dot)))
    (.start start_boot : Reachable (step 200) (fun _ _ => True) (Start 200) boot)
    (by decide +kernel)
  exact ⟨s, hs, eq_of_stopsWith hq⟩

/-- **A call that fails has changed nothing on disk**, but for an `open` that makes a file it has no
file structure or descriptor for. -/
theorem failed_call_atomic (h : Between ninodes s) (hen : Enabled s p c)
    (hrun : c.run ninodes p s = .ok (-1, s')) : s'.disk = s.disk ↔ ¬ Leaks s.view p c :=
  (h.done hen hrun).2.failed rfl

theorem failed_call_atomic_unlink : ∃ s', (Call.unlink (some [97])).run 200 0 boot = .ok (-1, s') ∧
    (s'.disk = boot.disk ↔ ¬ Leaks boot.view 0 (.unlink (some [97]))) := by
  obtain ⟨s', hrun, -⟩ : ∃ s', (Call.unlink (some [97])).run 200 0 boot = .ok (-1, s') ∧ true :=
    exists_of_failsWith (q := fun _ => true) (by decide +kernel)
  exact ⟨s', hrun, failed_call_atomic start_boot.between ⟨rfl, nofun⟩ hrun⟩

/-- With all descriptors of the process in use, `open("b", O_CREATE)` fails and leaves a new file
behind: inode 3 was free and is a file now. -/
theorem failed_open_makes_file : ∃ s s', Reachable (step 200) (fun _ _ => True) (Start 200) s ∧
    (Call.open (some [98]) O_CREATE).run 200 0 s = .ok (-1, s') ∧
    (s.disk 3).type = 0 ∧ (s'.disk 3).type = T_FILE := by
  obtain ⟨s, hs, hq⟩ := Reachable.exists_of_exec
    (List.replicate NOFILE (0, Call.open (some [97]) O_CREATE))
    (fun s => (s.disk 3).type = 0 ∧ failsWith (fun s' => (s'.disk 3).type = T_FILE) 200 0
      (.open (some [98]) O_CREATE) s = true)
    (.start start_boot : Reachable (step 200) (fun _ _ => True) (Start 200) boot)
    (by decide +kernel)
  obtain ⟨hfree, hfails⟩ := of_decide_eq_true hq
  obtain ⟨s', hrun, hfile⟩ := exists_of_failsWith hfails
  exact ⟨s, s', hs, hrun, hfree, of_decide_eq_true hfile⟩

end SingleCalls

end Xv6.Names
