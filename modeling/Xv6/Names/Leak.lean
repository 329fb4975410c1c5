import Xv6.Names.Start

/-!
# Crashes

A crash loses the inode cache, the open files and the processes. What it keeps is the disk after
some whole calls: a call is one transaction, but for `exit`, and a crash in the middle of `exit` is
one after some `close`s by the process. A reboot replays the log and looks at no inode.

An inode that was unlinked while in use is freed with the last reference to it. A crash loses the
references, so nothing frees the inode any more.
-/

namespace Xv6.Names

open Run

variable {ninodes : ℕ} {t : ℕ → Dinode} {c : Finset ℕ} {n n' : Ns} {i : ℕ} {s : Kernel}

/-- The state after a crash and a reboot: the disk is kept, and the rest is as after booting. -/
def reboot (s : Kernel) : Kernel := { boot with disk := s.disk }

def crashStep (ninodes : ℕ) (s : Kernel) : Option (Fin NPROC × Call) → Option Kernel
  | some a => step ninodes s a
  | none => some (reboot s)

def InUseLinked (s : Kernel) : Prop := ∀ i, s.view.Cached i → (s.disk i).nlink ≠ 0

def NoOverflow (n : Ns) : Event → Prop
  | .link _ _ i => (n.table i).nlink.toInt < 32767
  | _ => True

/-- The condition on steps: no link count overflows, and the machine does not crash while an inode
without links is in use. -/
def CrashesClean (ninodes : ℕ) (s : Kernel) : Option (Fin NPROC × Call) → Prop
  | some a => OnlyCauses ninodes NoOverflow s a
  | none => InUseLinked s

/-! ### Link counts -/

theorem Tree.reaped (h : Tree ninodes False t) : Tree ninodes False (reap c i t) := by
  unfold reap
  split
  · next hr => exact TreeUpTo.freed h rfl hr.2 nofun
  · exact h

theorem Tree.step {ev : Event} (hN : ninodes ≤ 65536) (h : Tree ninodes False n.table)
    (hok : NoOverflow n ev) (hs : Step ninodes n ev n') : Tree ninodes False n'.table := by
  cases hs with
  | hold _ => exact h
  | release _ _ => exact h.reaped
  | make hadd hpos hlt hfree htype => exact (h.make ⟨hN, hadd, hpos, hlt, hfree, htype⟩).reaped
  | link hadd h₀ hnd => exact (h.link ⟨hN, hadd, h₀, hnd⟩ hok).reaped.reaped
  | unlink hrem => exact (h.unlink hrem).reaped.reaped

/-! ### Reboots -/

theorem Between.linked_iff (hb : Between ninodes s) (ht : Tree ninodes False s.disk) :
    (∀ i, (s.disk i).type ≠ 0 → 1 ≤ (s.disk i).nlink.toInt) ↔ InUseLinked s := by
  constructor
  · intro h i hi hz
    have hpos := h i (hb.base.live i (View.mem_cached.mpr hi))
    rw [hz] at hpos
    exact absurd hpos (by decide)
  intro h i hi
  have hnonneg := ht.nlink_nonneg hi
  have hne : (s.disk i).nlink.toInt ≠ 0 := by
    intro hz
    have hu : Unlinked s.view.inode i := ⟨hi, Int16.toInt_inj.mp hz⟩
    exact h i (View.mem_cached.mp ((hb.base.kept i hu).resolve_right id)) hu.2
  omega

theorem Between.reboot (hb : Between ninodes s) (ht : Tree ninodes False s.disk)
    (hl : InUseLinked s) : Between ninodes (Names.reboot s) := by
  have hlinked := (hb.linked_iff ht).mpr hl
  have hno : ∀ i, ¬ Unlinked s.disk i := by
    rintro i ⟨h₀, hz⟩
    have hpos := hlinked i h₀
    rw [hz] at hpos
    exact absurd hpos (by decide)
  have hlive : ∀ i ∈ (Names.reboot s).view.cached, (s.disk i).type ≠ 0 := by
    intro i hi
    rw [View.mem_cached] at hi
    obtain ⟨ip, hat⟩ := hi
    rw [start_boot.quiescent.eq_root start_boot.rest ⟨ip, hat⟩]
    exact ne_zero_of_dir ht.root.1
  refine ⟨hb.fits, ⟨fun ip => ?_, start_boot.coherent.inj⟩, start_boot.rest.withTable s.disk,
    hb.base.inode, fun i hi => absurd hi (hno i), hlive⟩
  have hinvalid : ∀ ip, (boot.icache ip).valid = false := by decide +kernel
  refine ⟨fun _ hv => ?_, (start_boot.coherent.entry ip).locked, fun _ h₀ hz => ?_⟩
  · have hv' : (boot.icache ip).valid = true := hv
    rw [hinvalid ip] at hv'
    cases hv'
  · have hu : Unlinked s.disk (boot.icache ip).inum := ⟨h₀, hz⟩
    exact absurd hu (hno _)

/-! ### Runs -/

/-- **No inode is leaked by a crash** exactly if no inode without links is in use when the machine
crashes; the same is asked of earlier crashes. -/
theorem no_leak_after_crash
    (h : Reachable (crashStep ninodes) (CrashesClean ninodes) (Start ninodes) s) :
    (∀ i, ((reboot s).disk i).type ≠ 0 → 1 ≤ ((reboot s).disk i).nlink.toInt) ↔ InUseLinked s := by
  have hinv : Between ninodes s ∧ Tree ninodes False s.disk := by
    refine h.invariant (I := fun s => Between ninodes s ∧ Tree ninodes False s.disk)
      (fun s hs => ⟨hs.between, { hs.image.tree with fileExact := nofun }⟩) ?_
    rintro s (_ | a) s' ⟨hb, ht⟩ hok hs
    · cases hs
      exact ⟨hb.reboot ht hok, ht⟩
    · exact hb.keeps (I := fun n => Tree ninodes False n.table) (fun _ _ => ⟨trivial, trivial⟩)
        (fun _ _ _ hN hI hK hs => hI.step hN hK hs) ht hok hs
  exact hinv.1.linked_iff hinv.2

theorem no_leak_after_crash_boot : InUseLinked (reboot boot) ∧
    ∀ i, ((reboot (reboot boot)).disk i).type ≠ 0 →
      1 ≤ ((reboot (reboot boot)).disk i).nlink.toInt := by
  have hclean : CrashesClean 200 boot none := by
    intro i hi
    rw [start_boot.quiescent.eq_root start_boot.rest hi]
    decide
  have hreach : Reachable (crashStep 200) (CrashesClean 200) (Start 200) (reboot boot) :=
    .step (.start start_boot) hclean rfl
  exact ⟨hclean, (no_leak_after_crash hreach).mpr hclean⟩

/-- After `open("a", O_CREATE)`, `unlink("a")` and a crash, inode 2 is allocated and has no
links. -/
theorem unlinked_file_leaked : ∃ s, Reachable (crashStep 200) (fun _ _ => True) (Start 200) s ∧
      ((reboot s).disk 2).type = T_FILE ∧ ((reboot s).disk 2).nlink = 0 := by
  obtain ⟨s, hs, hq⟩ := Reachable.exists_of_exec
    [some (0, .open (some [97]) O_CREATE), some (0, .unlink (some [97]))]
    (fun s => (s.disk 2).type = T_FILE ∧ (s.disk 2).nlink = 0)
    (.start start_boot : Reachable (crashStep 200) (fun _ _ => True) (Start 200) boot)
    (by decide +kernel)
  exact ⟨s, hs, of_decide_eq_true hq⟩

end Xv6.Names
