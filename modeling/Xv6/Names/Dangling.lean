import Xv6.Names.Start

/-!
# Names that lead nowhere

A directory that was removed while in use keeps its `".."`. The directory that this stands for may
be removed and freed too, and then `".."` leads to a free inode, where `ilock` panics.

It takes two removed directories, one the `".."` of the other. Runs in which this does not happen
keep every name leading to an allocated inode.
-/

namespace Xv6.Names

open Run Function

variable {ninodes : ℕ} {t : ℕ → Dinode} {c : Finset ℕ} {n n' : Ns} {d e i j : ℕ} {X : ℕ → Prop}
  {name : List UInt8} {type major minor : Int16} {s : Kernel}

/-- The `".."` of a directory is a directory, which is not a removed one if the directory is, but
for directories in `X`. -/
structure ShelteredUpTo (ninodes : ℕ) (X : ℕ → Prop) (t : ℕ → Dinode) : Prop where
  tree : Tree ninodes False t
  up : ∀ d, (t d).type = T_DIR → (t (parentOf t d)).type = T_DIR
  kept : ∀ d, Removed t d → ¬ X d → ¬ Removed t (parentOf t d)

/-- No removed directory is the `".."` of another one. -/
def Sheltered (ninodes : ℕ) (t : ℕ → Dinode) : Prop := ShelteredUpTo ninodes (fun _ => False) t

theorem ShelteredUpTo.freed (h : ShelteredUpTo ninodes (· = i) t) (hu : Unlinked t i) :
    Sheltered ninodes (update t i (t i).freed) := by
  have hrep := TreeUpTo.replace_freed h.tree rfl hu nofun
  have hparent : ∀ d, d ≠ i → parentOf (update t i (t i).freed) d = parentOf t d := by
    intro d hd
    rw [parentOf, update_of_ne hd, parentOf]
  have hne : ∀ d, d ≠ i → (t d).type = T_DIR → parentOf t d ≠ i := by
    rintro d hdi hd hpar
    have hi : Removed t i := ⟨hpar ▸ h.up d hd, hrep.ne_root, hrep.unnamed⟩
    by_cases hr : Removed t d
    · exact h.kept d hr hdi (hpar ▸ hi)
    rcases (not_removed hd).mp hr with rfl | ⟨d', e', hent⟩
    · exact hrep.ne_root (hpar.symm.trans h.tree.root.2)
    · have hd' : d' = i := (h.tree.parent d' e' d hent hd).symm.trans hpar
      exact (hrep.lost e' d (hd' ▸ hent)).1 hd
  refine ⟨TreeUpTo.freed h.tree rfl hu nofun, fun d hd => ?_, fun d hr _ => ?_⟩
  · have hdi := ne_of_freed (ne_zero_of_dir hd)
    rw [update_of_ne hdi] at hd
    rw [hparent d hdi, update_of_ne (hne d hdi hd)]
    exact h.up d hd
  have hdi := ne_of_freed (ne_zero_of_dir hr.dir)
  rw [removed_freed hrep hdi] at hr
  rw [hparent d hdi, removed_freed hrep (hne d hdi hr.dir)]
  exact h.kept d hr hdi

theorem Sheltered.reaped (h : Sheltered ninodes t) : Sheltered ninodes (reap c i t) := by
  unfold reap
  split
  · next hr => exact ShelteredUpTo.freed ⟨h.tree, h.up, fun d hd _ => h.kept d hd id⟩ hr.2
  · exact h

/-! ### Changes -/

theorem Sheltered.make (hm : Making ninodes t d name i type) (h : Sheltered ninodes t) :
    Sheltered ninodes (makeTable t d name i type major minor) := by
  have hne : ∀ j, j ≠ i → (makeTable t d name i type major minor j).type = T_DIR →
      parentOf (makeTable t d name i type major minor) j = parentOf t j ∧
        (t j).type = T_DIR ∧ parentOf t j ≠ i := by
    intro j hji hj
    have hpar := parentOf_makeTable hm h.tree hj
    rw [type_makeTable hm, if_neg hji] at hj
    rw [if_neg hji] at hpar
    refine ⟨hpar, hj, ?_⟩
    rintro hpi
    exact ne_zero_of_dir (h.up j hj) (hpi ▸ hm.free)
  refine ⟨h.tree.make hm, fun j hj => ?_, fun j hr _ => ?_⟩
  · rcases eq_or_ne j i with rfl | hji
    · rw [parentOf_makeTable hm h.tree hj, if_pos rfl, type_makeTable hm, if_neg hm.ne.symm]
      exact hm.add.dir
    · obtain ⟨hpar, hd, hpi⟩ := hne j hji hj
      rw [hpar, type_makeTable hm, if_neg hpi]
      exact h.up j hd
  have hji : j ≠ i := by
    rintro rfl
    exact not_removed_makeTable hm h.tree hr
  obtain ⟨hpar, -, hpi⟩ := hne j hji hr.dir
  rw [removed_makeTable hm h.tree hji] at hr
  rw [hpar, removed_makeTable hm h.tree hpi]
  exact h.kept j hr id

theorem Sheltered.link (hl : Linking ninodes t d name i) (h : Sheltered ninodes t)
    (hmax : (t i).nlink.toInt < 32767) : Sheltered ninodes (linkTable t d name i) := by
  refine ⟨h.tree.link hl hmax, fun j hj => ?_, fun j hr _ => ?_⟩
  · rw [type_linkTable hl h.tree] at hj
    rw [parentOf_linkTable hl h.tree, type_linkTable hl h.tree]
    exact h.up j hj
  · rw [removed_linkTable hl h.tree] at hr
    rw [parentOf_linkTable hl h.tree, removed_linkTable hl h.tree]
    exact h.kept j hr id

theorem Sheltered.unlink (hrem : CanRemove t d e i) (h : Sheltered ninodes t)
    (hnone : (t i).type = T_DIR → ∀ j, Removed t j → parentOf t j ≠ i) :
    ShelteredUpTo ninodes (fun j => j = i ∧ Removed t d) (unlinkTable t d e i) := by
  refine ⟨h.tree.unlink hrem, fun j hj => ?_, fun j hr hX => ?_⟩
  · rw [type_unlinkTable hrem h.tree] at hj
    rw [parentOf_unlinkTable hrem h.tree, type_unlinkTable hrem h.tree]
    exact h.up j hj
  rw [parentOf_unlinkTable hrem h.tree]
  rcases eq_or_ne j i with rfl | hji
  · have hd := hr.dir
    rw [type_unlinkTable hrem h.tree] at hd
    rw [h.tree.parent d e j (hrem.entry (h.tree.inode d)) hd,
      removed_unlinkTable hrem h.tree hrem.ne.symm]
    exact fun hr' => hX ⟨rfl, hr'⟩
  rw [removed_unlinkTable hrem h.tree hji] at hr
  by_cases hpi : parentOf t j = i
  · rw [hpi]
    refine fun hri => hnone ?_ j hr hpi
    exact (type_unlinkTable hrem h.tree i).symm.trans hri.dir
  · rw [removed_unlinkTable hrem h.tree hpi]
    exact h.kept j hr id

/-! ### Runs -/

/-- The condition on changes. A directory may not lose its name while it is the `".."` of a removed
directory, nor, if it is in use, when it is in a removed directory. Link counts may not overflow. -/
def Shelters (n : Ns) : Event → Prop
  | .link _ _ i => (n.table i).nlink.toInt < 32767
  | .unlink d _ i => (n.table i).type = T_DIR →
      (∀ j, Removed n.table j → parentOf n.table j ≠ i) ∧ (i ∈ n.refs → ¬ Removed n.table d)
  | _ => True

theorem Sheltered.step {ev : Event} (hN : ninodes ≤ 65536) (h : Sheltered ninodes n.table)
    (hok : Shelters n ev) (hs : Step ninodes n ev n') : Sheltered ninodes n'.table := by
  cases hs with
  | hold _ => exact h
  | release _ _ => exact h.reaped
  | make hadd hpos hlt hfree htype => exact (h.make ⟨hN, hadd, hpos, hlt, hfree, htype⟩).reaped
  | link hadd h₀ hnd => exact (h.link ⟨hN, hadd, h₀, hnd⟩ hok).reaped.reaped
  | @unlink t c d e i hrem =>
  have hun := h.unlink hrem fun hd => (hok hd).1
  -- The exception is for a directory that was removed from a removed one; then it is not in use.
  by_cases hX : (t i).type = T_DIR ∧ Removed t d
  · have hi : i ∉ c := fun hc => (hok hX.1).2 hc hX.2
    have hu := h.tree.unlinked_unlinkTable hrem hX.1
    change Sheltered ninodes (reap c i (reap c d (unlinkTable t d e i)))
    rw [reap_comm hrem.ne.symm, reap.eq_def c i, if_pos ⟨hi, hu⟩]
    refine Sheltered.reaped (ShelteredUpTo.freed ⟨hun.tree, hun.up, fun j hr hji => ?_⟩ hu)
    exact hun.kept j hr fun hX => hji hX.1
  refine Sheltered.reaped (Sheltered.reaped ⟨hun.tree, hun.up, fun j hr _ => ?_⟩)
  refine hun.kept j hr ?_
  rintro ⟨rfl, hrd⟩
  have hd := hr.dir
  rw [type_unlinkTable hrem h.tree] at hd
  exact hX ⟨hd, hrd⟩

theorem Sheltered.entry_live (h : Sheltered ninodes t) (hd : (t d).type = T_DIR)
    (he : slots (t d).data e ≠ 0) : (t (slots (t d).data e)).type ≠ 0 := by
  match e, he with
  | 0, _ =>
    rw [((h.tree.inode d).dir hd).dot.1]
    exact ne_zero_of_dir hd
  | 1, _ => exact ne_zero_of_dir (h.up d hd)
  | e + 2, he => exact (h.tree.entries d _ _ ⟨hd, by omega, rfl, he⟩).1

theorem Sheltered.closed {v : View} (h : Sheltered ninodes v.inode) : Closed v where
  root := ne_zero_of_dir h.tree.root.1
  entries d e name i hd hf := by
    obtain ⟨-, hinum, hi, -⟩ := find_eq_some hf
    have hslot : slots (v.inode d).data e = i := hinum
    exact hslot ▸ h.entry_live hd (hslot ▸ hi)

theorem Start.sheltered (h : Start ninodes s) : Sheltered ninodes s.disk := by
  have htree := h.image.tree
  refine ⟨{ htree with fileExact := nofun }, fun d hd => ?_, fun d hr _ => ?_⟩
  · have hconn := h.image.conn d hd
    cases hconn with
    | root =>
      rw [htree.root.2]
      exact htree.root.1
    | @child d' e' _ hc hent _ =>
      rw [htree.parent d' e' d hent hd]
      exact hc.dir htree.root.1
  · exact absurd hr (h.image.conn d hr.dir).not_removed

/-- Every entry in use of a directory that is open or a current directory leads to an allocated
inode, and no call finds a free inode. -/
structure Followable (ninodes : ℕ) (s : Kernel) : Prop where
  entries : ∀ d e, s.view.Cached d → (s.disk d).type = T_DIR → slots (s.disk d).data e ≠ 0 →
    (s.disk (slots (s.disk d).data e)).type ≠ 0
  ilock : ∀ p c, Enabled s p c → c.run ninodes p s ≠ .error .ilockNoType

/-- **No dangling entry is followed**, if no directory is removed while it is the `".."` of a
removed directory. -/
theorem no_dangling_entry
    (h : Reachable (step ninodes) (OnlyCauses ninodes Shelters) (Start ninodes) s) :
    Followable ninodes s := by
  obtain ⟨hb, hI⟩ := reachable_keeps (I := fun n => Sheltered ninodes n.table)
    (fun _ _ => ⟨trivial, trivial⟩) (fun _ _ _ hN hI hK hs => hI.step hN hK hs) h
    fun s hs => hs.sheltered
  refine ⟨fun d e _ hd he => Sheltered.entry_live hI hd he, fun p c hen hrun => ?_⟩
  exact (hb.err hen hrun).noType rfl (Sheltered.closed hI)

theorem no_dangling_entry_mkdir : ∃ s, step 200 boot (0, .mkdir (some [97])) = some s ∧
    slots (s.disk ROOTINO).data 2 = 2 ∧ slots (s.disk 2).data 1 = ROOTINO ∧ Followable 200 s := by
  obtain ⟨s, hs, hq⟩ := (Option.any_eq_true _ _).mp (by decide +kernel :
    (step 200 boot (0, .mkdir (some [97]))).any
      (fun s => slots (s.disk ROOTINO).data 2 = 2 ∧ slots (s.disk 2).data 1 = ROOTINO) = true)
  obtain ⟨hname, hup⟩ := of_decide_eq_true hq
  refine ⟨s, hs, hname, hup,
    no_dangling_entry (.step (.start start_boot) (fun ev n hwhy _ => ?_) hs)⟩
  cases ev with
  | make d name i type major minor => exact trivial
  | hold i | release i | link d name i | unlink d e i => exact hwhy.elim

/-- After `mkdir("a")`, `mkdir("a/b")`, `chdir("a/b")`, `unlink("/a/b")` and `unlink("/a")`, the
current directory of the process, inode 3, has an entry `".."` for the free inode 2; and
`open("..")` panics. -/
theorem dotdot_dangles : ∃ s, Reachable (step 200) (fun _ _ => True) (Start 200) s ∧
    s.view.Cached 3 ∧ (s.disk 3).type = T_DIR ∧ slots (s.disk 3).data 1 = 2 ∧
    (s.disk 2).type = 0 ∧ (Call.open (some dotdot) O_RDONLY).run 200 0 s = .error .ilockNoType := by
  obtain ⟨s, hs, hq⟩ := Reachable.exists_of_exec
    [(0, .mkdir (some [97])), (0, .mkdir (some [97, 47, 98])), (0, .chdir (some [97, 47, 98])),
      (0, .unlink (some [47, 97, 47, 98])), (0, .unlink (some [47, 97]))]
    (fun s => (s.view.cache (s.procs 0).cwd = some ⟨3, 0⟩ ∧ (s.disk 3).type = T_DIR ∧
      slots (s.disk 3).data 1 = 2 ∧ (s.disk 2).type = 0) ∧
      stopsWith .ilockNoType 200 0 (.open (some dotdot) O_RDONLY) s = true)
    (.start start_boot : Reachable (step 200) (fun _ _ => True) (Start 200) boot)
    (by decide +kernel)
  obtain ⟨⟨hcached, hdir, hslot, hfree⟩, hstop⟩ := of_decide_eq_true hq
  exact ⟨s, hs, ⟨_, _, hcached⟩, hdir, hslot, hfree, eq_of_stopsWith hstop⟩

end Xv6.Names
