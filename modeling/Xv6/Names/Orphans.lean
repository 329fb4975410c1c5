import Xv6.Names.Start

/-!
# Inodes that nothing leads to

A directory that was removed while in use still takes new names. An inode that was made in it has a
link count of one, so nothing frees it when the directory goes, and no name leads to it.

Runs in which names are made only in directories with links keep the removed directories empty. Then
every directory with links is connected to the root, and once nothing is in use, every inode is.
-/

namespace Xv6.Names

open Run Function

variable {ninodes : ℕ} {t t' : ℕ → Dinode} {c : Finset ℕ} {n n' : Ns} {d e i j : ℕ}
  {name : List UInt8} {type major minor : Int16} {s : Kernel}

/-- Link counts are exact, removed directories are empty, and the others are connected to the
root. -/
structure Orderly (ninodes : ℕ) (t : ℕ → Dinode) : Prop where
  tree : Tree ninodes True t
  empty : ∀ d, Removed t d → ∀ e i, ¬ Entry t d e i
  conn : ∀ d, (t d).type = T_DIR → ¬ Removed t d → Conn t d

theorem Orderly.not_removed (h : Orderly ninodes t) (hd : (t d).type = T_DIR)
    (hn : (t d).nlink ≠ 0) : ¬ Removed t d := by
  intro hr
  have hcount := h.tree.dirLinks d hd
  have hlinks : links ninodes t d = 0 := by
    by_contra hne
    have hpos := ((h.tree.inode d).bound (ne_zero_of_dir hd)).1
    obtain ⟨d', e', hent⟩ := exists_entry_of_links hpos.ne' hne
    exact hr.unnamed d' e' hent
  have hsub : subdirs t d = 0 := by
    by_contra hne
    obtain ⟨e, i, hent, -⟩ := exists_entry_of_kids h.tree.zero_not_dir hne
    exact h.empty d hr e i hent
  rw [hlinks, hsub, if_neg hr.ne_root] at hcount
  exact hn (Int16.toInt_inj.mp hcount)

theorem Conn.map {P : ℕ → Prop} (h : Conn t j) (hj : P j)
    (hkeep : ∀ d e i, Entry t d e i → P i → P d ∧ Entry t' d e i ∧ (t' i).type = (t i).type) :
    Conn t' j := by
  induction h with
  | root => exact .root
  | child _ hent hd ih =>
    obtain ⟨hP, hent', htype⟩ := hkeep _ _ _ hent hj
    exact .child (ih hP) hent' (htype.trans hd)

theorem Orderly.no_entry (h : Orderly ninodes t) (hu : Unlinked t i) (e j : ℕ) :
    ¬ Entry t i e j := by
  intro hent
  by_cases hr : Removed t i
  · exact h.empty i hr e j hent
  · exact h.tree.not_unlinked hent.dir hr hu

theorem Orderly.freed (h : Orderly ninodes t) (hu : Unlinked t i) :
    Orderly ninodes (update t i (t i).freed) := by
  have hno := h.no_entry hu
  have hrep := TreeUpTo.replace_freed h.tree rfl hu fun _ => hno
  refine ⟨TreeUpTo.freed h.tree rfl hu fun _ => hno, fun d hr e j hent => ?_, fun d hd hr => ?_⟩
  · rw [removed_freed hrep (ne_of_freed (ne_zero_of_dir hr.dir))] at hr
    exact h.empty d hr e j (hrep.entry_iff.mp hent).1
  have hdi := ne_of_freed (ne_zero_of_dir hd)
  rw [removed_freed hrep hdi] at hr
  rw [update_of_ne hdi] at hd
  refine (h.conn d hd hr).map (P := (· ≠ i)) hdi fun d' e' j hent hj => ?_
  have hd' : d' ≠ i := by
    rintro rfl
    exact hno e' j hent
  exact ⟨hd', hrep.entry_iff.mpr ⟨hent, hd'⟩, by rw [update_of_ne hj]⟩

theorem Orderly.reaped (h : Orderly ninodes t) : Orderly ninodes (reap c i t) := by
  unfold reap
  split
  · next hr => exact h.freed hr.2
  · exact h

/-! ### Changes -/

theorem Orderly.make (hm : Making ninodes t d name i type) (h : Orderly ninodes t)
    (hd : ¬ Removed t d) : Orderly ninodes (makeTable t d name i type major minor) := by
  have hkeep : ∀ j, Conn t j → Conn (makeTable t d name i type major minor) j := by
    intro j hj
    refine hj.map (P := fun _ => True) trivial fun d' e' k hent _ => ?_
    refine ⟨trivial, (entry_makeTable hm h.tree).mpr (.inl hent), ?_⟩
    rw [type_makeTable hm, if_neg]
    rintro rfl
    exact (h.tree.entries d' e' k hent).1 hm.free
  refine ⟨h.tree.make hm, fun j hr e' k hent => ?_, fun j hj hr => ?_⟩
  · have hji : j ≠ i := by
      rintro rfl
      exact not_removed_makeTable hm h.tree hr
    rw [removed_makeTable hm h.tree hji] at hr
    rcases (entry_makeTable hm h.tree).mp hent with hent | ⟨rfl, -⟩
    · exact h.empty j hr e' k hent
    · exact hd hr
  · rcases eq_or_ne j i with rfl | hji
    · exact .child (hkeep d (h.conn d hm.add.dir hd))
        ((entry_makeTable hm h.tree).mpr (.inr ⟨rfl, rfl, rfl⟩)) hj
    · rw [removed_makeTable hm h.tree hji] at hr
      rw [type_makeTable hm, if_neg hji] at hj
      exact hkeep j (h.conn j hj hr)

theorem Orderly.link (hl : Linking ninodes t d name i) (h : Orderly ninodes t)
    (hd : ¬ Removed t d) (hmax : (t i).nlink.toInt < 32767) :
    Orderly ninodes (linkTable t d name i) := by
  refine ⟨h.tree.link hl hmax, fun j hr e' k hent => ?_, fun j hj hr => ?_⟩
  · rw [removed_linkTable hl h.tree] at hr
    rcases (entry_linkTable hl h.tree).mp hent with hent | ⟨rfl, -⟩
    · exact h.empty j hr e' k hent
    · exact hd hr
  rw [removed_linkTable hl h.tree] at hr
  rw [type_linkTable hl h.tree] at hj
  refine (h.conn j hj hr).map (P := fun _ => True) trivial fun d' e' k hent _ => ?_
  exact ⟨trivial, (entry_linkTable hl h.tree).mpr (.inl hent), type_linkTable hl h.tree k⟩

theorem Orderly.unlink (hrem : CanRemove t d e i) (h : Orderly ninodes t) :
    Orderly ninodes (unlinkTable t d e i) := by
  have hno := hrem.no_entry (h.tree.inode i)
  refine ⟨h.tree.unlink hrem, fun j hr e' k hent => ?_, fun j hj hr => ?_⟩
  · replace hent := ((entry_unlinkTable hrem h.tree).mp hent).1
    rcases eq_or_ne j i with rfl | hji
    · exact hno e' k hent
    · rw [removed_unlinkTable hrem h.tree hji] at hr
      exact h.empty j hr e' k hent
  rw [type_unlinkTable hrem h.tree] at hj
  have hji : j ≠ i := by
    rintro rfl
    exact (h.tree.unlink hrem).not_unlinked ((type_unlinkTable hrem h.tree j).trans hj) hr
      (h.tree.unlinked_unlinkTable hrem hj)
  rw [removed_unlinkTable hrem h.tree hji] at hr
  refine (h.conn j hj hr).map (P := (· ≠ i)) hji fun d' e' k hent hk => ?_
  refine ⟨?_, (entry_unlinkTable hrem h.tree).mpr ⟨hent, ?_⟩, type_unlinkTable hrem h.tree k⟩
  · rintro rfl
    exact hno e' k hent
  · rintro ⟨rfl, rfl⟩
    exact hk (hent.slot.symm.trans hrem.inum)

/-! ### Runs -/

/-- The condition on changes: names are made only in directories with links. Link counts may not
overflow. -/
def AddsToLinked (n : Ns) : Event → Prop
  | .make d _ _ _ _ _ => (n.table d).nlink ≠ 0
  | .link d _ i => (n.table d).nlink ≠ 0 ∧ (n.table i).nlink.toInt < 32767
  | _ => True

theorem Orderly.step {ev : Event} (hN : ninodes ≤ 65536) (h : Orderly ninodes n.table)
    (hok : AddsToLinked n ev) (hs : Step ninodes n ev n') : Orderly ninodes n'.table := by
  cases hs with
  | hold _ => exact h
  | release _ _ => exact h.reaped
  | make hadd hpos hlt hfree htype =>
    exact (h.make ⟨hN, hadd, hpos, hlt, hfree, htype⟩ (h.not_removed hadd.dir hok)).reaped
  | link hadd h₀ hnd =>
    exact (h.link ⟨hN, hadd, h₀, hnd⟩ (h.not_removed hadd.dir hok.1) hok.2).reaped.reaped
  | unlink hrem => exact (h.unlink hrem).reaped.reaped

theorem Orderly.settles (hN : ninodes ≤ 65536) (h : Orderly ninodes n.table)
    (hs : Settles ninodes n n') : Orderly ninodes n'.table := by
  refine hs.keeps (I := fun n => Orderly ninodes n.table) h ?_
  rintro m m' hm ⟨i, hs | hs⟩
  · have hK : AddsToLinked m (.hold i) := trivial
    exact hm.step hN hK hs
  · have hK : AddsToLinked m (.release i) := trivial
    exact hm.step hN hK hs

theorem Start.orderly (h : Start ninodes s) : Orderly ninodes s.disk where
  tree := h.image.tree
  empty d hr := absurd hr (h.image.conn d hr.dir).not_removed
  conn d hd _ := h.image.conn d hd

inductive FromRoot (t : ℕ → Dinode) : ℕ → Prop
  | root : FromRoot t ROOTINO
  | entry {d e : ℕ} : FromRoot t d → (t d).type = T_DIR → slots (t d).data e ≠ 0 →
      FromRoot t (slots (t d).data e)

theorem Entry.fromRoot (h : Entry t d e i) (hd : FromRoot t d) : FromRoot t i :=
  h.slot ▸ .entry hd h.dir (h.slot ▸ h.ne_zero)

theorem Conn.fromRoot (h : Conn t d) : FromRoot t d := by
  induction h with
  | root => exact .root
  | child _ hent _ ih => exact hent.fromRoot ih

theorem Orderly.fromRoot (h : Orderly ninodes t) (h₀ : (t i).type ≠ 0) (hn : (t i).nlink ≠ 0) :
    FromRoot t i := by
  by_cases hd : (t i).type = T_DIR
  · exact (h.conn i hd (h.not_removed hd hn)).fromRoot
  have hcount := h.tree.fileExact trivial i h₀ hd
  have hpos := h.tree.nlink_nonneg h₀
  have hne : (t i).nlink.toInt ≠ 0 := fun hz => hn (Int16.toInt_inj.mp hz)
  have hlinks : links ninodes t i ≠ 0 := by omega
  obtain ⟨d, e, hent⟩ := exists_entry_of_links ((h.tree.inode i).bound h₀).1.ne' hlinks
  have hr : ¬ Removed t d := fun hr => h.empty d hr e i hent
  exact hent.fromRoot (h.conn d hent.dir hr).fromRoot

/-- **No inode is orphaned**, if names are made only in directories with links: once nothing is in
use, every allocated inode is reachable from the root. -/
theorem no_orphan (h : Reachable (step ninodes) (OnlyCauses ninodes AddsToLinked) (Start ninodes) s)
    (hq : Quiescent s.view) (i : ℕ) (hi : (s.disk i).type ≠ 0) : FromRoot s.disk i := by
  obtain ⟨hb, hI⟩ := reachable_keeps (I := fun n => Orderly ninodes n.table)
    (fun _ _ => ⟨trivial, trivial⟩) (fun _ _ _ hN hI hK hs => hI.step hN hK hs) h
    fun s hs => hs.orderly
  by_cases hn : (s.disk i).nlink = 0
  · have hcached := (hb.base.kept i ⟨hi, hn⟩).resolve_right id
    rw [hq.eq_root hb.rest (View.mem_cached.mp hcached)]
    exact .root
  · exact Orderly.fromRoot hI hi hn

/-- A test for `Quiescent`. -/
def isQuiescent (s : Kernel) : Bool :=
  (∀ p fd, (s.procs p).ofile fd = none) ∧
    ∀ p, (s.procs p).live = true → (s.view.cache (s.procs p).cwd).map Held.inum = some ROOTINO

theorem quiescent_of_test (h : isQuiescent s = true) : Quiescent s.view := by
  obtain ⟨hfiles, hhome⟩ := of_decide_eq_true h
  refine ⟨hfiles, fun p hp => ?_⟩
  obtain ⟨x, hx, hroot⟩ := Option.map_eq_some_iff.mp (hhome p hp)
  exact ⟨x.more, hx.trans (by rw [← hroot])⟩

theorem no_orphan_mkdir : ∃ s, step 200 boot (0, .mkdir (some [97])) = some s ∧
    (s.disk 2).type = T_DIR ∧ FromRoot s.disk 2 := by
  obtain ⟨s, hs, hq⟩ := (Option.any_eq_true _ _).mp (by decide +kernel :
    (step 200 boot (0, .mkdir (some [97]))).any
      (fun s => (s.disk 2).type = T_DIR ∧ isQuiescent s = true) = true)
  obtain ⟨hdir, hquiet⟩ := of_decide_eq_true hq
  refine ⟨s, hs, hdir, no_orphan (.step (.start start_boot) (fun ev n hwhy _ => ?_) hs)
    (quiescent_of_test hquiet) 2 (ne_zero_of_dir hdir)⟩
  cases ev with
  | make d name i type major minor =>
    change (bootDisk d).nlink ≠ 0
    rw [eq_root_of_bootDisk (ne_zero_of_dir (resolve_parent hwhy.2))]
    decide
  | hold i | release i | link d name i | unlink d e i => exact hwhy.elim

/-- After `mkdir("d")`, `chdir("d")`, `unlink("/d")`, `open("f", O_CREATE)`, `close(0)` and
`chdir("/")`, nothing is in use, the only names are those of the root for itself, and inode 3 is
allocated. -/
theorem file_orphaned : ∃ s, Reachable (step 200) (fun _ _ => True) (Start 200) s ∧
    Quiescent s.view ∧ (s.disk 3).type = T_FILE ∧ ¬ FromRoot s.disk 3 := by
  obtain ⟨s, hs, hq⟩ := Reachable.exists_of_exec
    [(0, .mkdir (some [100])), (0, .chdir (some [100])), (0, .unlink (some [47, 100])),
      (0, .open (some [102]) O_CREATE), (0, .close 0), (0, .chdir (some [47]))]
    (fun s => isQuiescent s = true ∧ (s.disk 3).type = T_FILE ∧ (s.disk ROOTINO).data.length = 48 ∧
      ∀ e : Fin 3, slots (s.disk ROOTINO).data e = 0 ∨ slots (s.disk ROOTINO).data e = ROOTINO)
    (.start start_boot : Reachable (step 200) (fun _ _ => True) (Start 200) boot)
    (by decide +kernel)
  obtain ⟨hquiet, hfile, hlen, hslots⟩ := of_decide_eq_true hq
  refine ⟨s, hs, quiescent_of_test hquiet, hfile, fun hr => ?_⟩
  have hroot : ∀ i, FromRoot s.disk i → i = ROOTINO := by
    intro i hi
    induction hi with
    | root => rfl
    | @entry d e _ _ he ih =>
    subst ih
    rcases Nat.lt_or_ge e 3 with hlt | hge
    · exact (hslots ⟨e, hlt⟩).resolve_left he
    refine absurd (entry_of_nentries_le ?_ ?_) he
    · rw [hlen]
      rfl
    · rw [nentries, hlen]
      exact hge
  exact absurd (hroot 3 hr) (by decide)

end Xv6.Names
