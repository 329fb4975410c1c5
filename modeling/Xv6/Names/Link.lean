import Xv6.Names.Resolve

/-!
# `link`

Adding a name to an inode. The link count goes up first; if the new name cannot be stored it goes
down again, and nothing has changed.

The new name may be one under which its directory finds itself. Then `dirlink` drops a reference to
the directory while the directory is locked.
-/

namespace Xv6.Names

open Hoare Function

variable {v : View} {dp ip : Ptr} {d i : ℕ} {name : List UInt8} {E : Stop → Prop}

/-- The view while `link` looks up the new name: the inode is held and has one link more. -/
def linking (v : View) (ip : Ptr) (i : ℕ) : View :=
  (v.take ip i).setInode i { v.inode i with nlink := (v.inode i).nlink + 1 }

theorem inode_linking_self : (linking v ip i).inode i =
    { v.inode i with nlink := (v.inode i).nlink + 1 } := update_self ..

theorem inode_linking_of_ne (h : d ≠ i) : (linking v ip i).inode d = v.inode d :=
  update_of_ne h ..

theorem Lookable.linking (hv : Lookable v) (hg : v.Gets ip i) (hd : (v.inode i).type ≠ T_DIR) :
    Lookable (linking v ip i) where
  quiet := hv.quiet
  kept j hj := by
    rcases eq_or_ne j i with rfl | hne
    · exact ⟨ip, hg.at_take⟩
    · refine hv.kept.take hg j ?_
      unfold View.Unlinked at hj ⊢
      rwa [inode_linking_of_ne hne] at hj
  dirs j hj := by
    rcases eq_or_ne j i with rfl | hne
    · rw [inode_linking_self] at hj
      exact absurd hj hd
    · rw [inode_linking_of_ne hne] at hj ⊢
      exact hv.dirs j hj

theorem via_undoLink {R : ℤ → View → Prop} (hv : Lookable v) (hg : v.Gets ip i)
    (h₀ : (v.inode i).type ≠ 0) (h : R (-1) v) :
    Via Shows (do
      ilock ip
      updateInode ip fun d => { d with nlink := d.nlink - 1 }
      iunlockput ip
      return -1) R E (linking v ip i) := by
  have hat : ((linking v ip i).lock ip).At ip i := hg.at_take
  have h₀' : ((linking v ip i).inode i).type ≠ 0 := inode_linking_self ▸ h₀
  refine Via.cont (via_ilock hg.at_take (hv.quiet ip) (fun _ => ?_) fun ht => absurd ht h₀')
  have hback : ({ (linking v ip i).inode i with
      nlink := ((linking v ip i).inode i).nlink - 1 } : Dinode) = v.inode i := by
    rw [inode_linking_self]
    simp only [Int16.add_sub_cancel]
  refine Via.bind (via_updateInode (R := fun _ w => w = (v.take ip i).lock ip) hat
    View.locked_lock_self h₀' ?_) ?_
  · rw [View.inode_lock, hback]
    ext1
    case inode =>
      change update (update v.inode i _) i (v.inode i) = v.inode
      rw [update_idem, update_eq_self]
    all_goals rfl
  rintro _ _ rfl
  exact hv.via_leave hg (Via.pure h)

theorem put_linking (hv : Lookable v) (hg : v.Gets ip i) (hgd : (linking v ip i).Gets dp d)
    (hne : d ≠ i) :
    (((((linking v ip i).take dp d).lock dp).setInode d ((v.inode d).addEntry name i)).unlock
      dp).put dp d = (v.take ip i).withTable (reap v.cached d (linkTable v.inode d name i)) := by
  have hcached : (linking v ip i).cached = insert i v.cached := View.cached_take_eq hg
  rw [put_of_gets (u := View.unlock _ dp) hgd rfl, hcached, reap_insert_of_ne hne]
  refine View.eq_withTable hv.quiet (fun k => ?_) rfl rfl rfl rfl
  change update (update v.locked dp true) dp false k = false
  rw [update_idem, update_apply]
  split
  · rfl
  · exact hv.quiet k

theorem put_linked (hg : v.Gets ip i) (t : ℕ → Dinode) :
    ((v.take ip i).withTable t).put ip i = v.withTable (reap v.cached i t) :=
  put_of_gets (u := View.withTable _ t) hg rfl

theorem via_linkInto {R : ℤ → View → Prop} (hv : Lookable v) (hg : v.Gets ip i)
    (h₀ : (v.inode i).type ≠ 0) (hnd : (v.inode i).type ≠ T_DIR) (hgd : (linking v ip i).Gets dp d)
    (hd : (v.inode d).type = T_DIR) {bad : KM ℤ}
    (hbad : (∀ e, find (v.inode d).data name ≠ some (e, d)) → Via Shows bad R E (linking v ip i))
    (hdup : ∀ e, find (v.inode d).data name = some (e, d) → E .deadlock)
    (hok : CanAdd v.inode d name →
      R 0 (v.withTable (reap v.cached i (reap v.cached d (linkTable v.inode d name i)))))
    (hE : (∀ e, find (v.inode d).data name ≠ some (e, d)) → E .igetNoInodes ∧ E .dirlink) :
    Via Shows (do
      let e ← incore ip
      let r ← dirlink dp name e.inum
      if r < 0 then do
        iunlockput dp
        bad
      else do
        iunlockput dp
        iput ip
        return 0) R E (((linking v ip i).take dp d).lock dp) := by
  have hne : d ≠ i := by
    rintro rfl
    exact hnd hd
  have hv' := hv.linking hg hnd
  have hsame : (linking v ip i).inode d = v.inode d := inode_linking_of_ne hne
  have hat : (((linking v ip i).take dp d).lock dp).At dp d := hgd.at_take
  have hl : (((linking v ip i).take dp d).lock dp).locked dp = true := View.locked_lock_self
  have hd' : ((linking v ip i).inode d).type = T_DIR := hsame ▸ hd
  have hdata := hv'.dirs d hd'
  have hkept := hv'.kept.take hgd
  refine Via.cont (via_incore (hg.at_take.take dp d) fun e he => ?_)
  rw [he]
  cases hfind : find (v.inode d).data name with
  | none =>
    have hself : ∀ e, find (v.inode d).data name ≠ some (e, d) := by
      intro e hf
      rw [hfind] at hf
      cases hf
    refine Via.bind (via_dirlink_new (R := fun r w => r = 0 ∧ CanAdd v.inode d name ∧
      w = (((linking v ip i).take dp d).lock dp).setInode d ((v.inode d).addEntry name i)) hat hl
      hd' hdata hkept (hsame ▸ hfind) (fun hfit => ?_) (hE hself).2) ?_
    · refine ⟨rfl, ⟨hd, hfind, hsame ▸ hfit⟩, ?_⟩
      change View.setInode _ d (((linking v ip i).inode d).addEntry name i) = _
      rw [hsame]
    rintro _ _ ⟨rfl, hadd, rfl⟩
    refine Via.seq (u := (v.take ip i).withTable (reap v.cached d (linkTable v.inode d name i)))
      (via_iunlockput hat hl (put_linking hv hg hgd hne)) ?_
    refine Via.seq (u := v.withTable
      (reap v.cached i (reap v.cached d (linkTable v.inode d name i)))) (via_iput hg.at_take
      (hv.quiet ip) fun _ => put_linked hg _) ?_
    exact Via.pure (hok hadd)
  | some r =>
    obtain ⟨e', j⟩ := r
    rcases eq_or_ne j d with rfl | hjd
    · exact Via.cont (via_dirlink_self hat hl hd' hdata hkept (hsame ▸ hfind) (hdup e' hfind))
    have hself : ∀ e, find (v.inode d).data name ≠ some (e, d) := by
      intro e hf
      rw [hfind] at hf
      cases hf
      exact hjd rfl
    have honly : ∀ k, (((linking v ip i).take dp d).lock dp).locked k = true → k = dp := by
      intro k hk
      by_contra hkd
      rw [View.locked_lock_of_ne hkd] at hk
      exact Bool.false_ne_true ((hv.quiet k).symm.trans hk)
    exact Via.cont (via_dirlink_found hat hl hd' hdata hkept (hsame ▸ hfind) honly hjd
      (hv'.via_leave hgd (hbad hself)) fun _ => (hE hself).1)

theorem via_sysLink {ninodes : ℕ} {p : Fin NPROC} {old new : Option Path} (hv : Idle v)
    (hp : (v.procs p).live = true) :
    Via Shows (sysLink p old new) (Leaves ninodes v p (.link old new))
      (Err v p (.link old new)) v := by
  have hidle : ¬ BadLink v p (.link old new) → Leaves ninodes v p (.link old new) (-1) v :=
    fun hb => hv.leaves hb id
  obtain ⟨cwd, hcwd⟩ := hv.rest.exact.at_cwd hp
  cases old with
  | none => exact Via.pure (hidle nofun)
  | some old =>
  cases new with
  | none => exact Via.pure (hidle nofun)
  | some new =>
  have hunresolved : (∀ i x, resolve v p false old ≠ .ok (some (i, x))) →
      ¬ BadLink v p (.link (some old) (some new)) :=
    fun h ⟨i, x, _, _, _, _, hres, _⟩ => h i x hres
  refine Via.cont (via_namei hv.lookable hcwd (fun hnone => ?_) (fun ip i x hres hg => ?_)
    fun e he => ?_)
  rotate_left 2
  · refine hv.resolve_error hp (hunresolved fun i x hres => ?_) he
    rw [he] at hres
    cases hres
  · refine Via.pure (hidle (hunresolved fun i x hres => ?_))
    rw [hnone] at hres
    cases hres
  have hfirst : ¬ ((v.inode i).type ≠ 0 ∧ (v.inode i).type ≠ T_DIR) →
      ¬ BadLink v p (.link (some old) (some new)) := by
    rintro h ⟨i', x', _, _, _, _, hres', h₀, hnd, -⟩
    rw [hres] at hres'
    cases hres'
    exact h ⟨h₀, hnd⟩
  refine Via.cont (via_ilock hg.at_take (hv.rest.quiet ip) (fun h₀ => ?_) fun ht =>
    .of_free (hfirst fun h => h.1 ht) fun hc => hv.resolve_live hp hc hres ht)
  have hat : ((v.take ip i).lock ip).At ip i := hg.at_take
  have hl : ((v.take ip i).lock ip).locked ip = true := View.locked_lock_self
  refine Via.cont (via_inode hat hl ?_)
  refine Via.ite (fun hd => ?_) fun hnd => ?_
  · exact hv.lookable.via_leave hg (Via.pure (hidle (hfirst fun h => h.2 hd)))
  have hbad := badLink_iff new hcwd hres h₀ hnd hg
  refine Via.seq (u := (linking v ip i).lock ip) (via_updateInode hat hl h₀ rfl) ?_
  refine Via.seq (u := linking v ip i) (via_iunlock hat hl (View.unlock_lock (hv.rest.quiet ip))) ?_
  -- the directory of the new name
  have hres₂ : resolve (linking v ip i) p true new = resolve (v.take ip i) p true new :=
    resolve_setInode (v := v.take ip i) h₀ hnd rfl
  have hcwd' : (linking v ip i).At ((linking v ip i).procs p).cwd cwd := hcwd.take ip i
  refine Via.cont (via_namex (hv.lookable.linking hg hnd) hcwd' (fun hnone => ?_)
    (fun dp d name hres' hgd => ?_) fun e he => ?_)
  rotate_left 2
  · rw [hres₂] at he
    refine hv.resolve_take_error hp (fun h => ?_) he
    obtain ⟨d, n, e', hnew, -⟩ := hbad.mp h
    rw [he] at hnew
    cases hnew
  · refine via_undoLink hv.lookable hg h₀ (hidle ?_)
    rw [hres₂] at hnone
    rw [hbad]
    rintro ⟨d, n, e, hnew, -⟩
    rw [hnone] at hnew
    cases hnew
  rw [hres₂] at hres'
  have hd : (v.inode d).type = T_DIR := resolve_parent (v := v.take ip i) hres'
  have hbad' : BadLink v p (.link (some old) (some new)) ↔
      ∃ e, find (v.inode d).data name = some (e, d) := by
    rw [hbad]
    refine ⟨fun ⟨d', n, e, hnew, hf⟩ => ?_, fun ⟨e, hf⟩ => ⟨d, name, e, hres', hf⟩⟩
    rw [hres'] at hnew
    cases hnew
    exact ⟨e, hf⟩
  have hd' : ((linking v ip i).inode d).type ≠ 0 := by
    have hne : d ≠ i := by
      rintro rfl
      exact hnd hd
    rw [inode_linking_of_ne hne]
    exact ne_zero_of_dir hd
  have hgood : (∀ e, find (v.inode d).data name ≠ some (e, d)) →
      ¬ BadLink v p (.link (some old) (some new)) :=
    fun hself h => (hbad'.mp h).elim hself
  refine Via.cont (via_ilock hgd.at_take (hv.rest.quiet dp) (fun _ => ?_) fun ht => absurd ht hd')
  refine via_linkInto hv.lookable hg h₀ hnd hgd hd
    (fun hself => via_undoLink hv.lookable hg h₀ (hidle (hgood hself))) (fun e hf => ?_)
    (fun hadd => ?_) fun hself => ?_
  · exact ⟨⟨fun _ => hbad'.mpr ⟨e, hf⟩, fun _ => rfl⟩, nofun⟩
  · have hself : ∀ e, find (v.inode d).data name ≠ some (e, d) := by
      intro e hf
      rw [hadd.new] at hf
      cases hf
    have hwhy : Why v p (.link (some old) (some new)) (.link d name i) :=
      ⟨⟨x, hres⟩, resolve_take hg hcwd hres'⟩
    exact ⟨⟨hv.rest.withTable _, .of_step hwhy (.link hadd h₀ hnd), hgood hself, nofun⟩,
      .withTable v _⟩
  · exact ⟨.other (hgood hself) (by decide) (by decide),
      .other (hgood hself) (by decide) (by decide)⟩

end Xv6.Names
