import Xv6.Names.Resolve

/-!
# `unlink`

Removing a name. Both inodes are locked while the entry is cleared; the directory is dropped first,
then the inode, and either may be freed then.
-/

namespace Xv6.Names

open Hoare Function

variable {v : View} {dp ip : Ptr} {d i e : ℕ} {E : Stop → Prop}

def clearedDir (t : ℕ → Dinode) (d e i : ℕ) : Dinode :=
  { t d with
    data := putEntry (t d).data e Dirent.free
    nlink := if (t i).type = T_DIR then (t d).nlink - 1 else (t d).nlink }

theorem unlinkTable_eq (t : ℕ → Dinode) (d e i : ℕ) : unlinkTable t d e i =
    update (update t d (clearedDir t d e i)) i { t i with nlink := (t i).nlink - 1 } := rfl

theorem length_free : Dirent.free.encode.length = DESIZE := rfl

theorem Both.via_clear {R : ℤ → View → Prop} (h : Both v dp d ip i)
    (hdir : (v.inode d).type = T_DIR) (he : e < nentries (v.inode d).data)
    (hR : R DESIZE ((bothLocked v dp d ip i).setInode d
      { v.inode d with data := putEntry (v.inode d).data e Dirent.free })) :
    Via Shows (writei dp Dirent.free.encode (DESIZE * e)) R E (bothLocked v dp d ip i) := by
  have hdata := h.look.dirs d hdir
  have hin : DESIZE * e + DESIZE ≤ (v.inode d).data.length := by
    rw [hdata.length_eq]
    exact Nat.mul_le_mul_left DESIZE he
  refine via_writei h.at_dir h.locked_dir (Nat.le_of_add_right_le hin) hdata.le
    (length_free ▸ by decide) (fun _ => hR) fun hgt => absurd hgt (not_lt.mpr ?_)
  rw [length_free]
  exact hin.trans hdata.le

theorem via_unlinkLocked {R : ℤ → View → Prop} (h : Both v dp d ip i)
    (hdir : (v.inode d).type = T_DIR) (he : e < nentries (v.inode d).data)
    (htype : (v.inode i).type ≠ 0) (hfail : R (-1) v)
    (hok : ¬ (v.inode i).nlink < 1 → ((v.inode i).type = T_DIR → EmptyFrom (v.inode i).data 2) →
      R 0 (v.withTable (reap v.cached i (reap v.cached d (unlinkTable v.inode d e i)))))
    (hE : (v.inode i).nlink < 1 → E .unlinkNlink) :
    Via Shows (unlinkLocked dp ip (DESIZE * e)) R E (bothLocked v dp d ip i) := by
  have hl : (bothLocked v dp d ip i).locked ip = true := View.locked_lock_self
  refine Via.bind_eq (via_inode (R := fun x w => x = v.inode i ∧ bothLocked v dp d ip i = w)
    h.at_inode hl ⟨rfl, rfl⟩) ?_
  refine Via.ite (fun hlow => Via.throw (hE hlow)) fun hn => ?_
  refine Via.bind (R := fun b w => (b = true ↔ ((v.inode i).type = T_DIR →
    EmptyFrom (v.inode i).data 2)) ∧ bothLocked v dp d ip i = w) ?_ ?_
  · refine Via.ite (fun ht => ?_) fun ht => Via.pure ⟨⟨fun _ h => absurd h ht, fun _ => rfl⟩, rfl⟩
    refine via_isdirempty h.at_inode hl (h.look.dirs i ht) fun b hb => ⟨?_, rfl⟩
    rw [hb]
    exact ⟨fun hemp _ => hemp, fun hemp => hemp ht⟩
  rintro b _ ⟨hb, rfl⟩
  refine Via.ite (fun hbad => ?_) fun hgood => ?_
  · refine Via.seq (u := oneLocked v dp d) (via_iunlockput h.at_inode hl h.leave_inode) ?_
    exact h.look.via_leave h.gd (Via.pure hfail)
  have hempty := hb.mp (not_not.mp hgood)
  refine Via.cont (h.via_clear hdir he ?_)
  refine Via.ite (fun hne => absurd rfl hne) fun _ => ?_
  refine Via.bind (R := fun _ w => w = (bothLocked v dp d ip i).setInode d
    (clearedDir v.inode d e i)) ?_ ?_
  · refine Via.ite (fun ht => ?_) fun ht => Via.pure ?_
    · refine via_updateInode h.at_dir h.locked_dir ?_ ?_
      · rw [View.inode_setInode, update_self]
        exact ne_zero_of_dir hdir
      · rw [View.setInode_setInode, View.inode_setInode, update_self, clearedDir, if_pos ht]
    · rw [clearedDir, if_neg ht]
  rintro _ _ rfl
  obtain ⟨t, ht⟩ : ∃ t, t = reap v.cached d
      (update v.inode d (clearedDir v.inode d e i)) := ⟨_, rfl⟩
  refine Via.seq (u := oneLocked (v.withTable t) ip i) (via_iunlockput h.at_dir h.locked_dir
    (ht ▸ h.put_dir (update v.inode d (clearedDir v.inode d e i)))) ?_
  have hsame : t i = v.inode i := by
    rw [ht, reap_apply_of_ne h.ne.symm, update_of_ne h.ne.symm]
  have htype' : (t i).type ≠ 0 := hsame ▸ htype
  have hat : (oneLocked (v.withTable t) ip i).At ip i := h.gets.at_take
  have hl' : (oneLocked (v.withTable t) ip i).locked ip = true := View.locked_lock_self
  refine Via.seq (u := oneLocked (v.withTable (update t i
    { t i with nlink := (t i).nlink - 1 })) ip i) (via_updateInode hat hl' htype' rfl) ?_
  refine Via.cont (via_iunlockput hat hl' ?_)
  rw [put_oneLocked h.look.quiet h.gets, hsame, ht, ← reap_update_of_ne h.ne, ← unlinkTable_eq]
  exact Via.pure (hok hn hempty)

/-- The name that `unlink` looks up: entry `e` of directory `d`, for inode `i`. -/
structure Unlinks (v : View) (p : Fin NPROC) (path : Path) (d e i : ℕ) : Prop where
  dir : (v.inode d).type = T_DIR
  lt : e < nentries (v.inode d).data
  inum : (entry (v.inode d).data e).inum = i
  ne_zero : i ≠ 0
  ne_dot : cname (entry (v.inode d).data e).name ≠ dot
  ne_dotdot : cname (entry (v.inode d).data e).name ≠ dotdot
  why : Why v p (.unlink (some path)) (.unlink d e i)

theorem via_sysUnlink_of {ninodes : ℕ} {p : Fin NPROC} {path : Path} (hv : Idle v)
    (hp : (v.procs p).live = true)
    (hres : ∀ e, resolve v p true path = .error e → E e) (hfull : E .igetNoInodes)
    (hfree : ∀ d e i, Unlinks v p path d e i → (v.inode i).type = 0 → E .ilockNoType)
    (hlow : ∀ d e i, Unlinks v p path d e i → (v.inode i).nlink < 1 → E .unlinkNlink) :
    Via Shows (sysUnlink p (some path)) (Leaves ninodes v p (.unlink (some path))) E v := by
  have hidle : Leaves ninodes v p (.unlink (some path)) (-1) v := hv.leaves id id
  obtain ⟨cwd, hcwd⟩ := hv.rest.exact.at_cwd hp
  unfold sysUnlink
  refine Via.cont (via_namex hv.lookable hcwd (fun _ => Via.pure hidle)
    (fun dp d name hres hg => ?_) hres)
  have hdir := resolve_parent hres
  refine Via.cont (via_ilock hg.at_take (hv.rest.quiet dp) (fun _ => ?_)
    fun h => absurd h (ne_zero_of_dir hdir))
  have hat : ((v.take dp d).lock dp).At dp d := hg.at_take
  have hl : ((v.take dp d).lock dp).locked dp = true := View.locked_lock_self
  have hleave : Via Shows (do iunlockput dp; return -1)
      (Leaves ninodes v p (.unlink (some path))) E ((v.take dp d).lock dp) := by
    exact hv.lookable.via_leave hg (Via.pure hidle)
  refine Via.ite (fun _ => hleave) fun hname => ?_
  refine Via.cont (via_dirlookup hat hl hdir (hv.dirs d hdir) (hv.kept.take hg) (fun _ => hleave)
    (fun ip e i hf hg' => ?_) fun _ _ _ _ => hfull)
  obtain ⟨hlt, hinum, hne0, hcname⟩ := find_eq_some hf
  have hdots : cname name ≠ dot ∧ cname name ≠ dotdot := by
    refine ⟨fun h => hname (.inl ?_), fun h => hname (.inr ?_)⟩
    · exact (namecmp_eq_zero_iff _ _).mpr h
    · exact (namecmp_eq_zero_iff _ _).mpr h
  have hfound : Unlinks v p path d e i :=
    ⟨hdir, hlt, hinum, hne0, hcname ▸ hdots.1, hcname ▸ hdots.2, name, hres, hf⟩
  have hne : d ≠ i := by
    rintro rfl
    rcases hv.self d e name hdir hf with h | h
    · exact hdots.1 h
    · exact hdots.2 h
  have hboth : Both v dp d ip i := ⟨hv.lookable, hg, View.gets_lock.mp hg', hne⟩
  refine Via.cont (via_ilock hg'.at_take ?_ (fun htype => ?_) (hfree d e i hfound))
  · exact (View.locked_lock_of_ne hboth.ptr_ne.symm).trans (hv.rest.quiet ip)
  refine via_unlinkLocked hboth hdir hlt htype hidle (fun hn hempty => ?_) (hlow d e i hfound)
  have hrem : CanRemove v.inode d e i := ⟨hdir, hlt, hinum, hne0, hfound.ne_dot,
    hfound.ne_dotdot, hne.symm, htype, hn, hempty⟩
  exact ⟨⟨hv.rest.withTable _, .of_step hfound.why (.unlink hrem), id, nofun⟩, .withTable v _⟩

theorem via_sysUnlink {ninodes : ℕ} {p : Fin NPROC} {path : Option Path} (hv : Idle v)
    (hp : (v.procs p).live = true) :
    Via Shows (sysUnlink p path) (Leaves ninodes v p (.unlink path))
      (Err v p (.unlink path)) v := by
  cases path with
  | none => exact Via.pure (hv.leaves id id)
  | some path =>
  refine via_sysUnlink_of hv hp (fun e he => hv.resolve_error hp id he)
    (.other id (by decide) (by decide)) (fun d e i hu ht => .of_free id fun hc => ?_)
    fun _ _ _ _ _ => .other id (by decide) (by decide)
  obtain ⟨name, -, hf⟩ := hu.why
  exact hc.entries d e name i hu.dir hf ht

end Xv6.Names
