import Xv6.Names.Resolve

/-!
# `open`, `mkdir` and `mknod`

Making an inode under a new name, or opening one that is there. `create` returns an inode held and
locked; what it did to the name space up to there is the event `make`, or nothing.
-/

namespace Xv6.Names

open Hoare Function

variable {v : View} {dp ip : Ptr} {d i : ℕ} {name : List UInt8} {type major minor : Int16}
  {E : Stop → Prop} {ninodes : ℕ} {p : Fin NPROC} {c : Call}

/-! ### A new inode -/

def freshInode (type major minor : Int16) : Dinode := ⟨type, major, minor, 1, []⟩

def newInode (i d : ℕ) (type major minor : Int16) : Dinode :=
  ⟨type, major, minor, 1, if type = T_DIR then dotData i d else []⟩

/-- The directory that gets a new inode: a new directory links to it. -/
def parentInode (x : Dinode) (type : Int16) : Dinode :=
  if type = T_DIR then { x with nlink := x.nlink + 1 } else x

theorem makeTable_eq (t : ℕ → Dinode) (d : ℕ) (name : List UInt8) (i : ℕ)
    (type major minor : Int16) : makeTable t d name i type major minor =
    update (update t i (newInode i d type major minor)) d
      ((parentInode (t d) type).addEntry name i) := rfl

theorem type_parentInode (x : Dinode) (type : Int16) : (parentInode x type).type = x.type := by
  unfold parentInode
  split <;> rfl

theorem data_parentInode (x : Dinode) (type : Int16) : (parentInode x type).data = x.data := by
  unfold parentInode
  split <;> rfl

theorem dirData_nil : DirData [] := ⟨rfl, by decide⟩

theorem dirData_dotEntry (i : ℕ) : DirData (dotEntry i) := by
  have hlen : (dotEntry i).length = DESIZE := length_putEntry (Nat.zero_le _) rfl
  constructor
  · rw [hlen, Nat.mod_self]
  · rw [hlen]
    decide

theorem addEntry_dot (x : Dinode) (h : x.data = []) (i : ℕ) :
    x.addEntry dot i = { x with data := dotEntry i } := by
  rw [Dinode.addEntry, h]
  rfl

theorem addEntry_dotdot (x : Dinode) (h : x.data = dotEntry i) (h₀ : i ≠ 0) (hlt : i < 65536)
    (d : ℕ) : x.addEntry dotdot d = { x with data := dotData i d } := by
  rw [Dinode.addEntry, h, firstFree_dotEntry h₀ hlt]
  rfl

/-- The table while `create` works on a new inode `x` in directory `d`, which has become `y`. -/
def makingTable (t : ℕ → Dinode) (d i : ℕ) (x y : Dinode) : ℕ → Dinode :=
  update (update t i x) d y

section Making

variable {t : ℕ → Dinode} {x y z : Dinode}

theorem makingTable_dir : makingTable t d i x y d = y := update_self ..

theorem makingTable_inode (h : d ≠ i) : makingTable t d i x y i = x := by
  rw [makingTable, update_of_ne h.symm, update_self]

theorem makingTable_other {j : ℕ} (hd : j ≠ d) (hi : j ≠ i) : makingTable t d i x y j = t j := by
  rw [makingTable, update_of_ne hd, update_of_ne hi]

theorem update_makingTable_dir : update (makingTable t d i x y) d z = makingTable t d i x z := by
  rw [makingTable, update_idem, makingTable]

theorem update_makingTable_inode (h : d ≠ i) :
    update (makingTable t d i x y) i z = makingTable t d i z y := by
  rw [makingTable, update_comm h, update_idem, makingTable]

end Making

/-- The view while `create` works on a new inode. -/
def making (v : View) (dp : Ptr) (d : ℕ) (ip : Ptr) (i : ℕ) (x y : Dinode) : View :=
  (bothLocked v dp d ip i).withTable (makingTable v.inode d i x y)

section

variable {x y z : Dinode} {R : ℤ → View → Prop}

theorem setInode_making_dir : (making v dp d ip i x y).setInode d z = making v dp d ip i x z :=
  congrArg (bothLocked v dp d ip i).withTable update_makingTable_dir

theorem Both.setInode_making_inode (h : Both v dp d ip i) :
    (making v dp d ip i x y).setInode i z = making v dp d ip i z y :=
  congrArg (bothLocked v dp d ip i).withTable (update_makingTable_inode h.ne)

theorem Both.kept_making (h : Both v dp d ip i) : (making v dp d ip i x y).Kept :=
  h.kept fun _ hd hi => makingTable_other hd hi

theorem Both.via_dirlink_inode (h : Both v dp d ip i) {inum : ℕ} (hx : x.type = T_DIR)
    (hdata : DirData x.data) (hnew : find x.data name = none)
    (hR : R 0 (making v dp d ip i (x.addEntry name inum) y)) (hE : E .dirlink) :
    Via Shows (dirlink ip name inum) R E (making v dp d ip i x y) := by
  have hself : (making v dp d ip i x y).inode i = x := makingTable_inode h.ne
  refine via_dirlink_new (v := making v dp d ip i x y) (d := i) h.at_inode View.locked_lock_self
    ?_ ?_ h.kept_making ?_ (fun _ => ?_) hE
  · rwa [hself]
  · rwa [hself]
  · rwa [hself]
  · rwa [hself, h.setInode_making_inode]

theorem Both.via_dirlink_dir (h : Both v dp d ip i) {inum : ℕ} (hy : y.type = T_DIR)
    (hdata : DirData y.data) (hnew : find y.data name = none)
    (hR : DESIZE * firstFree y.data + DESIZE ≤ MAXFILE * BSIZE →
      R 0 (making v dp d ip i x (y.addEntry name inum))) (hE : E .dirlink) :
    Via Shows (dirlink dp name inum) R E (making v dp d ip i x y) := by
  have hself : (making v dp d ip i x y).inode d = y := makingTable_dir
  refine via_dirlink_new (v := making v dp d ip i x y) (d := d) h.at_dir h.locked_dir ?_ ?_
    h.kept_making ?_ (fun hfit => ?_) hE
  · rwa [hself]
  · rwa [hself]
  · rwa [hself]
  · rw [hself] at hfit ⊢
    rw [setInode_making_dir]
    exact hR hfit

end

theorem Both.via_createDots {R : Unit → View → Prop} (h : Both v dp d ip i)
    (hd : (v.inode d).type ≠ 0) (hi : i ≠ 0) (hlt : i < 65536)
    (hR : R () (making v dp d ip i (newInode i d T_DIR major minor)
      (parentInode (v.inode d) T_DIR))) (hE : E .dirlink) : Via Shows (createDots dp ip) R E
      (making v dp d ip i (freshInode T_DIR major minor) (v.inode d)) := by
  have hself : ∀ x y, (making v dp d ip i x y).inode d = y := fun _ _ => makingTable_dir
  refine Via.cont (via_updateInode h.at_dir h.locked_dir ((hself _ _).symm ▸ hd) ?_)
  rw [hself, setInode_making_dir]
  refine Via.cont (via_incore h.at_inode fun e he => ?_)
  refine Via.cont (via_incore h.at_dir fun e' he' => ?_)
  rw [he, he']
  refine Via.cont (h.via_dirlink_inode rfl dirData_nil (find_nil dot) ?_ hE)
  rw [addEntry_dot _ rfl]
  refine Via.cont (h.via_dirlink_inode rfl (dirData_dotEntry i) (find_dotEntry hlt) ?_ hE)
  rw [addEntry_dotdot _ rfl hi hlt]
  exact Via.pure hR

theorem Both.via_createParent {R : Unit → View → Prop} (h : Both v dp d ip i)
    (hd : (v.inode d).type ≠ 0) (hi : i ≠ 0) (hlt : i < 65536)
    (hR : R () (making v dp d ip i (newInode i d type major minor) (parentInode (v.inode d) type)))
    (hE : E .dirlink) : Via Shows (createParent dp ip type) R E
      (making v dp d ip i (freshInode type major minor) (v.inode d)) := by
  refine Via.ite (fun ht => ?_) fun ht => ?_
  · subst ht
    exact h.via_createDots hd hi hlt hR hE
  · rw [newInode, parentInode, if_neg ht, if_neg ht] at hR
    exact Via.pure hR

theorem Idle.both (hv : Idle v) (hg : v.Gets dp d) (hd : (v.inode d).type ≠ 0)
    (hnone : (v.take dp d).cache ip = none) (hfree : (v.inode i).type = 0) : Both v dp d ip i := by
  have hne : d ≠ i := by
    rintro rfl
    exact hd hfree
  refine ⟨hv.lookable, hg, ⟨.inl hnone, fun ip' hat => ?_⟩, hne⟩
  rcases hat.of_take with hat | ⟨-, rfl⟩
  · exact absurd hfree (hv.live i ⟨ip', hat⟩)
  · exact absurd rfl hne

theorem Both.allocated (h : Both v dp d ip i) (x : Dinode) :
    ((((v.take dp d).lock dp).setInode i x).take ip i).lock ip =
      making v dp d ip i x (v.inode d) := by
  ext1
  case inode =>
    change update v.inode i x = update (update v.inode i x) d (v.inode d)
    rw [eq_comm, update_eq_self_iff, update_of_ne h.ne]
  all_goals rfl

theorem via_createNew {R : Ptr → View → Prop} (hv : Idle v) (hg : v.Gets dp d)
    (hd : (v.inode d).type = T_DIR) (hnew : find (v.inode d).data name = none) (htype : type ≠ 0)
    (hN : ninodes ≤ 65536)
    (hR : ∀ ip i, Both v dp d ip i → 0 < i → i < ninodes → (v.inode i).type = 0 →
      CanAdd v.inode d name → R ip (oneLocked (v.withTable
        (reap v.cached d (makeTable v.inode d name i type major minor))) ip i))
    (hE : ∀ e, e ≠ .deadlock → e ≠ .ilockNoType → E e) :
    Via Shows (createNew ninodes dp name type major minor) R E (oneLocked v dp d) := by
  have hd₀ := ne_zero_of_dir hd
  have hlive : ∀ j, (oneLocked v dp d).Cached j → (v.inode j).type ≠ 0 := by
    intro j hj
    rcases (View.cached_take hg).mp hj with hj | rfl
    · exact hv.live j hj
    · exact hd₀
  refine via_ialloc_ilock htype hlive (fun ip i hpos hlt hfree hnone => ?_)
    (hE _ (by decide) (by decide)) fun _ => hE _ (by decide) (by decide)
  have h := hv.both hg hd₀ hnone hfree
  have hfits := hE .dirlink (by decide) (by decide)
  have hself : ∀ x y, (making v dp d ip i x y).inode i = x := fun _ _ => makingTable_inode h.ne
  rw [oneLocked, h.allocated]
  refine Via.cont (via_updateInode h.at_inode View.locked_lock_self ?_ ?_)
  · rwa [hself]
  rw [hself, h.setInode_making_inode]
  refine Via.seq (u := making v dp d ip i (newInode i d type major minor)
    (parentInode (v.inode d) type)) (h.via_createParent hd₀ (by omega) (by omega) rfl hfits) ?_
  refine Via.cont (via_incore h.at_inode fun e he => ?_)
  rw [he]
  have hdata := data_parentInode (v.inode d) type
  refine Via.bind (h.via_dirlink_dir (R := fun r w => r = 0 ∧ CanAdd v.inode d name ∧
    w = (bothLocked v dp d ip i).withTable (makeTable v.inode d name i type major minor))
    ?_ ?_ ?_ (fun hfit => ⟨rfl, ⟨hd, hnew, hdata ▸ hfit⟩, rfl⟩) hfits) ?_
  · rw [type_parentInode, hd]
  · rw [hdata]
    exact hv.dirs d hd
  · rw [hdata, hnew]
  rintro _ _ ⟨rfl, hadd, rfl⟩
  refine Via.seq (u := oneLocked
    (v.withTable (reap v.cached d (makeTable v.inode d name i type major minor))) ip i)
    (via_iunlockput h.at_dir h.locked_dir (h.put_dir _)) ?_
  exact Via.pure (hR ip i h hpos hlt hfree hadd)

/-! ### An inode to work on -/

/-- An inode for a call to work on, after some events have led to the table `t`. -/
structure Opened (ninodes : ℕ) (v : View) (p : Fin NPROC) (c : Call) (t : ℕ → Dinode) (ip : Ptr)
    (i : ℕ) : Prop where
  gets : v.Gets ip i
  live : (t i).type ≠ 0
  kept : Unlinked t i → i ∈ v.cached
  begun : Begun ninodes v p c ⟨t, v.cached⟩

theorem Idle.opened (hv : Idle v) (hg : v.Gets ip i) (h₀ : (v.inode i).type ≠ 0) :
    Opened ninodes v p c v.inode ip i :=
  ⟨hg, h₀, fun hu => View.mem_cached.mpr (hv.kept i hu), .refl ..⟩

theorem Both.reap_makeTable_inode (h : Both v dp d ip i) :
    reap v.cached d (makeTable v.inode d name i type major minor) i =
      newInode i d type major minor := by
  rw [reap_apply_of_ne h.ne.symm]
  exact makingTable_inode h.ne

theorem Both.opened (h : Both v dp d ip i) (hpos : 0 < i) (hlt : i < ninodes)
    (hfree : (v.inode i).type = 0) (htype : type ≠ 0) (hadd : CanAdd v.inode d name)
    (hwhy : Why v p c (.make d name i type major minor)) :
    Opened ninodes v p c (reap v.cached d (makeTable v.inode d name i type major minor)) ip i := by
  have hself : reap v.cached d (makeTable v.inode d name i type major minor) i =
      newInode i d type major minor := h.reap_makeTable_inode
  refine ⟨h.gets, ?_, fun hu => ?_, .inr ⟨_, hwhy, .make hadd hpos hlt hfree htype⟩⟩
  · rwa [hself]
  · have hone : (1 : Int16) ≠ 0 := by decide
    rw [Unlinked, hself] at hu
    exact absurd hu.2 hone

theorem Opened.leave {t : ℕ → Dinode} (h : Opened ninodes v p c t ip i) (hq : v.Quiet) :
    ((oneLocked (v.withTable t) ip i).unlock ip).put ip i = v.withTable t := by
  rw [put_oneLocked hq h.gets]
  by_cases hi : i ∈ v.cached
  · rw [reap_of_mem hi]
  · rw [reap_of_not_unlinked fun hu => hi (h.kept hu)]

theorem via_create {path : Path} {R : Option Ptr → View → Prop} (hv : Idle v)
    (hp : (v.procs p).live = true) (hN : ninodes ≤ 65536) (htype : type ≠ 0)
    (hgood : ¬ BadLink v p c) (hwhy : ∀ d name i, resolve v p true path = .ok (some (d, name)) →
      Why v p c (.make d name i type major minor)) (hnone : ¬ Creates v p path → R none v)
    (hsome : ∀ t ip i, Opened ninodes v p c t ip i → (t i).type = type →
      (t = v.inode ↔ ¬ Creates v p path) → R (some ip) (oneLocked (v.withTable t) ip i)) :
    Via Shows (create ninodes p path type major minor) R (Err v p c) v := by
  obtain ⟨cwd, hcwd⟩ := hv.rest.exact.at_cwd hp
  refine Via.cont (via_namex hv.lookable hcwd (fun hres => ?_) (fun dp d name hres hg => ?_)
    fun e he => hv.resolve_error hp hgood he)
  · refine Via.pure (hnone fun ⟨d, name, hres', _⟩ => ?_)
    rw [hres] at hres'
    cases hres'
  have hcreates : Creates v p path ↔ find (v.inode d).data name = none := by
    refine ⟨fun ⟨d', name', hres', hf⟩ => ?_, fun hf => ⟨d, name, hres, hf⟩⟩
    rw [hres] at hres'
    cases hres'
    exact hf
  have hd := resolve_parent hres
  refine Via.cont (via_ilock hg.at_take (hv.rest.quiet dp) (fun _ => ?_)
    fun h => absurd h (ne_zero_of_dir hd))
  have hat : (oneLocked v dp d).At dp d := hg.at_take
  have hl : (oneLocked v dp d).locked dp = true := View.locked_lock_self
  refine Via.cont (via_dirlookup hat hl hd (hv.dirs d hd) (hv.kept.take hg) (fun hf => ?_)
    (fun ip e i (hf : find (v.inode d).data name = some (e, i)) hg' => ?_)
    fun _ _ _ _ => .other hgood (by decide) (by decide))
  · refine Via.cont (via_createNew hv hg hd hf htype hN (fun ip i h hpos hlt hfree hadd => ?_)
      fun e h h' => .other hgood h h')
    have ho := h.opened hpos hlt hfree htype hadd (hwhy d name i hres)
    refine Via.pure (hsome _ ip i ho (congrArg Dinode.type h.reap_makeTable_inode)
      (iff_of_false (fun heq => ho.live ?_) (not_not.mpr (hcreates.mpr hf))))
    rw [heq, hfree]
  have hfound : ¬ Creates v p path := by
    rw [hcreates, hf]
    exact Option.some_ne_none _
  obtain ⟨hgi, hmove⟩ := hv.lookable.move hg hg'
  refine Via.seq (u := v.take ip i) (via_iunlockput (hat.take ip i) hl hmove) ?_
  refine Via.cont (via_ilock hgi.at_take (hv.rest.quiet ip) (fun h₀ => ?_)
    fun ht => .of_free hgood fun hc => hc.entries d e name i hd hf ht)
  refine Via.cont (via_inode hgi.at_take View.locked_lock_self ?_)
  refine Via.ite (fun heq => Via.pure (hsome v.inode ip i (hv.opened hgi h₀)
    (heq.2.trans heq.1.symm) (iff_of_true rfl hfound))) fun _ => ?_
  exact hv.lookable.via_leave hgi (Via.pure (hnone hfound))

/-! ### `mkdir` and `mknod` -/

section

variable (hv : Idle v) (hp : (v.procs p).live = true) (hN : ninodes ≤ 65536)

include hv hp hN

theorem via_createOnly {path : Path} (htype : type ≠ 0) (hgood : ¬ BadLink v p c)
    (hleaks : ¬ Leaks v p c)
    (hwhy : ∀ d name i, resolve v p true path = .ok (some (d, name)) →
      Why v p c (.make d name i type major minor)) :
    Via Shows (do
      match ← create ninodes p path type major minor with
      | none => return (-1 : ℤ)
      | some ip => do
        iunlockput ip
        return 0) (Leaves ninodes v p c) (Err v p c) v := by
  refine Via.cont (via_create hv hp hN htype hgood hwhy
    (fun _ => Via.pure (hv.leaves hgood hleaks)) fun t ip i ho _ _ => ?_)
  refine Via.seq (u := v.withTable t) (via_iunlockput ho.gets.at_take View.locked_lock_self
    (ho.leave hv.rest.quiet)) ?_
  exact Via.pure ⟨⟨hv.rest.withTable t, ⟨_, ho.begun, .refl⟩, hgood, nofun⟩, .withTable v _⟩

theorem via_sysMkdir {path : Option Path} : Via Shows (sysMkdir ninodes p path)
    (Leaves ninodes v p (.mkdir path)) (Err v p (.mkdir path)) v := by
  cases path with
  | none => exact Via.pure (hv.leaves id id)
  | some path => exact via_createOnly hv hp hN (by decide) id id fun d name i hr => ⟨rfl, hr⟩

theorem via_sysMknod {path : Option Path} {major minor : Int32} :
    Via Shows (sysMknod ninodes p path major minor) (Leaves ninodes v p (.mknod path major minor))
      (Err v p (.mknod path major minor)) v := by
  cases path with
  | none => exact Via.pure (hv.leaves id id)
  | some path => exact via_createOnly hv hp hN (by decide) id id fun d name i hr => ⟨rfl, hr⟩

end

end Xv6.Names
