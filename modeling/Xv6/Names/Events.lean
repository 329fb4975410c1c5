import Mathlib.Logic.Relation
import Xv6.Names.Rest

/-!
# What calls do to the name space

The abstract level: the inode table and the set of referenced inodes. Five kinds of events happen
to them: an inode is referenced or released, an inode is made under a new name, a name is added to
an inode, a name is removed. An inode that has neither links nor references is freed. A call that
returns has made at most one change to the names, and then taken and dropped references.
-/

namespace Xv6.Names

open Function

/-- The name space: the inode table and the referenced inodes. -/
structure Ns where
  table : ℕ → Dinode
  refs : Finset ℕ

def View.ns (v : View) : Ns := ⟨v.inode, v.cached⟩

def Unlinked (t : ℕ → Dinode) (i : ℕ) : Prop := (t i).type ≠ 0 ∧ (t i).nlink = 0

instance (t : ℕ → Dinode) (i : ℕ) : Decidable (Unlinked t i) :=
  inferInstanceAs (Decidable (_ ∧ _))

/-- Free inode `i` if it has neither links nor references. -/
def reap (c : Finset ℕ) (i : ℕ) (t : ℕ → Dinode) : ℕ → Dinode :=
  if i ∉ c ∧ Unlinked t i then update t i (t i).freed else t

/-! ### Changes to the table -/

/-- Inode `i` of the given type is made under a new name in directory `d`. -/
def makeTable (t : ℕ → Dinode) (d : ℕ) (name : List UInt8) (i : ℕ) (type major minor : Int16) :
    ℕ → Dinode :=
  let node : Dinode := ⟨type, major, minor, 1, if type = T_DIR then dotData i d else []⟩
  let dir := if type = T_DIR then { t d with nlink := (t d).nlink + 1 } else t d
  update (update t i node) d (dir.addEntry name i)

/-- Inode `i` gets a new name in directory `d`. -/
def linkTable (t : ℕ → Dinode) (d : ℕ) (name : List UInt8) (i : ℕ) : ℕ → Dinode :=
  update (update t i { t i with nlink := (t i).nlink + 1 }) d
    ((t d).addEntry name i)

/-- Entry `e` of directory `d`, which names inode `i`, is removed. -/
def unlinkTable (t : ℕ → Dinode) (d e i : ℕ) : ℕ → Dinode :=
  let dir : Dinode :=
    { t d with
      data := putEntry (t d).data e Dirent.free
      nlink := if (t i).type = T_DIR then (t d).nlink - 1 else (t d).nlink }
  update (update t d dir) i { t i with nlink := (t i).nlink - 1 }

/-! ### Events -/

inductive Event where
  /-- One more reference to inode `i`. -/
  | hold (i : ℕ)
  /-- One reference less to inode `i`. -/
  | release (i : ℕ)
  /-- A new inode `i` with a name in directory `d`. -/
  | make (d : ℕ) (name : List UInt8) (i : ℕ) (type major minor : Int16)
  /-- A new name in directory `d` for inode `i`. -/
  | link (d : ℕ) (name : List UInt8) (i : ℕ)
  /-- Entry `e` of directory `d` for inode `i` is removed. -/
  | unlink (d e i : ℕ)

/-- Directory `d` can take the new name. -/
structure CanAdd (t : ℕ → Dinode) (d : ℕ) (name : List UInt8) : Prop where
  dir : (t d).type = T_DIR
  new : find (t d).data name = none
  fits : DESIZE * firstFree (t d).data + DESIZE ≤ MAXFILE * BSIZE

/-- Entry `e` of directory `d`, for inode `i`, can be removed. -/
structure CanRemove (t : ℕ → Dinode) (d e i : ℕ) : Prop where
  dir : (t d).type = T_DIR
  lt : e < nentries (t d).data
  inum : (entry (t d).data e).inum = i
  ne_zero : i ≠ 0
  ne_dot : cname (entry (t d).data e).name ≠ dot
  ne_dotdot : cname (entry (t d).data e).name ≠ dotdot
  ne : i ≠ d
  live : (t i).type ≠ 0
  nlink : ¬ (t i).nlink < 1
  empty : (t i).type = T_DIR → EmptyFrom (t i).data 2

inductive Step (ninodes : ℕ) : Ns → Event → Ns → Prop
  | hold {t : ℕ → Dinode} {c : Finset ℕ} {i : ℕ} : (t i).type ≠ 0 →
      Step ninodes ⟨t, c⟩ (.hold i) ⟨t, insert i c⟩
  | release {t : ℕ → Dinode} {c c' : Finset ℕ} {i : ℕ} : c.erase i ⊆ c' → c' ⊆ c →
      Step ninodes ⟨t, c⟩ (.release i) ⟨reap c' i t, c'⟩
  | make {t : ℕ → Dinode} {c : Finset ℕ} {d i : ℕ} {name : List UInt8}
      {type major minor : Int16} : CanAdd t d name → 0 < i → i < ninodes → (t i).type = 0 →
      type ≠ 0 → Step ninodes ⟨t, c⟩ (.make d name i type major minor)
        ⟨reap c d (makeTable t d name i type major minor), c⟩
  | link {t : ℕ → Dinode} {c : Finset ℕ} {d i : ℕ} {name : List UInt8} : CanAdd t d name →
      (t i).type ≠ 0 → (t i).type ≠ T_DIR → Step ninodes ⟨t, c⟩ (.link d name i)
        ⟨reap c i (reap c d (linkTable t d name i)), c⟩
  | unlink {t : ℕ → Dinode} {c : Finset ℕ} {d e i : ℕ} : CanRemove t d e i →
      Step ninodes ⟨t, c⟩ (.unlink d e i) ⟨reap c i (reap c d (unlinkTable t d e i)), c⟩

def Moves (ninodes : ℕ) (n n' : Ns) : Prop :=
  ∃ i, Step ninodes n (.hold i) n' ∨ Step ninodes n (.release i) n'

def Settles (ninodes : ℕ) : Ns → Ns → Prop := Relation.ReflTransGen (Moves ninodes)

/-- The changes to the name space that a call of process `p` may cause. -/
def Why (v : View) (p : Fin NPROC) : Call → Event → Prop
  | .open (some path) omode, .make d name _ type _ _ =>
    omode &&& O_CREATE ≠ 0 ∧ type = T_FILE ∧ resolve v p true path = .ok (some (d, name))
  | .mkdir (some path), .make d name _ type _ _ =>
    type = T_DIR ∧ resolve v p true path = .ok (some (d, name))
  | .mknod (some path) _ _, .make d name _ type _ _ =>
    type = T_DEV ∧ resolve v p true path = .ok (some (d, name))
  | .link (some old) (some new), .link d name i =>
    (∃ x, resolve v p false old = .ok (some (i, x))) ∧
      resolve v p true new = .ok (some (d, name))
  | .unlink (some path), .unlink d e i =>
    ∃ name, resolve v p true path = .ok (some (d, name)) ∧
      find (v.inode d).data name = some (e, i)
  | _, _ => False

/-- The call has changed nothing, or made one change that it accounts for. -/
def Begun (ninodes : ℕ) (v : View) (p : Fin NPROC) (c : Call) (n : Ns) : Prop :=
  v.ns = n ∨ ∃ ev, Why v p c ev ∧ Step ninodes v.ns ev n

/-- What a call does to the name space: at most one change, and then references come and go. -/
def Effect (ninodes : ℕ) (v : View) (p : Fin NPROC) (c : Call) (n : Ns) : Prop :=
  ∃ n₁, Begun ninodes v p c n₁ ∧ Settles ninodes n₁ n

variable {ninodes : ℕ}

theorem Settles.keeps {n n' : Ns} {I : Ns → Prop} (h : Settles ninodes n n')
    (h₀ : I n) (hmoves : ∀ n n', I n → Moves ninodes n n' → I n') : I n' := by
  induction h with
  | refl => exact h₀
  | tail _ hmove ih => exact hmoves _ _ ih hmove

theorem Effect.keeps {v : View} {p : Fin NPROC} {c : Call} {n : Ns} {I : Ns → Prop}
    (h : Effect ninodes v p c n) (h₀ : I v.ns)
    (hchange : ∀ ev n', Why v p c ev → Step ninodes v.ns ev n' → I n')
    (hmoves : ∀ n n', I n → Moves ninodes n n' → I n') : I n := by
  obtain ⟨n₁, hbegun, hsettles⟩ := h
  refine hsettles.keeps ?_ hmoves
  rcases hbegun with rfl | ⟨ev, hwhy, hstep⟩
  · exact h₀
  · exact hchange ev n₁ hwhy hstep

theorem Begun.refl (ninodes : ℕ) (v : View) (p : Fin NPROC) (c : Call) :
    Begun ninodes v p c v.ns := .inl rfl

theorem Effect.of_step {v : View} {p : Fin NPROC} {c : Call} {n : Ns} {ev : Event}
    (hwhy : Why v p c ev) (hs : Step ninodes v.ns ev n) : Effect ninodes v p c n :=
  ⟨n, .inr ⟨ev, hwhy, hs⟩, .refl⟩

theorem Effect.of_settles {v : View} {p : Fin NPROC} {c : Call} {n : Ns}
    (h : Settles ninodes v.ns n) : Effect ninodes v p c n := ⟨v.ns, .refl .., h⟩

/-! ### Dropping references -/

variable {v u : View} {ip : Ptr} {i d : ℕ} {t : ℕ → Dinode} {c : Finset ℕ}

theorem reap_of_mem (h : i ∈ c) : reap c i t = t := if_neg fun hn => hn.1 h

theorem reap_of_not_unlinked (h : ¬ Unlinked t i) : reap c i t = t := if_neg fun hn => h hn.2

theorem reap_insert_of_ne (h : d ≠ i) : reap (insert i c) d t = reap c d t := by
  have hmem : d ∉ insert i c ↔ d ∉ c := by simp [h]
  unfold reap
  simp only [hmem]

theorem reap_apply_of_ne (h : d ≠ i) : reap c i t d = t d := by
  unfold reap
  split
  · exact update_of_ne h ..
  · rfl

theorem reap_apply_of_not_unlinked (h : ¬ Unlinked t d) : reap c i t d = t d := by
  rcases eq_or_ne d i with rfl | hne
  · rw [reap_of_not_unlinked h]
  · exact reap_apply_of_ne hne

theorem reap_update_of_ne (h : d ≠ i) (x : Dinode) :
    reap c d (update t i x) = update (reap c d t) i x := by
  have hself : update t i x d = t d := update_of_ne h ..
  unfold reap Unlinked
  simp only [hself]
  split
  · exact update_comm h.symm ..
  · rfl

theorem reap_comm (h : d ≠ i) : reap c i (reap c d t) = reap c d (reap c i t) := by
  have hsame : reap c d t i = t i := reap_apply_of_ne h.symm
  have hu : Unlinked (reap c d t) i ↔ Unlinked t i := by rw [Unlinked, hsame, Unlinked]
  rw [reap, reap.eq_def c i t]
  simp only [hu]
  split
  · rw [hsame, reap_update_of_ne h]
  · rfl

theorem put_of_gets (hg : v.Gets ip i) (hc : u.cache = (v.take ip i).cache) :
    u.put ip i = { u with inode := reap v.cached i u.inode, cache := v.cache } := by
  have hdrop : ∀ x : View, x.cache = (v.take ip i).cache → (x.drop ip).cache = v.cache := by
    intro x hx
    rw [← View.cache_drop_take v ip i]
    simp only [View.drop, hx]
  rcases hg.self with hs | hs
  · have hnot : i ∉ v.cached := by
      rw [View.mem_cached]
      rintro ⟨ip', hat⟩
      obtain ⟨n, hn⟩ := hg.only ip' hat ▸ hat
      rw [hs] at hn
      cases hn
    have hlast : u.cache ip = some ⟨i, 0⟩ := by
      rw [hc, View.cache_take_self, hs]
      rfl
    by_cases hu : Unlinked u.inode i
    · rw [View.put, if_pos ⟨hlast, hu⟩, reap, if_pos ⟨hnot, hu⟩]
      ext1
      case cache => exact hdrop _ hc
      all_goals rfl
    rw [View.put, if_neg (fun h => hu h.2), reap_of_not_unlinked hu]
    ext1
    case cache => exact hdrop _ hc
    all_goals rfl
  · obtain ⟨n, hn⟩ := hs
    have hmore : ¬ (u.cache ip = some ⟨i, 0⟩ ∧ u.Unlinked i) := by
      rintro ⟨h, -⟩
      rw [hc, View.cache_take_self, hn] at h
      exact absurd (congrArg Held.more (Option.some.inj h)) (Nat.succ_ne_zero _)
    rw [View.put, if_neg hmore, reap_of_mem (View.mem_cached.mpr ⟨ip, n, hn⟩)]
    ext1
    case cache => exact hdrop _ hc
    all_goals rfl

theorem step_put (hg : v.Gets ip i) (hat : v.At ip i) :
    Step ninodes v.ns (.release i) (v.put ip i).ns := by
  have hcache : (v.put ip i).cache = (v.drop ip).cache := cache_put v ip i
  have hself : (v.drop ip).cache ip = Held.dec (v.cache ip) := update_self ..
  have hother : ∀ ip', ip' ≠ ip → (v.put ip i).cache ip' = v.cache ip' := by
    intro ip' hne
    rw [hcache]
    exact update_of_ne hne ..
  obtain ⟨n, hn⟩ := hat
  have hsub : (v.put ip i).cached ⊆ v.cached := by
    intro j hj
    rw [View.mem_cached] at hj ⊢
    obtain ⟨ip', m, hm⟩ := hj
    rcases eq_or_ne ip' ip with rfl | hne
    · rw [hcache, hself, hn] at hm
      cases n with
      | zero => cases hm
      | succ n => cases hm; exact ⟨_, _, hn⟩
    · exact ⟨ip', m, by rw [← hother ip' hne, hm]⟩
  have herase : v.cached.erase i ⊆ (v.put ip i).cached := by
    intro j hj
    obtain ⟨hji, hj⟩ := Finset.mem_erase.mp hj
    rw [View.mem_cached] at hj ⊢
    obtain ⟨ip', hat'⟩ := hj
    have hne : ip' ≠ ip := by
      rintro rfl
      exact hji (hat'.inum_eq ⟨n, hn⟩)
    obtain ⟨m, hm⟩ := hat'
    exact ⟨ip', m, by rw [hother ip' hne, hm]⟩
  have htable : (v.put ip i).inode = reap (v.put ip i).cached i v.inode := by
    have hlast : i ∉ (v.put ip i).cached ↔ v.cache ip = some ⟨i, 0⟩ := by
      rw [View.mem_cached]
      constructor
      · intro hnot
        cases n with
        | zero => exact hn
        | succ n =>
          exact absurd ⟨ip, n, by rw [hcache, hself, hn]; rfl⟩ hnot
      rintro hl ⟨ip', m, hm⟩
      rcases eq_or_ne ip' ip with rfl | hne
      · rw [hcache, hself, hl] at hm
        cases hm
      · rw [hother ip' hne] at hm
        exact hne (hg.only ip' ⟨m, hm⟩)
    by_cases h : v.cache ip = some ⟨i, 0⟩ ∧ v.Unlinked i
    · rw [reap, if_pos ⟨hlast.mpr h.1, h.2⟩, View.put, if_pos h]
      rfl
    · rw [reap, if_neg (fun hr => h ⟨hlast.mp hr.1, hr.2⟩), View.put, if_neg h]
      rfl
  have hns : (v.put ip i).ns = ⟨reap (v.put ip i).cached i v.inode, (v.put ip i).cached⟩ := by
    rw [← htable]
    rfl
  rw [hns]
  exact .release herase hsub

/-! ### Two inodes at once

`create` and `unlink` hold and lock a directory and an inode in it. The directory is dropped first,
then the inode, and either may be freed then. -/

section Pair

variable {v : View} {dp ip : Ptr} {d i : ℕ}

def bothLocked (v : View) (dp : Ptr) (d : ℕ) (ip : Ptr) (i : ℕ) : View :=
  (((v.take dp d).lock dp).take ip i).lock ip

def oneLocked (v : View) (ip : Ptr) (i : ℕ) : View := (v.take ip i).lock ip

structure Both (v : View) (dp : Ptr) (d : ℕ) (ip : Ptr) (i : ℕ) : Prop where
  look : Lookable v
  gd : v.Gets dp d
  gi : (v.take dp d).Gets ip i
  ne : d ≠ i

theorem put_oneLocked (hq : v.Quiet) (hg : v.Gets ip i) (t : ℕ → Dinode) :
    ((oneLocked (v.withTable t) ip i).unlock ip).put ip i = v.withTable (reap v.cached i t) := by
  rw [oneLocked, View.unlock_lock (v := (v.withTable t).take ip i) (hq ip)]
  exact put_of_gets (u := (v.withTable t).take ip i) hg rfl

namespace Both

variable (h : Both v dp d ip i)
include h

theorem ptr_ne : dp ≠ ip := (h.gd.swap h.gi h.ne).1

theorem gets : v.Gets ip i := (h.gd.swap h.gi h.ne).2.1

theorem at_dir : (bothLocked v dp d ip i).At dp d := h.gd.at_take.take ip i

theorem at_inode : (bothLocked v dp d ip i).At ip i := h.gi.at_take

theorem locked_dir : (bothLocked v dp d ip i).locked dp = true := by
  rw [bothLocked, View.locked_lock_of_ne h.ptr_ne]
  exact View.locked_lock_self

theorem kept {t : ℕ → Dinode} (ht : ∀ j, j ≠ d → j ≠ i → t j = v.inode j) :
    ((bothLocked v dp d ip i).withTable t).Kept := by
  intro j hj
  rcases eq_or_ne j i with rfl | hji
  · exact ⟨ip, h.at_inode⟩
  rcases eq_or_ne j d with rfl | hjd
  · exact ⟨dp, h.at_dir⟩
  have hu : v.Unlinked j := by
    unfold View.Unlinked
    rw [← ht j hjd hji]
    exact hj
  exact (View.cached_take h.gi).mpr (.inl (h.look.kept.take h.gd j hu))

theorem leave_inode : ((bothLocked v dp d ip i).unlock ip).put ip i = oneLocked v dp d := by
  have hun : (((v.take dp d).lock dp).take ip i).locked ip = false :=
    (View.locked_lock_of_ne h.ptr_ne.symm).trans (h.look.quiet ip)
  rw [bothLocked, View.unlock_lock hun]
  exact View.put_take (View.gets_lock.mpr h.gi) (h.look.kept.take h.gd)

theorem put_dir (t : ℕ → Dinode) : (((bothLocked v dp d ip i).withTable t).unlock dp).put dp d =
      oneLocked (v.withTable (reap v.cached d t)) ip i := by
  obtain ⟨hne, hg, hg'⟩ := h.gd.swap h.gi h.ne
  have hcache : (((bothLocked v dp d ip i).withTable t).unlock dp).cache =
      ((v.take ip i).take dp d).cache := by
    rw [← View.take_comm hne]
    rfl
  rw [put_of_gets hg' hcache, View.cached_take_eq hg, reap_insert_of_ne h.ne]
  ext1
  case locked =>
    change update (update (update v.locked dp true) ip true) dp false = update v.locked ip true
    rw [update_comm hne.symm, update_idem, ← h.look.quiet dp, update_eq_self]
  all_goals rfl

end Both

end Pair

end Xv6.Names
