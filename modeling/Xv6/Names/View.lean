import Mathlib.Data.Fintype.Card
import Xv6.Names.Icache

/-!
# What the inode cache stands for

The cache copies inodes and is written through, so what matters of a state is the inode table on
disk, which entries are referenced for which inode, and which are locked. `Shows s v` says that the
state `s` is coherent and that `v` is what it stands for; each function of `Names.Icache` is
specified by what it does to the view.
-/

namespace Xv6.Names

open Splice Hoare Function List

/-! ### Coherent states -/

structure EntryOk (disk : ℕ → Dinode) (e : Incore) : Prop where
  /-- A valid copy is the inode on disk, which is allocated. -/
  copy : 0 < e.ref → e.valid = true → e.dip = disk e.inum ∧ (disk e.inum).type ≠ 0
  locked : e.locked = true → 0 < e.ref ∧ e.valid = true
  /-- An inode without links was read before it lost them. -/
  unlinked : 0 < e.ref → (disk e.inum).type ≠ 0 → (disk e.inum).nlink = 0 → e.valid = true

structure Coherent (s : Kernel) : Prop where
  entry : ∀ ip, EntryOk s.disk (s.icache ip)
  inj : ∀ ip ip', 0 < (s.icache ip).ref → 0 < (s.icache ip').ref →
    (s.icache ip).inum = (s.icache ip').inum → ip = ip'

/-! ### Views -/

structure Held where
  inum : ℕ
  more : ℕ
  deriving DecidableEq

/-- Inode table, references and locks. -/
@[ext]
structure View where
  inode : ℕ → Dinode
  cache : Ptr → Option Held
  locked : Ptr → Bool
  ftable : Fin NFILE → File
  procs : Fin NPROC → Proc

def Incore.held (e : Incore) : Option Held :=
  if e.ref = 0 then none else some ⟨e.inum, e.ref - 1⟩

def Kernel.view (s : Kernel) : View where
  inode := s.disk
  cache ip := (s.icache ip).held
  locked ip := (s.icache ip).locked
  ftable := s.ftable
  procs := s.procs

/-- The state is coherent and stands for `v`. -/
def Shows (s : Kernel) (v : View) : Prop := Coherent s ∧ s.view = v

def Held.inc (i : ℕ) : Option Held → Held
  | none => ⟨i, 0⟩
  | some h => ⟨h.inum, h.more + 1⟩

def Held.dec : Option Held → Option Held
  | some ⟨i, n + 1⟩ => some ⟨i, n⟩
  | _ => none

def Dinode.freed (dip : Dinode) : Dinode := { dip with type := 0, data := [] }

namespace View

variable (v : View)

/-- Entry `ip` is referenced for inode `i`. -/
def At (ip : Ptr) (i : ℕ) : Prop := ∃ n, v.cache ip = some ⟨i, n⟩

/-- Inode `i` is referenced. -/
def Cached (i : ℕ) : Prop := ∃ ip, v.At ip i

/-- `iget` may choose entry `ip` for inode `i`. -/
structure Gets (ip : Ptr) (i : ℕ) : Prop where
  self : v.cache ip = none ∨ v.At ip i
  only : ∀ ip', v.At ip' i → ip' = ip

/-- One reference more to inode `i` through `ip`. -/
def take (ip : Ptr) (i : ℕ) : View :=
  { v with cache := update v.cache ip (some (Held.inc i (v.cache ip))) }

/-- One reference less through `ip`. -/
def drop (ip : Ptr) : View :=
  { v with cache := update v.cache ip (Held.dec (v.cache ip)) }

/-- New contents for inode `i`. -/
def setInode (i : ℕ) (dip : Dinode) : View := { v with inode := update v.inode i dip }

def Unlinked (i : ℕ) : Prop := (v.inode i).type ≠ 0 ∧ (v.inode i).nlink = 0

instance (i : ℕ) : Decidable (v.Unlinked i) := inferInstanceAs (Decidable (_ ∧ _))

/-- Drop a reference through `ip` to inode `i`; an inode without links goes with the last one. -/
def put (ip : Ptr) (i : ℕ) : View :=
  if v.cache ip = some ⟨i, 0⟩ ∧ v.Unlinked i then
    (v.setInode i (v.inode i).freed).drop ip
  else v.drop ip

/-- Lock entry `ip`. -/
def lock (ip : Ptr) : View := { v with locked := update v.locked ip true }

/-- Unlock entry `ip`. -/
def unlock (ip : Ptr) : View := { v with locked := update v.locked ip false }

end View

/-! ### Entries of a coherent state -/

variable {e : Incore}

theorem Incore.held_eq_none : e.held = none ↔ e.ref = 0 := by
  unfold Incore.held
  split <;> simp_all

theorem Incore.held_eq_some {i n : ℕ} : e.held = some ⟨i, n⟩ ↔ e.inum = i ∧ e.ref = n + 1 := by
  unfold Incore.held
  split
  · next h => simp only [reduceCtorEq, false_iff]; omega
  next h =>
  simp only [Option.some.injEq, Held.mk.injEq]
  omega

variable {s : Kernel} {ip : Ptr} {i : ℕ}

theorem view_at : s.view.At ip i ↔ 0 < (s.icache ip).ref ∧ (s.icache ip).inum = i := by
  constructor
  · rintro ⟨n, hn⟩
    obtain ⟨hi, hr⟩ := Incore.held_eq_some.mp hn
    exact ⟨by omega, hi⟩
  · rintro ⟨hr, hi⟩
    exact ⟨(s.icache ip).ref - 1, Incore.held_eq_some.mpr ⟨hi, by omega⟩⟩

theorem Coherent.inj_setIncore (h : Coherent s)
    (hinj : 0 < e.ref → ∀ ip', ip' ≠ ip → 0 < (s.icache ip').ref → (s.icache ip').inum ≠ e.inum)
    (a b : Ptr) (ha : 0 < ((s.setIncore ip e).icache a).ref)
    (hb : 0 < ((s.setIncore ip e).icache b).ref)
    (hab : ((s.setIncore ip e).icache a).inum = ((s.setIncore ip e).icache b).inum) : a = b := by
  simp only [Kernel.setIncore, update_apply] at ha hb hab
  rcases eq_or_ne a ip with rfl | hane
  · rcases eq_or_ne b a with rfl | hbne
    · rfl
    · rw [if_pos rfl] at ha hab
      rw [if_neg hbne] at hb hab
      exact absurd hab.symm (hinj ha b hbne hb)
  rw [if_neg hane] at ha hab
  rcases eq_or_ne b ip with rfl | hbne
  · rw [if_pos rfl] at hb hab
    exact absurd hab (hinj hb a hane ha)
  · rw [if_neg hbne] at hb hab
    exact h.inj a b ha hb hab

theorem Coherent.setIncore (h : Coherent s) (he : EntryOk s.disk e)
    (hinj : 0 < e.ref → ∀ ip', ip' ≠ ip → 0 < (s.icache ip').ref → (s.icache ip').inum ≠ e.inum) :
    Coherent (s.setIncore ip e) where
  entry ip' := by
    rcases eq_or_ne ip' ip with rfl | hne
    · simpa [Kernel.setIncore] using he
    · simpa [Kernel.setIncore, hne] using h.entry ip'
  inj := h.inj_setIncore hinj

theorem Coherent.setIncore_same (h : Coherent s) (he : EntryOk s.disk e)
    (hinum : 0 < e.ref → 0 < (s.icache ip).ref ∧ e.inum = (s.icache ip).inum) :
    Coherent (s.setIncore ip e) := by
  refine h.setIncore he fun hpos ip' hne hpos' heq => hne ?_
  obtain ⟨hr, hi⟩ := hinum hpos
  exact h.inj ip' ip hpos' hr (heq.trans hi)

theorem view_setIncore (s : Kernel) (ip : Ptr) (e : Incore) : (s.setIncore ip e).view =
    { s.view with
      cache := update s.view.cache ip e.held
      locked := update s.view.locked ip e.locked } := by
  ext1
  case cache | locked =>
    funext ip'
    rcases eq_or_ne ip' ip with rfl | hne
    · simp [Kernel.view, Kernel.setIncore]
    · simp [Kernel.view, Kernel.setIncore, hne]
  all_goals rfl

theorem view_setIncore_same (hheld : e.held = (s.icache ip).held)
    (hlocked : e.locked = (s.icache ip).locked) : (s.setIncore ip e).view = s.view := by
  rw [view_setIncore, hheld, hlocked]
  ext1
  · rfl
  · exact update_eq_self ip s.view.cache
  · exact update_eq_self ip s.view.locked
  · rfl
  · rfl

@[simp] theorem wp_incore {Q : Incore → Kernel → Prop} {E : Stop → Prop} :
    wp (incore ip) Q E s ↔ Q (s.icache ip) s := Iff.rfl

@[simp] theorem wp_modifyIncore {f : Incore → Incore} {Q : PUnit → Kernel → Prop}
    {E : Stop → Prop} :
    wp (modifyIncore ip f) Q E s ↔ Q ⟨⟩ (s.setIncore ip (f (s.icache ip))) := Iff.rfl

@[simp] theorem wp_modifyDinode {f : Dinode → Dinode} {Q : PUnit → Kernel → Prop}
    {E : Stop → Prop} : wp (modifyDinode i f) Q E s ↔ Q ⟨⟩ (s.setDinode i (f (s.disk i))) := Iff.rfl

@[simp] theorem icache_setIncore_self (s : Kernel) (ip : Ptr) (e : Incore) :
    (s.setIncore ip e).icache ip = e := update_self ..

@[simp] theorem disk_setIncore (s : Kernel) (ip : Ptr) (e : Incore) :
    (s.setIncore ip e).disk = s.disk := rfl

@[simp] theorem setDinode_setIncore (s : Kernel) (ip : Ptr) (e : Incore) (i : ℕ) (d : Dinode) :
    (s.setIncore ip e).setDinode i d = (s.setDinode i d).setIncore ip e := rfl

@[simp] theorem icache_setDinode (s : Kernel) (i : ℕ) (d : Dinode) :
    (s.setDinode i d).icache = s.icache := rfl

@[simp] theorem disk_setDinode (s : Kernel) (i : ℕ) (d : Dinode) :
    (s.setDinode i d).disk = update s.disk i d := rfl

@[simp] theorem setIncore_setIncore (s : Kernel) (ip : Ptr) (e e' : Incore) :
    (s.setIncore ip e).setIncore ip e' = s.setIncore ip e' := by
  unfold Kernel.setIncore
  rw [update_idem]

@[simp] theorem setDinode_setDinode (s : Kernel) (i : ℕ) (d d' : Dinode) :
    (s.setDinode i d).setDinode i d' = s.setDinode i d' := by
  unfold Kernel.setDinode
  rw [update_idem]

theorem EntryOk.congr {disk disk' : ℕ → Dinode} (h : EntryOk disk e)
    (heq : 0 < e.ref → disk' e.inum = disk e.inum) : EntryOk disk' e where
  copy hr hv := heq hr ▸ h.copy hr hv
  locked := h.locked
  unlinked hr := heq hr ▸ h.unlinked hr

theorem Coherent.setDinode {d : Dinode} (h : Coherent s)
    (hpos : 0 < (s.icache ip).ref) (hi : (s.icache ip).inum = i)
    (he : EntryOk (update s.disk i d) e) (hinum : 0 < e.ref → e.inum = i) :
    Coherent ((s.setDinode i d).setIncore ip e) where
  entry ip' := by
    rcases eq_or_ne ip' ip with rfl | hne
    · simpa using he
    have hother : ((s.setDinode i d).setIncore ip e).icache ip' = s.icache ip' :=
      update_of_ne hne ..
    rw [hother]
    refine (h.entry ip').congr fun hr => update_of_ne (fun heq => hne ?_) ..
    exact h.inj ip' ip hr hpos (heq.trans hi.symm)
  inj := h.inj_setIncore fun he' ip' hne hr heq =>
    hne (h.inj ip' ip hr hpos (heq.trans ((hinum he').trans hi.symm)))

/-! ### The primitives -/

variable {v : View} {E : Stop → Prop}

theorem via_incore {R : Incore → View → Prop} (hat : v.At ip i) (h : ∀ e, e.inum = i → R e v) :
    Via Shows (incore ip) R E v := by
  rintro s ⟨hc, rfl⟩
  exact ⟨_, ⟨hc, rfl⟩, h _ (view_at.mp hat).2⟩

theorem via_inode {R : Dinode → View → Prop} (hat : v.At ip i) (hl : v.locked ip = true)
    (h : R (v.inode i) v) : Via Shows (inode ip) R E v := by
  rintro s ⟨hc, rfl⟩
  obtain ⟨hr, rfl⟩ := view_at.mp hat
  have hcopy := ((hc.entry ip).copy hr ((hc.entry ip).locked hl).2).1
  refine ⟨_, ⟨hc, rfl⟩, ?_⟩
  rw [hcopy]
  exact h

theorem view_take (hheld : e.held = some (Held.inc i (s.icache ip).held))
    (hlocked : e.locked = (s.icache ip).locked) : (s.setIncore ip e).view = s.view.take ip i := by
  rw [view_setIncore, hheld, hlocked]
  ext1
  case locked => exact update_eq_self ip s.view.locked
  all_goals rfl

theorem held_succ (hr : 0 < e.ref) (i : ℕ) :
    ({ e with ref := e.ref + 1 } : Incore).held = some (Held.inc i e.held) := by
  have he : e.held = some ⟨e.inum, e.ref - 1⟩ := Incore.held_eq_some.mpr ⟨rfl, by omega⟩
  rw [he, Held.inc, Incore.held_eq_some]
  exact ⟨rfl, by dsimp only; omega⟩

theorem EntryOk.ref_succ {disk : ℕ → Dinode} (h : EntryOk disk e) (hr : 0 < e.ref) :
    EntryOk disk { e with ref := e.ref + 1 } :=
  ⟨fun _ => h.copy hr, fun hl => ⟨Nat.succ_pos _, (h.locked hl).2⟩, fun _ => h.unlinked hr⟩

theorem Coherent.gets (hc : Coherent s) (hat : s.view.At ip i) : s.view.Gets ip i := by
  obtain ⟨hr, hi⟩ := view_at.mp hat
  refine ⟨.inr hat, fun ip' hat' => ?_⟩
  obtain ⟨hr', hi'⟩ := view_at.mp hat'
  exact hc.inj ip' ip hr' hr (hi'.trans hi.symm)

theorem via_idup {R : Ptr → View → Prop} (hat : v.At ip i)
    (h : v.Gets ip i → R ip (v.take ip i)) : Via Shows (idup ip) R E v := by
  rintro s ⟨hc, rfl⟩
  have hr := (view_at.mp hat).1
  have hc' := hc.setIncore_same ((hc.entry ip).ref_succ hr) fun _ => ⟨hr, rfl⟩
  exact ⟨_, ⟨hc', view_take (held_succ hr _) rfl⟩, h (hc.gets hat)⟩

theorem wp_iget {Q : Ptr → Kernel → Prop}
    (hcached : ∀ ip, 0 < (s.icache ip).ref → (s.icache ip).inum = i →
      Q ip (s.setIncore ip { s.icache ip with ref := (s.icache ip).ref + 1 }))
    (hnew : (∀ ip, 0 < (s.icache ip).ref → (s.icache ip).inum ≠ i) → ∀ ip, (s.icache ip).ref = 0 →
        Q ip (s.setIncore ip { s.icache ip with inum := i, ref := 1, valid := false }))
    (hE : (∀ ip, 0 < (s.icache ip).ref → (s.icache ip).inum ≠ i) →
      (∀ ip, (s.icache ip).ref ≠ 0) → E .igetNoInodes) : wp (iget i) Q E s := by
  unfold iget
  rw [wp_bind, wp_get]
  cases hfind : (finRange NINODE).find? fun ip =>
      0 < (s.icache ip).ref ∧ (s.icache ip).inum = i with
  | some ip =>
    have hm := find?_some hfind
    rw [decide_eq_true_eq] at hm
    exact hcached ip hm.1 hm.2
  | none =>
    have hnot : ∀ ip, 0 < (s.icache ip).ref → (s.icache ip).inum ≠ i := fun ip hr hi =>
      find?_eq_none.mp hfind ip (mem_finRange ip) (decide_eq_true ⟨hr, hi⟩)
    cases hempty : (finRange NINODE).find? fun ip => (s.icache ip).ref = 0 with
    | none =>
      exact hE hnot fun ip hz =>
        find?_eq_none.mp hempty ip (mem_finRange ip) (decide_eq_true hz)
    | some ip =>
    have hz := find?_some hempty
    rw [decide_eq_true_eq] at hz
    exact hnew hnot ip hz

theorem Coherent.not_locked (hc : Coherent s) (hz : (s.icache ip).ref = 0) :
    (s.icache ip).locked = false := by
  rw [Bool.eq_false_iff]
  intro hl
  have := ((hc.entry ip).locked hl).1
  omega

theorem not_cached_iff : ¬ s.view.Cached i ↔ ∀ ip, 0 < (s.icache ip).ref → (s.icache ip).inum ≠ i :=
  ⟨fun h ip hr hi => h ⟨ip, view_at.mpr ⟨hr, hi⟩⟩,
    fun h ⟨ip, hat⟩ => h ip (view_at.mp hat).1 (view_at.mp hat).2⟩

theorem via_iget {R : Ptr → View → Prop} (hkept : v.Unlinked i → v.Cached i)
    (h : ∀ ip, v.Gets ip i → R ip (v.take ip i))
    (hE : ¬ v.Cached i → (∀ ip, v.cache ip ≠ none) → E .igetNoInodes) :
    Via Shows (iget i) R E v := by
  rintro s ⟨hc, rfl⟩
  refine wp_iget (fun ip hr hi => ?_) (fun hnot ip hz => ?_) fun hnot hfull => ?_
  · have hc' := hc.setIncore_same ((hc.entry ip).ref_succ hr) fun _ => ⟨hr, rfl⟩
    have hgets := hc.gets (view_at.mpr ⟨hr, hi⟩)
    exact ⟨_, ⟨hc', view_take (held_succ hr _) rfl⟩, h ip hgets⟩
  · have hnot' := not_cached_iff.mpr hnot
    have hgets : s.view.Gets ip i :=
      ⟨.inl (Incore.held_eq_none.mpr hz), fun ip' hat => absurd ⟨ip', hat⟩ hnot'⟩
    have hok : EntryOk s.disk { s.icache ip with inum := i, ref := 1, valid := false } := by
      refine ⟨fun _ hv => absurd hv Bool.false_ne_true, fun hl => ?_, fun _ ht hn => ?_⟩
      · exact absurd ((hc.not_locked hz).symm.trans hl) Bool.false_ne_true
      · exact absurd (hkept ⟨ht, hn⟩) hnot'
    have hc' : Coherent (s.setIncore ip _) := hc.setIncore hok fun _ ip' _ hr' => hnot ip' hr'
    refine ⟨_, ⟨hc', view_take ?_ rfl⟩, h ip hgets⟩
    rw [Incore.held_eq_none.mpr hz]
    rfl
  · exact hE (not_cached_iff.mpr hnot) fun ip hip => hfull ip (Incore.held_eq_none.mp hip)

theorem view_lock (hheld : e.held = (s.icache ip).held) (hlocked : e.locked = true) :
    (s.setIncore ip e).view = s.view.lock ip := by
  rw [view_setIncore, hheld, hlocked]
  ext1
  case cache => exact update_eq_self ip s.view.cache
  all_goals rfl

theorem view_unlock (hheld : e.held = (s.icache ip).held)
    (hlocked : e.locked = false) : (s.setIncore ip e).view = s.view.unlock ip := by
  rw [view_setIncore, hheld, hlocked]
  ext1
  case cache => exact update_eq_self ip s.view.cache
  all_goals rfl

variable {R : Unit → View → Prop}

theorem via_ilock (hat : v.At ip i) (hun : v.locked ip = false)
    (h : (v.inode i).type ≠ 0 → R () (v.lock ip)) (hE : (v.inode i).type = 0 → E .ilockNoType) :
    Via Shows (ilock ip) R E v := by
  rintro s ⟨hc, rfl⟩
  obtain ⟨hr, rfl⟩ := view_at.mp hat
  have hok := hc.entry ip
  have hun' : (s.icache ip).locked = false := hun
  simp only [ilock, acquiresleep, loadInode, wp_bind, wp_incore, wp_ite, wp_get, wp_modifyIncore,
    wp_throw, wp_pure, icache_setIncore_self, setIncore_setIncore, hun', Bool.false_eq_true,
    if_false]
  rw [if_neg (by omega)]
  by_cases hv : (s.icache ip).valid = true
  · rw [if_pos hv]
    have hc' : Coherent (s.setIncore ip { s.icache ip with locked := true }) :=
      hc.setIncore_same ⟨hok.copy, fun _ => ⟨hr, hv⟩, hok.unlinked⟩ fun _ => ⟨hr, rfl⟩
    exact ⟨_, ⟨hc', view_lock rfl rfl⟩, h (hok.copy hr hv).2⟩
  rw [if_neg hv]
  split
  case isTrue ht => exact hE ht
  case isFalse ht =>
  have hc' : Coherent (s.setIncore ip
      { s.icache ip with locked := true, dip := s.disk (s.icache ip).inum, valid := true }) :=
    hc.setIncore_same ⟨fun _ _ => ⟨rfl, ht⟩, fun _ => ⟨hr, rfl⟩, fun _ _ _ => rfl⟩
      fun _ => ⟨hr, rfl⟩
  exact ⟨_, ⟨hc', view_lock rfl rfl⟩, h ht⟩

theorem via_iunlock (hat : v.At ip i) (hl : v.locked ip = true)
    (h : R () (v.unlock ip)) : Via Shows (iunlock ip) R E v := by
  rintro s ⟨hc, rfl⟩
  obtain ⟨hr, rfl⟩ := view_at.mp hat
  have hok := hc.entry ip
  have hl' : (s.icache ip).locked = true := hl
  simp only [iunlock, releasesleep, wp_bind, wp_incore, wp_ite, wp_throw, wp_modifyIncore, hl',
    not_true_eq_false, false_or]
  rw [if_neg (by omega)]
  have hc' : Coherent (s.setIncore ip { s.icache ip with locked := false }) :=
    hc.setIncore_same ⟨hok.copy, fun hl => absurd hl Bool.false_ne_true, hok.unlinked⟩
      fun _ => ⟨hr, rfl⟩
  exact ⟨_, ⟨hc', view_unlock rfl rfl⟩, h⟩

theorem shows_setInode {d : Dinode} (hc : Coherent s) (hr : 0 < (s.icache ip).ref)
    (hv : (s.icache ip).valid = true) (hd : d.type ≠ 0) :
    Shows ((s.setDinode (s.icache ip).inum d).setIncore ip { s.icache ip with dip := d })
      (s.view.setInode (s.icache ip).inum d) := by
  have hself : update s.disk (s.icache ip).inum d (s.icache ip).inum = d :=
    update_self ..
  have hok : EntryOk (update s.disk (s.icache ip).inum d) { s.icache ip with dip := d } := by
    refine ⟨fun _ _ => ?_, (hc.entry ip).locked, fun _ _ _ => hv⟩
    dsimp only
    rw [hself]
    exact ⟨rfl, hd⟩
  refine ⟨hc.setDinode hr rfl hok fun _ => rfl, ?_⟩
  exact view_setIncore_same (s := s.setDinode (s.icache ip).inum d) rfl rfl

theorem via_updateInode {f : Dinode → Dinode} (hat : v.At ip i)
    (hl : v.locked ip = true) (hf : (f (v.inode i)).type ≠ 0)
    (h : R () (v.setInode i (f (v.inode i)))) : Via Shows (updateInode ip f) R E v := by
  rintro s ⟨hc, rfl⟩
  obtain ⟨hr, rfl⟩ := view_at.mp hat
  have hv := ((hc.entry ip).locked hl).2
  have hcopy := ((hc.entry ip).copy hr hv).1
  simp only [updateInode, iupdate, wp_bind, wp_incore, wp_modifyIncore, wp_modifyDinode,
    icache_setIncore_self, setDinode_setIncore, hcopy]
  exact ⟨_, shows_setInode hc hr hv hf, h⟩

theorem via_writei {src : List UInt8} {off : ℕ} {R : ℤ → View → Prop} (hat : v.At ip i)
    (hl : v.locked ip = true) (hoff : off ≤ (v.inode i).size)
    (hmax : (v.inode i).size ≤ MAXFILE * BSIZE) (hsrc : src.length ≤ MAXFILE * BSIZE)
    (h : off + src.length ≤ MAXFILE * BSIZE →
      R src.length (v.setInode i { v.inode i with data := splice (v.inode i).data off src }))
    (hrefused : MAXFILE * BSIZE < off + src.length → R (-1) v) :
    Via Shows (writei ip src off) R E v := by
  rintro s ⟨hc, rfl⟩
  obtain ⟨hr, rfl⟩ := view_at.mp hat
  have hv := ((hc.entry ip).locked hl).2
  obtain ⟨hcopy, htype⟩ := (hc.entry ip).copy hr hv
  have hM : MAXFILE * BSIZE = 71680 := rfl
  have hwrap : (off + src.length) % 2 ^ 32 = off + src.length := by omega
  have hoff' : ¬ off > (s.disk (s.icache ip).inum).size := not_lt.mpr hoff
  simp only [writei, wp_bind, wp_incore, wp_ite, wp_pure, wp_modifyIncore, wp_modifyDinode,
    setDinode_setIncore, disk_setIncore, hcopy, hwrap]
  rw [if_neg (by omega)]
  split
  case isTrue hgt => exact ⟨_, ⟨hc, rfl⟩, hrefused hgt⟩
  case isFalse hle =>
    refine ⟨_, shows_setInode hc hr hv ?_, h (not_lt.mp hle)⟩
    exact htype

theorem via_readi {off n : ℕ} {R : ℤ × List UInt8 → View → Prop} (hat : v.At ip i)
    (hl : v.locked ip = true) (hoff : off + n ≤ (v.inode i).size)
    (hmax : (v.inode i).size ≤ MAXFILE * BSIZE)
    (h : R (n, slice (v.inode i).data off n) v) : Via Shows (readi ip off n) R E v := by
  have hM : MAXFILE * BSIZE = 71680 := rfl
  have hlen : (slice (v.inode i).data off n).length = n := by
    unfold Dinode.size at hoff
    simp only [slice, length_take, length_drop]
    omega
  refine Via.bind_eq (via_inode hat hl ⟨rfl, rfl⟩) ?_
  rw [if_neg (by omega), hlen]
  exact Via.pure h

theorem view_drop (hheld : e.held = Held.dec (s.icache ip).held)
    (hlocked : e.locked = (s.icache ip).locked) : (s.setIncore ip e).view = s.view.drop ip := by
  rw [view_setIncore, hheld, hlocked]
  ext1
  case locked => exact update_eq_self ip s.view.locked
  all_goals rfl

theorem held_pred {e e' : Incore} (hr : 0 < e.ref) (hi : e'.inum = e.inum)
    (hr' : e'.ref = e.ref - 1) : e'.held = Held.dec e.held := by
  obtain ⟨n, hn⟩ : ∃ n, e.ref = n + 1 := ⟨e.ref - 1, by omega⟩
  rw [Incore.held_eq_some.mpr ⟨rfl, hn⟩]
  cases n with
  | zero => exact Incore.held_eq_none.mpr (by omega)
  | succ n => exact Incore.held_eq_some.mpr ⟨hi, by omega⟩

theorem via_iput (hat : v.At ip i) (hun : v.locked ip = false)
    (h : v.Gets ip i → R () (v.put ip i)) : Via Shows (iput ip) R E v := by
  rintro s ⟨hc, rfl⟩
  replace h := h (hc.gets hat)
  obtain ⟨hr, rfl⟩ := view_at.mp hat
  have hok := hc.entry ip
  have hun' : (s.icache ip).locked = false := hun
  simp only [iput, acquiresleep, releasesleep, itrunc, updateInode, iupdate, wp_bind, wp_incore,
    wp_ite, wp_modifyIncore, wp_modifyDinode, icache_setIncore_self,
    setIncore_setIncore, setDinode_setIncore, setDinode_setDinode, hun', Bool.false_eq_true,
    if_false]
  have hlast : (s.icache ip).ref = 1 ↔ s.view.cache ip = some ⟨(s.icache ip).inum, 0⟩ :=
    ⟨fun h1 => Incore.held_eq_some.mpr ⟨rfl, h1⟩, fun h1 => (Incore.held_eq_some.mp h1).2⟩
  split
  case isTrue hfree =>
    obtain ⟨hv, hn, h1⟩ := hfree
    obtain ⟨hcopy, htype⟩ := hok.copy hr hv
    rw [hcopy] at hn
    have hput : s.view.put ip (s.icache ip).inum =
        (s.view.setInode (s.icache ip).inum (s.disk (s.icache ip).inum).freed).drop ip :=
      if_pos ⟨hlast.mp h1, htype, hn⟩
    rw [hput] at h
    rw [hcopy]
    refine ⟨_, ⟨hc.setDinode hr rfl ⟨fun h0 => ?_, fun hl => absurd hl Bool.false_ne_true,
      fun h0 => ?_⟩ fun _ => rfl, ?_⟩, h⟩
    · dsimp only at h0
      omega
    · dsimp only at h0
      omega
    · exact view_drop (s := s.setDinode _ _) (held_pred hr rfl rfl) hun'.symm
  case isFalse hkeep =>
    have hnot : ¬ (s.view.cache ip = some ⟨(s.icache ip).inum, 0⟩ ∧
        s.view.Unlinked (s.icache ip).inum) := by
      rintro ⟨h1, htype, hn⟩
      have hv := hok.unlinked hr htype hn
      exact hkeep ⟨hv, (hok.copy hr hv).1 ▸ hn, hlast.mpr h1⟩
    rw [View.put, if_neg hnot] at h
    refine ⟨_, ⟨hc.setIncore_same ⟨fun _ => hok.copy hr, fun hl => absurd hl Bool.false_ne_true,
      fun _ => hok.unlinked hr⟩ fun _ => ⟨hr, rfl⟩, view_drop (held_pred hr rfl rfl) hun'.symm⟩, h⟩

theorem via_iput_locked (hl : v.locked ip = true) (hE : E .deadlock) :
    Via Shows (iput ip) R E v := by
  rintro s ⟨hc, rfl⟩
  have hl' : (s.icache ip).locked = true := hl
  simp only [iput, acquiresleep, wp_bind, wp_incore, wp_throw, hl', if_true]
  exact hE

theorem via_ialloc_ilock {α : Type} {ninodes : ℕ} {type : Int16} {f : Ptr → KM α}
    {Q : α → View → Prop} (htype : type ≠ 0) (hlive : ∀ j, v.Cached j → (v.inode j).type ≠ 0)
    (h : ∀ ip i, 0 < i → i < ninodes → (v.inode i).type = 0 → v.cache ip = none →
      Via Shows (f ip) Q E (((v.setInode i ⟨type, 0, 0, 0, []⟩).take ip i).lock ip))
    (hE : E .iallocNoInodes) (hE' : (∀ ip, v.cache ip ≠ none) → E .igetNoInodes) :
    Via Shows (ialloc ninodes type >>= fun ip => ilock ip >>= fun _ => f ip) Q E v := by
  rintro s ⟨hc, rfl⟩
  unfold ialloc
  rw [wp_bind, wp_bind, wp_get]
  cases hfind : (range' 1 (ninodes - 1)).find? fun inum => (s.disk inum).type = 0 with
  | none => exact hE
  | some i =>
  have hfree := find?_some hfind
  rw [decide_eq_true_eq] at hfree
  have hmem := mem_range'_1.mp (mem_of_find?_eq_some hfind)
  have hnot := not_cached_iff.mp fun hcached => hlive i hcached hfree
  simp only [wp_bind, wp_modifyDinode]
  refine wp_iget (fun ip hr hi => absurd hi (hnot ip hr)) (fun _ ip hz => ?_) fun _ hfull => ?_
  · have hz' : (s.icache ip).ref = 0 := hz
    simp only [ilock, acquiresleep, loadInode, wp_bind, wp_incore, wp_ite, wp_get,
      wp_modifyIncore, wp_pure, icache_setIncore_self, icache_setDinode, disk_setIncore,
      disk_setDinode, update_self, setIncore_setIncore, hc.not_locked hz',
      Bool.false_eq_true, if_false, htype]
    rw [if_neg (by decide)]
    have hnone : s.view.cache ip = none := Incore.held_eq_none.mpr hz'
    have hc' : Coherent (s.setDinode i ⟨type, 0, 0, 0, []⟩) := by
      refine ⟨fun ip' => (hc.entry ip').congr fun hr => ?_, hc.inj⟩
      exact update_of_ne (hnot ip' hr) ..
    refine h ip i hmem.1 (by omega) hfree hnone _ ⟨?_, ?_⟩
    · refine hc'.setIncore ⟨fun _ _ => ?_, fun _ => ⟨Nat.one_pos, rfl⟩, fun _ _ _ => rfl⟩
        fun _ ip' _ => hnot ip'
      dsimp only [Kernel.setDinode]
      rw [update_self]
      exact ⟨rfl, htype⟩
    rw [view_setIncore, View.take, View.lock]
    ext1
    case cache =>
      have hinc : Held.inc i (s.view.cache ip) = ⟨i, 0⟩ := by rw [hnone]; rfl
      change update s.view.cache ip _ = update s.view.cache ip (some (Held.inc i (s.view.cache ip)))
      rw [hinc]
      rfl
    all_goals rfl
  · exact hE' fun ip hip => hfull ip (Incore.held_eq_none.mp hip)

end Xv6.Names
