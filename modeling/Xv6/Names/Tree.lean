import Mathlib.Order.Interval.Finset.Nat
import Mathlib.Tactic.LinearCombination
import Xv6.Names.Base

/-!
# Link counts

The names in directories, beside `"."` and `".."`, form a forest of directories: a directory has at
most one name, which is in the directory that its `".."` stands for. The link count of a directory
is its name, plus one for each directory in it; the root counts as named. The link count of another
inode is at least the number of its names.
-/

namespace Xv6.Names

open Tally Function Finset

/-- Entry `e` of directory `d`, behind the first two, names inode `i`. -/
structure Entry (t : ℕ → Dinode) (d e i : ℕ) : Prop where
  dir : (t d).type = T_DIR
  two_le : 2 ≤ e
  slot : slots (t d).data e = i
  ne_zero : i ≠ 0

/-- The inode that `".."` stands for. -/
def parentOf (t : ℕ → Dinode) (d : ℕ) : ℕ := slots (t d).data 1

/-- How many entries of a directory, behind the first two, name an inode with `P`. -/
def kids (P : ℕ → Prop) [DecidablePred P] (x : Dinode) : ℕ :=
  if x.type = T_DIR then
    tally (Finset.Ico 2 NDIRENT) (fun j => if P j then 1 else 0) (slots x.data)
  else 0

/-- How many entries name inode `i`. -/
def links (ninodes : ℕ) (t : ℕ → Dinode) (i : ℕ) : ℕ :=
  tally (range ninodes) (kids (· = i)) t

/-- How many entries of directory `d` name directories. -/
def subdirs (t : ℕ → Dinode) (d : ℕ) : ℕ := kids (fun j => (t j).type = T_DIR) (t d)

variable {ninodes : ℕ} {t t' : ℕ → Dinode} {x y : Dinode} {d e i j : ℕ}

/-! ### Counting -/

theorem kids_congr {P Q : ℕ → Prop} [DecidablePred P] [DecidablePred Q] (htype : y.type = x.type)
    (hdata : y.data = x.data) (h : ∀ e, 2 ≤ e → (P (slots x.data e) ↔ Q (slots x.data e))) :
    kids P x = kids Q y := by
  unfold kids
  rw [htype, hdata]
  split
  · refine tally_congr fun e he => ?_
    simp only [h e (mem_Ico.mp he).1]
  · rfl

theorem kids_le (P : ℕ → Prop) [DecidablePred P] (x : Dinode) : kids P x ≤ NDIRENT := by
  unfold kids
  split
  · calc tally (Finset.Ico 2 NDIRENT) (fun j => if P j then 1 else 0) (slots x.data)
        ≤ ∑ _e ∈ Finset.Ico 2 NDIRENT, 1 := sum_le_sum fun e _ => by
          dsimp only
          split <;> omega
      _ = (Finset.Ico 2 NDIRENT).card := (card_eq_sum_ones _).symm
      _ ≤ NDIRENT := by rw [Nat.card_Ico]; omega
  · exact Nat.zero_le _

theorem kids_update {P : ℕ → Prop} [DecidablePred P] {b : ℕ} (hx : x.type = T_DIR)
    (hy : y.type = T_DIR) (he : e ∈ Finset.Ico 2 NDIRENT)
    (hslots : slots y.data = update (slots x.data) e b) :
    kids P y + (if P (slots x.data e) then 1 else 0) = kids P x + if P b then 1 else 0 := by
  unfold kids
  rw [if_pos hx, if_pos hy, hslots]
  exact tally_update (g := fun j => if P j then 1 else 0) he b

theorem links_update (hi : i < ninodes) (x : Dinode) (j : ℕ) :
    links ninodes (update t i x) j + kids (· = j) (t i) = links ninodes t j + kids (· = j) x :=
  tally_update (mem_range.mpr hi) x

theorem InodeOk.slot_lt (h : InodeOk ninodes d x) (hd : x.type = T_DIR) (he : slots x.data e ≠ 0) :
    e < NDIRENT :=
  have hw := (h.dir hd).whole
  (hw.lt_of_slots he).trans_le hw.nentries_le

theorem Entry.mem (h : Entry t d e i) (hok : InodeOk ninodes d (t d)) : e ∈ Finset.Ico 2 NDIRENT :=
  mem_Ico.mpr ⟨h.two_le, hok.slot_lt h.dir (h.slot ▸ h.ne_zero)⟩

theorem Entry.kids_ne_zero {P : ℕ → Prop} [DecidablePred P] (h : Entry t d e i)
    (hok : InodeOk ninodes d (t d)) (hP : P i) : kids P (t d) ≠ 0 := by
  have hle := le_tally (g := fun j => if P j then 1 else 0) (h := slots (t d).data) (h.mem hok)
  rw [h.slot, if_pos hP] at hle
  rw [kids, if_pos h.dir]
  omega

theorem exists_entry_of_kids {P : ℕ → Prop} [DecidablePred P] (h₀ : ¬ P 0)
    (h : kids P (t d) ≠ 0) : ∃ e i, Entry t d e i ∧ P i := by
  unfold kids at h
  split at h
  · next hd =>
    obtain ⟨e, he, hne⟩ := exists_of_tally_ne_zero h
    have hP : P (slots (t d).data e) := by
      by_contra hP
      exact hne (if_neg hP)
    refine ⟨e, _, ⟨hd, (mem_Ico.mp he).1, rfl, ?_⟩, hP⟩
    rintro hz
    rw [hz] at hP
    exact h₀ hP
  · exact absurd rfl h

theorem Entry.links_ne_zero (h : Entry t d e i) (hok : InodeOk ninodes d (t d)) :
    links ninodes t i ≠ 0 := by
  have hlt := (hok.bound (ne_zero_of_dir h.dir)).2
  have hle := le_tally (g := kids (· = i)) (h := t) (mem_range.mpr hlt)
  have hne := h.kids_ne_zero hok (P := (· = i)) rfl
  unfold links
  omega

theorem exists_entry_of_links (hi : i ≠ 0) (h : links ninodes t i ≠ 0) : ∃ d e, Entry t d e i := by
  obtain ⟨d, -, hne⟩ := exists_of_tally_ne_zero h
  obtain ⟨e, j, hent, rfl⟩ := exists_entry_of_kids hi.symm hne
  exact ⟨d, e, hent⟩

/-! ### The invariant -/

/-- The invariant, up to a discrepancy `δ` between link counts and names. With `exact`, link counts
of files are not larger than needed. -/
structure TreeUpTo (ninodes : ℕ) (exact : Prop) (δ : ℕ → ℤ) (t : ℕ → Dinode) : Prop where
  inode : ∀ i, InodeOk ninodes i (t i)
  root : (t ROOTINO).type = T_DIR ∧ parentOf t ROOTINO = ROOTINO
  /-- Names lead to allocated inodes, and not to the root. -/
  entries : ∀ d e i, Entry t d e i → (t i).type ≠ 0 ∧ i ≠ ROOTINO
  /-- A directory is named in its `".."`. -/
  parent : ∀ d e i, Entry t d e i → (t i).type = T_DIR → parentOf t i = d
  once : ∀ i, (t i).type = T_DIR → links ninodes t i ≤ 1
  dirLinks : ∀ i, (t i).type = T_DIR → (t i).nlink.toInt =
    links ninodes t i + (if i = ROOTINO then 1 else 0) + subdirs t i + δ i
  fileLinks : ∀ i, (t i).type ≠ 0 → (t i).type ≠ T_DIR →
    links ninodes t i + δ i ≤ (t i).nlink.toInt
  fileExact : exact → ∀ i, (t i).type ≠ 0 → (t i).type ≠ T_DIR →
    (t i).nlink.toInt ≤ links ninodes t i + δ i

def Tree (ninodes : ℕ) (exact : Prop) (t : ℕ → Dinode) : Prop :=
  TreeUpTo ninodes exact (fun _ => 0) t

variable {exact : Prop} {δ δ' : ℕ → ℤ}

theorem TreeUpTo.congr (h : TreeUpTo ninodes exact δ t)
    (hδ : ∀ j, (t j).type ≠ 0 → δ' j = δ j) : TreeUpTo ninodes exact δ' t :=
  { h with
    dirLinks := fun i hi => by
      rw [hδ i (ne_zero_of_dir hi)]
      exact h.dirLinks i hi
    fileLinks := fun i hi => by
      rw [hδ i hi]
      exact h.fileLinks i hi
    fileExact := fun hex i hi => by
      rw [hδ i hi]
      exact h.fileExact hex i hi }

/-! ### Link counts change -/

def SameNames (t t' : ℕ → Dinode) : Prop :=
  ∀ j, (t' j).type = (t j).type ∧ (t' j).data = (t j).data

namespace SameNames

variable (h : SameNames t t')
include h

theorem entry_iff : Entry t' d e i ↔ Entry t d e i := by
  constructor
  · exact fun hent => ⟨(h d).1 ▸ hent.dir, hent.two_le, (h d).2 ▸ hent.slot, hent.ne_zero⟩
  · exact fun hent => ⟨(h d).1.symm ▸ hent.dir, hent.two_le, (h d).2.symm ▸ hent.slot, hent.ne_zero⟩

theorem links_eq (i : ℕ) : links ninodes t' i = links ninodes t i := by
  refine tally_congr fun d _ => ?_
  exact (kids_congr (P := (· = i)) (h d).1 (h d).2 fun _ _ => Iff.rfl).symm

theorem subdirs_eq (d : ℕ) : subdirs t' d = subdirs t d := by
  refine (kids_congr (h d).1 (h d).2 fun e _ => ?_).symm
  rw [(h _).1]

theorem parentOf_eq (d : ℕ) : parentOf t' d = parentOf t d := by
  unfold parentOf
  rw [(h d).2]

end SameNames

/-- The link count of inode `i` becomes `y`. -/
def withNlink (t : ℕ → Dinode) (i : ℕ) (y : Int16) : ℕ → Dinode :=
  update t i { t i with nlink := y }

theorem withNlink_self (t : ℕ → Dinode) (i : ℕ) (y : Int16) :
    withNlink t i y i = { t i with nlink := y } := update_self ..

theorem withNlink_of_ne (h : j ≠ i) (y : Int16) : withNlink t i y j = t j :=
  update_of_ne h ..

theorem sameNames_withNlink (t : ℕ → Dinode) (i : ℕ) (y : Int16) :
    SameNames t (withNlink t i y) := by
  intro j
  rcases eq_or_ne j i with rfl | hne
  · rw [withNlink_self]
    exact ⟨rfl, rfl⟩
  · rw [withNlink_of_ne hne]
    exact ⟨rfl, rfl⟩

theorem TreeUpTo.withNlink {y : Int16} {k : ℤ} (h : TreeUpTo ninodes exact δ t)
    (hy : y.toInt = (t i).nlink.toInt + k) :
    TreeUpTo ninodes exact (fun j => δ j + if j = i then k else 0) (Names.withNlink t i y) := by
  have hs := sameNames_withNlink t i y
  have hnlink : ∀ j, (Names.withNlink t i y j).nlink.toInt =
      (t j).nlink.toInt + if j = i then k else 0 := by
    intro j
    rcases eq_or_ne j i with rfl | hne
    · rw [withNlink_self, if_pos rfl]
      exact hy
    · rw [withNlink_of_ne hne, if_neg hne, add_zero]
  refine ⟨fun j => ?_, ?_, fun d e j hent => ?_, fun d e j hent hd => ?_, fun j hd => ?_,
    fun j hd => ?_, fun j h₀ hd => ?_, fun hex j h₀ hd => ?_⟩
  · exact ⟨fun h₀ => (h.inode j).bound ((hs j).1 ▸ h₀),
      fun hd => (hs j).2.symm ▸ (h.inode j).dir ((hs j).1 ▸ hd)⟩
  · rw [hs.parentOf_eq, (hs _).1]
    exact h.root
  · rw [(hs j).1]
    exact h.entries d e j (hs.entry_iff.mp hent)
  · rw [(hs j).1] at hd
    rw [hs.parentOf_eq]
    exact h.parent d e j (hs.entry_iff.mp hent) hd
  · rw [(hs j).1] at hd
    rw [hs.links_eq]
    exact h.once j hd
  · rw [(hs j).1] at hd
    have := h.dirLinks j hd
    rw [hnlink, hs.links_eq, hs.subdirs_eq]
    omega
  · rw [(hs j).1] at h₀ hd
    have := h.fileLinks j h₀ hd
    rw [hnlink, hs.links_eq]
    omega
  rw [(hs j).1] at h₀ hd
  have := h.fileExact hex j h₀ hd
  rw [hnlink, hs.links_eq]
  omega

/-! ### Entries change -/

/-- Slot `e` of directory `d` becomes `b`, and the inode `y`. -/
structure PutSlot (ninodes : ℕ) (t : ℕ → Dinode) (d e b : ℕ) (y : Dinode) : Prop where
  dir : (t d).type = T_DIR
  mem : e ∈ Finset.Ico 2 NDIRENT
  type : y.type = (t d).type
  nlink : y.nlink = (t d).nlink
  slots : slots y.data = update (slots (t d).data) e b
  ok : InodeOk ninodes d y
  bound : d < ninodes

namespace PutSlot

variable {b : ℕ} (h : PutSlot ninodes t d e b y)
include h

theorem type_eq (j : ℕ) : (update t d y j).type = (t j).type := by
  rcases eq_or_ne j d with rfl | hne
  · rw [update_self, h.type]
  · rw [update_of_ne hne]

theorem nlink_eq (j : ℕ) : (update t d y j).nlink = (t j).nlink := by
  rcases eq_or_ne j d with rfl | hne
  · rw [update_self, h.nlink]
  · rw [update_of_ne hne]

theorem inode (ht : ∀ j, InodeOk ninodes j (t j)) (j : ℕ) : InodeOk ninodes j (update t d y j) := by
  rcases eq_or_ne j d with rfl | hne
  · rw [update_self]
    exact h.ok
  · rw [update_of_ne hne]
    exact ht j

theorem parentOf_eq (j : ℕ) : parentOf (update t d y) j = parentOf t j := by
  unfold parentOf
  rcases eq_or_ne j d with rfl | hne
  · have hne : 1 ≠ e := by
      have := (mem_Ico.mp h.mem).1
      omega
    rw [update_self, h.slots, update_of_ne hne]
  · rw [update_of_ne hne]

theorem links_add (j : ℕ) : links ninodes (update t d y) j +
    (if Names.slots (t d).data e = j then 1 else 0) =
      links ninodes t j + if b = j then 1 else 0 := by
  have hlinks := links_update (t := t) h.bound y j
  have hkids := kids_update (P := (· = j)) h.dir (h.type.trans h.dir) h.mem h.slots
  omega

theorem subdirs_of_ne (hne : j ≠ d) : subdirs (update t d y) j = subdirs t j := by
  unfold subdirs
  rw [update_of_ne hne]
  exact kids_congr rfl rfl fun _ _ => by rw [h.type_eq]

theorem subdirs_add : subdirs (update t d y) d +
    (if (t (Names.slots (t d).data e)).type = T_DIR then 1 else 0) =
      subdirs t d + if (t b).type = T_DIR then 1 else 0 := by
  have hkids := kids_update (P := fun j => (t j).type = T_DIR) h.dir (h.type.trans h.dir) h.mem
    h.slots
  have hsame : kids (fun j => (t j).type = T_DIR) y = subdirs (update t d y) d := by
    unfold subdirs
    rw [update_self]
    exact kids_congr rfl rfl fun _ _ => by rw [h.type_eq]
  rw [← hsame]
  exact hkids

theorem entry_iff {d' e' : ℕ} : Entry (update t d y) d' e' j ↔
    (Entry t d' e' j ∧ ¬ (d' = d ∧ e' = e)) ∨ (d' = d ∧ e' = e ∧ j = b ∧ b ≠ 0) := by
  rcases eq_or_ne d' d with rfl | hne
  · have hself : Names.slots (update t d' y d').data e' =
        update (Names.slots (t d').data) e b e' := by
      rw [update_self, h.slots]
    rcases eq_or_ne e' e with rfl | hne'
    · replace hself := hself.trans (update_self ..)
      constructor
      · intro hent
        have hj : j = b := hent.slot.symm.trans hself
        exact .inr ⟨rfl, rfl, hj, hj ▸ hent.ne_zero⟩
      · rintro (⟨-, hf⟩ | ⟨-, -, rfl, h₀⟩)
        · exact absurd ⟨rfl, rfl⟩ hf
        · exact ⟨(h.type_eq _).trans h.dir, (mem_Ico.mp h.mem).1, hself, h₀⟩
    replace hself := hself.trans (update_of_ne hne' ..)
    constructor
    · intro hent
      exact .inl ⟨⟨h.dir, hent.two_le, hself.symm.trans hent.slot, hent.ne_zero⟩,
        fun hh => hne' hh.2⟩
    · rintro (⟨hent, -⟩ | ⟨-, rfl, -⟩)
      · exact ⟨(h.type_eq _).trans h.dir, hent.two_le, hself.trans hent.slot, hent.ne_zero⟩
      · exact absurd rfl hne'
  · have hsame : Entry (update t d y) d' e' j ↔ Entry t d' e' j := by
      constructor
      · rintro ⟨hd, h₂, hs, h₀⟩
        rw [update_of_ne hne] at hd hs
        exact ⟨hd, h₂, hs, h₀⟩
      · rintro ⟨hd, h₂, hs, h₀⟩
        rw [← update_of_ne hne y t] at hd hs
        exact ⟨hd, h₂, hs, h₀⟩
    rw [hsame]
    constructor
    · exact fun hent => .inl ⟨hent, fun hh => hne hh.1⟩
    · rintro (⟨hent, -⟩ | ⟨rfl, -⟩)
      · exact hent
      · exact absurd rfl hne

end PutSlot

theorem TreeUpTo.zero_not_dir (h : TreeUpTo ninodes exact δ t) : (t 0).type ≠ T_DIR := by
  intro hd
  exact absurd ((h.inode 0).bound (ne_zero_of_dir hd)).1 (lt_irrefl 0)

/-- How many more links inode `j` should have when slot `e` of directory `d` changes from `a` to
`b`. -/
def slotChange (t : ℕ → Dinode) (d a b j : ℕ) : ℤ :=
  (if b = j then 1 else 0) - (if a = j then 1 else 0) +
    if j = d then (if (t b).type = T_DIR then 1 else 0) - (if (t a).type = T_DIR then 1 else 0)
    else 0

theorem TreeUpTo.putSlot {b : ℕ} (h : TreeUpTo ninodes exact δ t) (hput : PutSlot ninodes t d e b y)
    (hb : b ≠ 0 → (t b).type ≠ 0 ∧ b ≠ ROOTINO ∧
      ((t b).type = T_DIR → links ninodes t b = 0 ∧ parentOf t b = d)) :
    TreeUpTo ninodes exact (fun j => δ j - slotChange t d (slots (t d).data e) b j)
      (update t d y) := by
  have hlinks : ∀ j, (links ninodes (update t d y) j : ℤ) = links ninodes t j +
      (if b = j then 1 else 0) - (if slots (t d).data e = j then 1 else 0) := by
    intro j
    have hadd := congrArg (Nat.cast : ℕ → ℤ) (hput.links_add j)
    push_cast at hadd
    linear_combination hadd
  have hfile : ∀ j, (t j).type ≠ T_DIR → slotChange t d (slots (t d).data e) b j =
      (if b = j then 1 else 0) - (if slots (t d).data e = j then 1 else 0) := by
    intro j hj
    have hjd : j ≠ d := by
      rintro rfl
      exact hj hput.dir
    rw [slotChange, if_neg hjd, add_zero]
  refine ⟨hput.inode h.inode, ?_, fun d' e' j hent => ?_, fun d' e' j hent hd => ?_,
    fun j hd => ?_, fun j hd => ?_, fun j hj hd => ?_, fun hex j hj hd => ?_⟩
  · rw [hput.type_eq, hput.parentOf_eq]
    exact h.root
  · rw [hput.type_eq]
    rcases hput.entry_iff.mp hent with ⟨hent, -⟩ | ⟨-, -, rfl, -⟩
    · exact h.entries d' e' j hent
    · exact ⟨(hb hent.ne_zero).1, (hb hent.ne_zero).2.1⟩
  · rw [hput.type_eq] at hd
    rw [hput.parentOf_eq]
    rcases hput.entry_iff.mp hent with ⟨hent, -⟩ | ⟨rfl, -, rfl, -⟩
    · exact h.parent d' e' j hent hd
    · exact ((hb hent.ne_zero).2.2 hd).2
  · rw [hput.type_eq] at hd
    have honce := h.once j hd
    have hadd := hput.links_add j
    rcases eq_or_ne b j with rfl | hbj
    · have hb₀ : b ≠ 0 := by
        rintro rfl
        exact h.zero_not_dir hd
      rw [((hb hb₀).2.2 hd).1, if_pos rfl] at hadd
      omega
    · rw [if_neg hbj] at hadd
      omega
  · rw [hput.type_eq] at hd
    rw [hput.nlink_eq, h.dirLinks j hd, hlinks]
    unfold slotChange
    rcases eq_or_ne j d with rfl | hjd
    · have hsub := congrArg (Nat.cast : ℕ → ℤ) hput.subdirs_add
      push_cast at hsub
      rw [if_pos rfl]
      linear_combination - hsub
    · rw [hput.subdirs_of_ne hjd, if_neg hjd]
      ring
  · rw [hput.type_eq] at hj hd
    have hbefore := h.fileLinks j hj hd
    rw [hput.nlink_eq, hlinks, hfile j hd]
    linear_combination hbefore
  · rw [hput.type_eq] at hj hd
    have hbefore := h.fileExact hex j hj hd
    rw [hput.nlink_eq, hlinks, hfile j hd]
    linear_combination hbefore

/-! ### Inodes come and go -/

/-- Inode `i` is replaced by `x`, neither having names. Entries are not made, and none for a
directory is lost. -/
structure Replace (ninodes : ℕ) (exact : Prop) (t : ℕ → Dinode) (i : ℕ) (x : Dinode) : Prop where
  bound : i < ninodes
  ne_root : i ≠ ROOTINO
  unnamed : ∀ d e, ¬ Entry t d e i
  ok : InodeOk ninodes i x
  empty : x.type = T_DIR → ∀ e, 2 ≤ e → slots x.data e = 0
  lost : ∀ e j, Entry t i e j → (t j).type ≠ T_DIR ∧ ¬ exact

namespace Replace

variable (h : Replace ninodes exact t i x)
include h

theorem kids_eq_zero {P : ℕ → Prop} [DecidablePred P] (hP : ¬ P 0) : kids P x = 0 := by
  by_contra hne
  obtain ⟨e, j, hent, -⟩ := exists_entry_of_kids (t := fun _ => x) (d := 0) hP hne
  exact hent.ne_zero (hent.slot.symm.trans (h.empty hent.dir e hent.two_le))

theorem links_add (hj : j ≠ 0) :
    links ninodes (update t i x) j + kids (· = j) (t i) = links ninodes t j := by
  have hupd := links_update (t := t) h.bound x j
  rwa [h.kids_eq_zero (P := (· = j)) hj.symm, add_zero] at hupd

theorem links_eq (hj : j ≠ 0) (hkeep : (t j).type = T_DIR ∨ exact) :
    links ninodes (update t i x) j = links ninodes t j := by
  have hadd := h.links_add hj
  have hkids : kids (· = j) (t i) = 0 := by
    by_contra hne
    obtain ⟨e, k, hent, rfl⟩ := exists_entry_of_kids (P := (· = j)) hj.symm hne
    rcases hkeep with hd | hex
    · exact (h.lost e k hent).1 hd
    · exact (h.lost e k hent).2 hex
  omega

theorem entry_iff : Entry (update t i x) d e j ↔ Entry t d e j ∧ d ≠ i := by
  constructor
  · rintro ⟨hd, h₂, hs, h₀⟩
    have hdi : d ≠ i := by
      rintro rfl
      rw [update_self] at hd hs
      exact h₀ (hs.symm.trans (h.empty hd e h₂))
    rw [update_of_ne hdi] at hd hs
    exact ⟨⟨hd, h₂, hs, h₀⟩, hdi⟩
  · rintro ⟨⟨hd, h₂, hs, h₀⟩, hdi⟩
    rw [← update_of_ne hdi x t] at hd hs
    exact ⟨hd, h₂, hs, h₀⟩

theorem entry (hent : Entry (update t i x) d e j) : Entry t d e j ∧ j ≠ i := by
  have hent₀ := (h.entry_iff.mp hent).1
  refine ⟨hent₀, ?_⟩
  rintro rfl
  exact h.unnamed d e hent₀

theorem subdirs_eq (hj : (t j).type = T_DIR) (hi : i ≠ 0) (hne : j ≠ i) :
    subdirs (update t i x) j = subdirs t j := by
  unfold subdirs
  rw [update_of_ne hne]
  refine kids_congr rfl rfl fun e he => ?_
  have hslot : slots (t j).data e ≠ i := fun hs => h.unnamed j e ⟨hj, he, hs, hi⟩
  rw [update_of_ne hslot]

end Replace

theorem TreeUpTo.replace (h : TreeUpTo ninodes exact δ t) (hi : i ≠ 0)
    (hr : Replace ninodes exact t i x) :
    TreeUpTo ninodes exact (update δ i x.nlink.toInt) (update t i x) := by
  have hself : update t i x i = x := update_self ..
  have hother : ∀ j, j ≠ i → update t i x j = t j :=
    fun j hj => update_of_ne hj ..
  have hδ : ∀ j, j ≠ i → update δ i x.nlink.toInt j = δ j :=
    fun j hj => update_of_ne hj ..
  have hunnamed : links ninodes (update t i x) i = 0 := by
    by_contra hne
    obtain ⟨d, e, hent⟩ := exists_entry_of_links hi hne
    exact (hr.entry hent).2 rfl
  have hinode : ∀ j, InodeOk ninodes j (update t i x j) := by
    intro j
    rcases eq_or_ne j i with rfl | hne
    · rw [hself]
      exact hr.ok
    · rw [hother j hne]
      exact h.inode j
  have hpos : ∀ j, (update t i x j).type ≠ 0 → j ≠ 0 :=
    fun j hj => ((hinode j).bound hj).1.ne'
  have hsub : subdirs (update t i x) i = 0 := by
    unfold subdirs
    rw [hself]
    refine hr.kids_eq_zero fun hd => ?_
    exact hpos 0 (ne_zero_of_dir hd) rfl
  refine ⟨hinode, ?_, fun d e j hent => ?_, fun d e j hent hd => ?_, fun j hd => ?_,
    fun j hd => ?_, fun j h₀ hd => ?_, fun hex j h₀ hd => ?_⟩
  · rw [parentOf, hother _ hr.ne_root.symm]
    exact h.root
  · obtain ⟨hent, hne⟩ := hr.entry hent
    rw [hother j hne]
    exact h.entries d e j hent
  · obtain ⟨hent, hne⟩ := hr.entry hent
    rw [hother j hne] at hd
    rw [parentOf, hother j hne]
    exact h.parent d e j hent hd
  · rcases eq_or_ne j i with rfl | hne
    · rw [hunnamed]
      exact Nat.zero_le 1
    have hj := hpos j (ne_zero_of_dir hd)
    rw [hother j hne] at hd
    rw [hr.links_eq hj (.inl hd)]
    exact h.once j hd
  · rcases eq_or_ne j i with rfl | hne
    · rw [hunnamed, hsub, hself, update_self, if_neg hr.ne_root]
      omega
    have hj := hpos j (ne_zero_of_dir hd)
    rw [hother j hne] at hd
    rw [hr.links_eq hj (.inl hd), hr.subdirs_eq hd hi hne, hother j hne, hδ j hne]
    exact h.dirLinks j hd
  · rcases eq_or_ne j i with rfl | hne
    · rw [hunnamed, hself, update_self]
      omega
    have hadd := hr.links_add (hpos j h₀)
    rw [hother j hne] at h₀ hd ⊢
    rw [hδ j hne]
    have := h.fileLinks j h₀ hd
    omega
  · rcases eq_or_ne j i with rfl | hne
    · rw [hunnamed, hself, update_self]
      omega
    have hj := hpos j h₀
    rw [hother j hne] at h₀ hd ⊢
    rw [hδ j hne, hr.links_eq hj (.inr hex)]
    exact h.fileExact hex j h₀ hd

theorem TreeUpTo.replace_freed (h : TreeUpTo ninodes exact δ t) (hδ : δ i = 0) (hu : Unlinked t i)
    (hex : exact → ∀ e j, ¬ Entry t i e j) : Replace ninodes exact t i (t i).freed := by
  have hb := (h.inode i).bound hu.1
  have hzero : (t i).nlink.toInt = 0 := by
    rw [hu.2]
    rfl
  have hnames : links ninodes t i = 0 ∧ i ≠ ROOTINO ∧ ((t i).type = T_DIR → subdirs t i = 0) := by
    by_cases hd : (t i).type = T_DIR
    · have hcount := h.dirLinks i hd
      rw [hzero, hδ] at hcount
      have hroot : i ≠ ROOTINO := by
        rintro rfl
        rw [if_pos rfl] at hcount
        omega
      rw [if_neg hroot] at hcount
      exact ⟨by omega, hroot, fun _ => by omega⟩
    · have hcount := h.fileLinks i hu.1 hd
      rw [hzero, hδ] at hcount
      refine ⟨by omega, ?_, fun hd' => absurd hd' hd⟩
      rintro rfl
      exact hd h.root.1
  refine ⟨hb.2, hnames.2.1, fun d e hent => ?_, inodeOk_freed .., fun hd => ?_,
    fun e j hent => ⟨fun hd => ?_, fun hexact => hex hexact e j hent⟩⟩
  · exact hent.links_ne_zero (h.inode d) hnames.1
  · exact absurd hd (by decide : (0 : Int16) ≠ T_DIR)
  · exact hent.kids_ne_zero (h.inode i) (P := fun j => (t j).type = T_DIR) hd (hnames.2.2 hent.dir)

theorem TreeUpTo.freed (h : TreeUpTo ninodes exact δ t) (hδ : δ i = 0) (hu : Unlinked t i)
    (hex : exact → ∀ e j, ¬ Entry t i e j) : TreeUpTo ninodes exact δ (update t i (t i).freed) := by
  have hb := (h.inode i).bound hu.1
  refine (h.replace hb.1.ne' (h.replace_freed hδ hu hex)).congr fun j hj => ?_
  have hne : j ≠ i := by
    rintro rfl
    rw [update_self] at hj
    exact hj rfl
  rw [update_of_ne hne]

end Xv6.Names
