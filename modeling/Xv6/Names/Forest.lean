import Xv6.Names.Tree

/-!
# What events do to names

Each change to the name space, as a sequence of changes to single inodes: which names there are
afterwards, and that link counts still agree with them. An inode is then freed if it has neither
links nor references.
-/

namespace Xv6.Names

open Function

variable {ninodes : ℕ} {t : ℕ → Dinode} {x : Dinode} {d e i j d' e' : ℕ} {exact : Prop}
  {name : List UInt8} {type major minor : Int16}

/-! ### Link counts are small integers -/

theorem toInt_succ {a : Int16} (h : a.toInt < 32767) : (a + 1).toInt = a.toInt + 1 := by
  have hle := a.le_toInt
  have hone : (1 : Int16).toInt = 1 := by decide
  rw [Int16.toInt_add, hone]
  exact Int.bmod_eq_of_le (by omega) (by omega)

theorem toInt_pred {a : Int16} (h : -32768 < a.toInt) : (a - 1).toInt = a.toInt - 1 := by
  have hlt := a.toInt_lt
  have hone : (1 : Int16).toInt = 1 := by decide
  rw [Int16.toInt_sub, hone]
  exact Int.bmod_eq_of_le (by omega) (by omega)

theorem Tree.dir_nlink (h : Tree ninodes exact t) (hd : (t d).type = T_DIR) :
    0 ≤ (t d).nlink.toInt ∧ (t d).nlink.toInt < 32767 := by
  have hcount := h.dirLinks d hd
  have honce := h.once d hd
  have hsub : subdirs t d ≤ 4480 := kids_le ..
  split at hcount <;> omega

theorem Tree.nlink_nonneg (h : Tree ninodes exact t) (hi : (t i).type ≠ 0) :
    0 ≤ (t i).nlink.toInt := by
  by_cases hd : (t i).type = T_DIR
  · exact (h.dir_nlink hd).1
  · have := h.fileLinks i hi hd
    omega

/-! ### Adding and clearing an entry -/

theorem putSlot_addEntry (hN : ninodes ≤ 65536) (hok : InodeOk ninodes d (t d))
    (hadd : CanAdd t d name) (hi : i < ninodes) (hid : i ≠ d) :
    PutSlot ninodes t d (firstFree (t d).data) i ((t d).addEntry name i) where
  dir := hadd.dir
  mem := by
    have hpos := (hok.bound (ne_zero_of_dir hadd.dir)).1
    have hfit : 16 * firstFree (t d).data + 16 ≤ 71680 := hadd.fits
    have hmax : NDIRENT = 4480 := rfl
    exact Finset.mem_Ico.mpr ⟨(hok.dir hadd.dir).two_le_firstFree hpos.ne', by omega⟩
  type := rfl
  nlink := rfl
  slots := slots_putEntry (firstFree_le _) (length_strncpy ..) (by dsimp only; omega)
  ok := hok.addEntry hN ⟨hadd.dir, hadd.new, hadd.fits⟩ hi hid
  bound := (hok.bound (ne_zero_of_dir hadd.dir)).2

theorem CanRemove.two_le (h : CanRemove t d e i) (hok : InodeOk ninodes d (t d)) : 2 ≤ e :=
  (hok.dir h.dir).two_le h.ne_dot h.ne_dotdot

theorem CanRemove.entry (h : CanRemove t d e i) (hok : InodeOk ninodes d (t d)) :
    Entry t d e i := ⟨h.dir, h.two_le hok, h.inum, h.ne_zero⟩

theorem putSlot_clear (hok : InodeOk ninodes d (t d)) (hrem : CanRemove t d e i) :
    PutSlot ninodes t d e 0 { t d with data := putEntry (t d).data e Dirent.free } where
  dir := hrem.dir
  mem := (hrem.entry hok).mem hok
  type := rfl
  nlink := rfl
  slots := slots_putEntry hrem.lt.le rfl (by decide)
  ok := by
    have hb := hok.bound (ne_zero_of_dir hrem.dir)
    exact ⟨fun _ => hb, fun _ => (hok.dir hrem.dir).clear hb.1.ne' (hrem.two_le hok) hrem.lt⟩
  bound := (hok.bound (ne_zero_of_dir hrem.dir)).2

theorem slots_firstFree (h : DirOk d x.data) : slots x.data (firstFree x.data) = 0 :=
  inum_firstFree h.whole.mod

/-! ### A new inode -/

/-- The table in the middle of a `make`: the inode is allocated and the directory's link count is
up to date. -/
def midMake (t : ℕ → Dinode) (d i : ℕ) (type major minor : Int16) : ℕ → Dinode :=
  withNlink (update t i (newInode i d type major minor)) d (parentInode (t d) type).nlink

theorem midMake_self (hid : i ≠ d) : midMake t d i type major minor d = parentInode (t d) type := by
  rw [midMake, withNlink_self, update_of_ne hid.symm]
  unfold parentInode
  split <;> rfl

theorem makeTable_eq_midMake (hid : i ≠ d) : makeTable t d name i type major minor =
    update (midMake t d i type major minor) d
      ((midMake t d i type major minor d).addEntry name i) := by
  rw [midMake_self hid, makeTable_eq, midMake, withNlink, update_idem]

/-- A `make` that can happen. -/
structure Making (ninodes : ℕ) (t : ℕ → Dinode) (d : ℕ) (name : List UInt8) (i : ℕ)
    (type : Int16) : Prop where
  fits : ninodes ≤ 65536
  add : CanAdd t d name
  pos : 0 < i
  bound : i < ninodes
  free : (t i).type = 0
  type : type ≠ 0

namespace Making

variable (hm : Making ninodes t d name i type)
include hm

theorem ne : i ≠ d := by
  rintro rfl
  exact ne_zero_of_dir hm.add.dir hm.free

omit hm in
theorem empty (hd : type = T_DIR) (he : 2 ≤ e) :
    slots (newInode i d type major minor).data e = 0 := by
  rw [newInode, if_pos hd]
  refine entry_of_nentries_le ?_ ?_
  · rw [length_dotData]
    rfl
  · rw [nentries, length_dotData]
    exact he

theorem replace (h : Tree ninodes exact t) (major minor : Int16) :
    Replace ninodes exact t i (newInode i d type major minor) := by
  have hd := (h.inode d).bound (ne_zero_of_dir hm.add.dir)
  have hnodir : (t i).type ≠ T_DIR := by
    rw [hm.free]
    decide
  refine ⟨hm.bound, ?_, fun d e hent => ?_, ?_, fun ht e he => empty ht he, fun e j hent => ?_⟩
  · rintro rfl
    exact hnodir h.root.1
  · exact (h.entries d e i hent).1 hm.free
  · exact inodeOk_newInode hm.fits hm.pos hm.bound hd.1 hd.2
  · exact absurd hent.dir hnodir

theorem canAdd (major minor : Int16) : CanAdd (midMake t d i type major minor) d name := by
  constructor
  · rw [midMake_self hm.ne, type_parentInode]
    exact hm.add.dir
  · rw [midMake_self hm.ne, data_parentInode]
    exact hm.add.new
  · rw [midMake_self hm.ne, data_parentInode]
    exact hm.add.fits

theorem mid (h : Tree ninodes exact t) (major minor : Int16) :
    TreeUpTo ninodes exact (fun j => update (fun _ => (0 : ℤ)) i 1 j +
      if j = d then (if type = T_DIR then 1 else 0) else 0) (midMake t d i type major minor) := by
  refine (h.replace hm.pos.ne' (hm.replace h major minor)).withNlink ?_
  rw [update_of_ne hm.ne.symm]
  unfold parentInode
  split
  · exact toInt_succ (h.dir_nlink hm.add.dir).2
  · exact (add_zero _).symm

theorem putSlot (h : Tree ninodes exact t) (major minor : Int16) :
    PutSlot ninodes (midMake t d i type major minor) d (firstFree (t d).data) i
      ((midMake t d i type major minor d).addEntry name i) := by
  have hput := putSlot_addEntry hm.fits ((hm.mid h major minor).inode d) (hm.canAdd major minor)
    hm.bound hm.ne
  rwa [midMake_self hm.ne, data_parentInode, ← midMake_self hm.ne] at hput

theorem mid_inode (major minor : Int16) :
    midMake t d i type major minor i = newInode i d type major minor := by
  rw [midMake, withNlink_of_ne hm.ne, update_self]

theorem entry_mid (h : Tree ninodes exact t) (major minor : Int16) :
    Entry (midMake t d i type major minor) d' e' j ↔ Entry t d' e' j := by
  rw [midMake, (sameNames_withNlink _ _ _).entry_iff, (hm.replace h major minor).entry_iff]
  refine ⟨And.left, fun hent => ⟨hent, ?_⟩⟩
  rintro rfl
  exact ne_zero_of_dir hent.dir hm.free

theorem links_mid (h : Tree ninodes exact t) (major minor : Int16) :
    links ninodes (midMake t d i type major minor) i = 0 := by
  by_contra hne
  obtain ⟨d', e', hent⟩ := exists_entry_of_links hm.pos.ne' hne
  exact (h.entries d' e' i ((hm.entry_mid h major minor).mp hent)).1 hm.free

theorem parent_mid (hd : type = T_DIR) (hlt : d < 65536) (major minor : Int16) :
    parentOf (midMake t d i type major minor) i = d := by
  rw [parentOf, hm.mid_inode, newInode, if_pos hd, slots, entry_dotData_one hlt]

end Making

theorem entry_add_iff (h : Tree ninodes exact t) (hi : i ≠ 0) :
    (Entry t d' e' j ∧ ¬ (d' = d ∧ e' = firstFree (t d).data)) ∨
        (d' = d ∧ e' = firstFree (t d).data ∧ j = i ∧ i ≠ 0) ↔
      Entry t d' e' j ∨ (d' = d ∧ e' = firstFree (t d).data ∧ j = i) := by
  constructor
  · rintro (⟨hent, -⟩ | ⟨hd, he, hj, -⟩)
    · exact .inl hent
    · exact .inr ⟨hd, he, hj⟩
  rintro (hent | ⟨hd, he, hj⟩)
  · refine .inl ⟨hent, ?_⟩
    rintro ⟨rfl, rfl⟩
    exact hent.ne_zero (hent.slot.symm.trans (slots_firstFree ((h.inode d').dir hent.dir)))
  · exact .inr ⟨hd, he, hj, hi⟩

theorem entry_makeTable (hm : Making ninodes t d name i type) (h : Tree ninodes exact t) :
    Entry (makeTable t d name i type major minor) d' e' j ↔
      Entry t d' e' j ∨ (d' = d ∧ e' = firstFree (t d).data ∧ j = i) := by
  rw [makeTable_eq_midMake hm.ne, (hm.putSlot h major minor).entry_iff, hm.entry_mid h]
  exact entry_add_iff h hm.pos.ne'

theorem type_makeTable (hm : Making ninodes t d name i type) (j : ℕ) :
    (makeTable t d name i type major minor j).type = if j = i then type else (t j).type := by
  rw [makeTable_eq]
  rcases eq_or_ne j d with rfl | hjd
  · rw [update_self, if_neg hm.ne.symm]
    exact type_parentInode ..
  · rw [update_of_ne hjd, update_apply]
    split <;> rfl

theorem parentOf_makeTable (hm : Making ninodes t d name i type) (h : Tree ninodes exact t)
    (hj : (makeTable t d name i type major minor j).type = T_DIR) :
    parentOf (makeTable t d name i type major minor) j = if j = i then d else parentOf t j := by
  have hd := (h.inode d).bound (ne_zero_of_dir hm.add.dir)
  have hN := hm.fits
  rw [type_makeTable hm] at hj
  rw [makeTable_eq_midMake hm.ne, (hm.putSlot h major minor).parentOf_eq]
  split
  · next hji =>
    rw [if_pos hji] at hj
    rw [hji, hm.parent_mid hj (by omega)]
  next hji =>
  rw [midMake, (sameNames_withNlink _ _ _).parentOf_eq, parentOf, update_of_ne hji, parentOf]

theorem Tree.make (hm : Making ninodes t d name i type) (h : Tree ninodes exact t) :
    Tree ninodes exact (makeTable t d name i type major minor) := by
  have hd := (h.inode d).bound (ne_zero_of_dir hm.add.dir)
  have hN := hm.fits
  have hfree : slots (midMake t d i type major minor d).data (firstFree (t d).data) = 0 := by
    rw [midMake_self hm.ne, data_parentInode]
    exact slots_firstFree ((h.inode d).dir hm.add.dir)
  rw [makeTable_eq_midMake hm.ne]
  refine ((hm.mid h major minor).putSlot (hm.putSlot h major minor) fun _ => ?_).congr
    fun j hj => ?_
  · rw [hm.mid_inode]
    refine ⟨hm.type, ?_, fun ht => ⟨hm.links_mid h major minor, hm.parent_mid ht (by omega) ..⟩⟩
    rintro rfl
    exact ne_zero_of_dir h.root.1 hm.free
  have hpos : j ≠ 0 := by
    rintro rfl
    have hz := (hm.putSlot h major minor).inode (hm.mid h major minor).inode 0
    exact absurd (hz.bound hj).1 (lt_irrefl 0)
  have hzero := (hm.mid h major minor).zero_not_dir
  have hcomm : (i = j) = (j = i) := propext eq_comm
  have htype : (newInode i d type major minor).type = type := rfl
  rw [slotChange, hfree, if_neg hzero, if_neg hpos.symm, hm.mid_inode, update_apply, htype]
  simp only [hcomm]
  split_ifs <;> rfl

/-! ### A new name -/

theorem linkTable_eq (hid : i ≠ d) : linkTable t d name i =
    update (withNlink t i ((t i).nlink + 1)) d
      ((withNlink t i ((t i).nlink + 1) d).addEntry name i) := by
  rw [withNlink_of_ne hid.symm]
  rfl

/-- A `link` that can happen. -/
structure Linking (ninodes : ℕ) (t : ℕ → Dinode) (d : ℕ) (name : List UInt8) (i : ℕ) : Prop where
  fits : ninodes ≤ 65536
  add : CanAdd t d name
  live : (t i).type ≠ 0
  file : (t i).type ≠ T_DIR

namespace Linking

variable (hl : Linking ninodes t d name i)
include hl

theorem ne : i ≠ d := by
  rintro rfl
  exact hl.file hl.add.dir

theorem putSlot (h : Tree ninodes exact t) :
    PutSlot ninodes (withNlink t i ((t i).nlink + 1)) d (firstFree (t d).data) i
      ((withNlink t i ((t i).nlink + 1) d).addEntry name i) := by
  have hsame : withNlink t i ((t i).nlink + 1) d = t d :=
    withNlink_of_ne hl.ne.symm _
  have hok : InodeOk ninodes d (withNlink t i ((t i).nlink + 1) d) :=
    hsame.symm ▸ h.inode d
  have hadd : CanAdd (withNlink t i ((t i).nlink + 1)) d name :=
    ⟨hsame.symm ▸ hl.add.dir, hsame.symm ▸ hl.add.new, hsame.symm ▸ hl.add.fits⟩
  have hput := putSlot_addEntry hl.fits hok hadd ((h.inode i).bound hl.live).2 hl.ne
  rw [hsame] at hput ⊢
  exact hput

end Linking

section

variable (hl : Linking ninodes t d name i) (h : Tree ninodes exact t)

include hl h

theorem entry_linkTable : Entry (linkTable t d name i) d' e' j ↔
      Entry t d' e' j ∨ (d' = d ∧ e' = firstFree (t d).data ∧ j = i) := by
  rw [linkTable_eq hl.ne, (hl.putSlot h).entry_iff, (sameNames_withNlink _ _ _).entry_iff]
  exact entry_add_iff h ((h.inode i).bound hl.live).1.ne'

theorem type_linkTable (j : ℕ) : (linkTable t d name i j).type = (t j).type := by
  rw [linkTable_eq hl.ne, (hl.putSlot h).type_eq, (sameNames_withNlink t i _ j).1]

theorem parentOf_linkTable (j : ℕ) : parentOf (linkTable t d name i) j = parentOf t j := by
  rw [linkTable_eq hl.ne, (hl.putSlot h).parentOf_eq, (sameNames_withNlink _ _ _).parentOf_eq]

theorem Tree.link
    (hmax : (t i).nlink.toInt < 32767) : Tree ninodes exact (linkTable t d name i) := by
  have hsame : withNlink t i ((t i).nlink + 1) d = t d :=
    withNlink_of_ne hl.ne.symm _
  have hroot : i ≠ ROOTINO := by
    rintro rfl
    exact hl.file h.root.1
  have h₁ := TreeUpTo.withNlink (k := 1) h (toInt_succ hmax)
  rw [linkTable_eq hl.ne]
  refine (h₁.putSlot (hl.putSlot h) fun _ => ?_).congr fun j hj => ?_
  · rw [withNlink_self]
    exact ⟨hl.live, hroot, fun hd => absurd hd hl.file⟩
  have hpos : j ≠ 0 := by
    rintro rfl
    exact absurd (((hl.putSlot h).inode h₁.inode 0).bound hj).1 (lt_irrefl 0)
  have hfree : slots (withNlink t i ((t i).nlink + 1) d).data (firstFree (t d).data) = 0 := by
    rw [hsame]
    exact slots_firstFree ((h.inode d).dir hl.add.dir)
  have hfile : (withNlink t i ((t i).nlink + 1) i).type ≠ T_DIR := by
    rw [withNlink_self]
    exact hl.file
  have hcomm : (i = j) = (j = i) := propext eq_comm
  rw [slotChange, hfree, if_neg h₁.zero_not_dir, if_neg hpos.symm, if_neg hfile]
  simp only [hcomm]
  split_ifs <;> rfl

end

/-! ### A name less -/

/-- The table in the middle of an `unlink`: the entry is gone. -/
def midUnlink (t : ℕ → Dinode) (d e : ℕ) : ℕ → Dinode :=
  update t d { t d with data := putEntry (t d).data e Dirent.free }

theorem unlinkTable_eq_midUnlink (hid : i ≠ d) : unlinkTable t d e i =
    withNlink (withNlink (midUnlink t d e) d (clearedDir t d e i).nlink) i ((t i).nlink - 1) := by
  have hd : midUnlink t d e d = { t d with data := putEntry (t d).data e Dirent.free } :=
    update_self ..
  have hi : midUnlink t d e i = t i := update_of_ne hid ..
  rw [withNlink, withNlink_of_ne hid, hi, withNlink, hd, midUnlink, update_idem]
  rfl

section

variable (hrem : CanRemove t d e i) (h : Tree ninodes exact t)

include hrem h

theorem entry_unlinkTable :
    Entry (unlinkTable t d e i) d' e' j ↔ Entry t d' e' j ∧ ¬ (d' = d ∧ e' = e) := by
  rw [unlinkTable_eq_midUnlink hrem.ne, (sameNames_withNlink _ _ _).entry_iff,
    (sameNames_withNlink _ _ _).entry_iff, midUnlink, (putSlot_clear (h.inode d) hrem).entry_iff]
  exact ⟨fun hh => hh.resolve_right fun hz => hz.2.2.2 rfl, .inl⟩

theorem type_unlinkTable (j : ℕ) : (unlinkTable t d e i j).type = (t j).type := by
  rw [unlinkTable_eq_midUnlink hrem.ne, (sameNames_withNlink _ i _ j).1,
    (sameNames_withNlink _ d _ j).1, midUnlink, (putSlot_clear (h.inode d) hrem).type_eq]

theorem parentOf_unlinkTable (j : ℕ) : parentOf (unlinkTable t d e i) j = parentOf t j := by
  rw [unlinkTable_eq_midUnlink hrem.ne, (sameNames_withNlink _ _ _).parentOf_eq,
    (sameNames_withNlink _ _ _).parentOf_eq, midUnlink,
    (putSlot_clear (h.inode d) hrem).parentOf_eq]

theorem Tree.unlink : Tree ninodes exact (unlinkTable t d e i) := by
  have hput := putSlot_clear (h.inode d) hrem
  have hi : midUnlink t d e i = t i := update_of_ne hrem.ne ..
  have hd : (midUnlink t d e d).nlink = (t d).nlink := hput.nlink_eq d
  have h₁ : TreeUpTo ninodes exact (fun j => 0 - slotChange t d i 0 j) (midUnlink t d e) := by
    have hslot : slots (t d).data e = i := hrem.inum
    have := TreeUpTo.putSlot h hput fun hz => absurd rfl hz
    rwa [hslot] at this
  have hparent : (clearedDir t d e i).nlink.toInt =
      (midUnlink t d e d).nlink.toInt + if (t i).type = T_DIR then -1 else 0 := by
    rw [hd, clearedDir]
    split
    · have := h.dir_nlink hrem.dir
      exact toInt_pred (by omega)
    · exact (add_zero _).symm
  have hchild : ((t i).nlink - 1).toInt =
      (withNlink (midUnlink t d e) d (clearedDir t d e i).nlink i).nlink.toInt + -1 := by
    rw [withNlink_of_ne hrem.ne, hi]
    have := h.nlink_nonneg hrem.live
    exact toInt_pred (by omega)
  rw [unlinkTable_eq_midUnlink hrem.ne]
  have h₃ := (h₁.withNlink hparent).withNlink hchild
  refine h₃.congr fun j hj => ?_
  have hpos : j ≠ 0 := by
    rintro rfl
    exact absurd ((h₃.inode 0).bound hj).1 (lt_irrefl 0)
  have hcomm : (i = j) = (j = i) := propext eq_comm
  rw [slotChange, if_neg hpos.symm, if_neg h.zero_not_dir]
  simp only [hcomm]
  split_ifs <;> rfl

end

/-! ### Removed directories -/

/-- A directory other than the root that has no name, though it may still be in use. -/
structure Removed (t : ℕ → Dinode) (d : ℕ) : Prop where
  dir : (t d).type = T_DIR
  ne_root : d ≠ ROOTINO
  unnamed : ∀ d' e, ¬ Entry t d' e d

theorem removed_congr {t' : ℕ → Dinode} (htype : (t' j).type = (t j).type)
    (hent : (t j).type = T_DIR → ∀ d e, Entry t' d e j ↔ Entry t d e j) :
    Removed t' j ↔ Removed t j := by
  constructor
  · rintro ⟨hd, hr, hu⟩
    rw [htype] at hd
    exact ⟨hd, hr, fun d e h => hu d e ((hent hd d e).mpr h)⟩
  · rintro ⟨hd, hr, hu⟩
    exact ⟨htype.trans hd, hr, fun d e h => hu d e ((hent hd d e).mp h)⟩

theorem not_removed (hd : (t d).type = T_DIR) :
    ¬ Removed t d ↔ d = ROOTINO ∨ ∃ d' e, Entry t d' e d := by
  constructor
  · intro hr
    by_contra hn
    rw [not_or] at hn
    exact hr ⟨hd, hn.1, fun d' e hent => hn.2 ⟨d', e, hent⟩⟩
  · rintro (rfl | ⟨d', e, hent⟩) hr
    · exact hr.ne_root rfl
    · exact hr.unnamed d' e hent

theorem Entry.not_removed (h : Entry t d e i) : ¬ Removed t i := fun hr => hr.unnamed d e h

theorem Tree.not_unlinked_of_entry (h : Tree ninodes exact t) (hent : Entry t d e i) :
    ¬ Unlinked t i := by
  rintro ⟨h₀, hz⟩
  have hlinks := hent.links_ne_zero (h.inode d)
  have hzero : (t i).nlink.toInt = 0 := by
    rw [hz]
    rfl
  by_cases hd : (t i).type = T_DIR
  · have hcount := h.dirLinks i hd
    split at hcount <;> omega
  · have hcount := h.fileLinks i h₀ hd
    omega

theorem Tree.not_unlinked (h : Tree ninodes exact t) (hd : (t d).type = T_DIR)
    (hr : ¬ Removed t d) : ¬ Unlinked t d := by
  rcases (not_removed hd).mp hr with rfl | ⟨d', e, hent⟩
  · rintro ⟨-, hz⟩
    have hcount := h.dirLinks ROOTINO hd
    have hzero : (t ROOTINO).nlink.toInt = 0 := by
      rw [hz]
      rfl
    rw [if_pos rfl] at hcount
    omega
  · exact h.not_unlinked_of_entry hent

theorem removed_makeTable (hm : Making ninodes t d name i type) (h : Tree ninodes exact t)
    (hj : j ≠ i) : Removed (makeTable t d name i type major minor) j ↔ Removed t j := by
  refine removed_congr ?_ fun _ d' e' => ?_
  · rw [type_makeTable hm, if_neg hj]
  · rw [entry_makeTable hm h]
    exact ⟨fun hh => hh.resolve_right fun hn => hj hn.2.2, .inl⟩

theorem not_removed_makeTable (hm : Making ninodes t d name i type) (h : Tree ninodes exact t) :
    ¬ Removed (makeTable t d name i type major minor) i :=
  ((entry_makeTable hm h).mpr (.inr ⟨rfl, rfl, rfl⟩)).not_removed

theorem removed_linkTable (hl : Linking ninodes t d name i) (h : Tree ninodes exact t) (j : ℕ) :
    Removed (linkTable t d name i) j ↔ Removed t j := by
  refine removed_congr (type_linkTable hl h j) fun hd d' e' => ?_
  rw [entry_linkTable hl h]
  refine ⟨fun hh => hh.resolve_right ?_, .inl⟩
  rintro ⟨-, -, rfl⟩
  exact hl.file hd

theorem removed_unlinkTable (hrem : CanRemove t d e i) (h : Tree ninodes exact t) (hj : j ≠ i) :
    Removed (unlinkTable t d e i) j ↔ Removed t j := by
  refine removed_congr (type_unlinkTable hrem h j) fun hd d' e' => ?_
  rw [entry_unlinkTable hrem h]
  refine ⟨And.left, fun hent => ⟨hent, ?_⟩⟩
  rintro ⟨rfl, rfl⟩
  exact hj (hent.slot.symm.trans hrem.inum)

theorem removed_freed (hr : Replace ninodes exact t i (t i).freed) (hj : j ≠ i) :
    Removed (update t i (t i).freed) j ↔ Removed t j := by
  refine removed_congr ?_ fun hd d' e' => ?_
  · rw [update_of_ne hj]
  rw [hr.entry_iff]
  refine ⟨And.left, fun hent => ⟨hent, ?_⟩⟩
  rintro rfl
  exact (hr.lost e' j hent).1 hd

theorem ne_of_freed (h : (update t i (t i).freed j).type ≠ 0) : j ≠ i := by
  rintro rfl
  rw [update_self] at h
  exact h rfl

theorem CanRemove.no_entry (hrem : CanRemove t d e i) (hok : InodeOk ninodes i (t i)) (e' j : ℕ) :
    ¬ Entry t i e' j := by
  intro hent
  have hlt := (hok.dir hent.dir).whole.lt_of_slots (hent.slot ▸ hent.ne_zero)
  exact hent.ne_zero (hent.slot.symm.trans (hrem.empty hent.dir e' hent.two_le hlt))

theorem Tree.unlinked_unlinkTable (h : Tree ninodes exact t) (hrem : CanRemove t d e i)
    (hd : (t i).type = T_DIR) : Unlinked (unlinkTable t d e i) i := by
  have hent := hrem.entry (h.inode d)
  have hlinks := hent.links_ne_zero (h.inode d)
  have honce := h.once i hd
  have hcount := h.dirLinks i hd
  have hsub : subdirs t i = 0 := by
    by_contra hne
    obtain ⟨e', j, hent', -⟩ := exists_entry_of_kids h.zero_not_dir hne
    exact hrem.no_entry (h.inode i) e' j hent'
  rw [if_neg (h.entries d e i hent).2, hsub] at hcount
  have hone : (t i).nlink.toInt = (1 : Int16).toInt := by
    have : (1 : Int16).toInt = 1 := by decide
    omega
  refine ⟨?_, ?_⟩
  · rw [type_unlinkTable hrem h]
    exact hrem.live
  rw [unlinkTable_eq, update_self]
  change (t i).nlink - 1 = 0
  rw [Int16.toInt_inj.mp hone]
  decide

end Xv6.Names
