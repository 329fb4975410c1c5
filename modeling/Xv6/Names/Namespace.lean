import Mathlib.Algebra.BigOperators.Intervals
import Xv6.Names.Orphans

/-!
# The name space

With absolute paths no call gets to a removed directory, so names are made only in directories that
are connected to the root. Then the names form a tree in every state, and the link count of an inode
is the number of its names, those that are `".."` included.
-/

namespace Xv6.Names

open Run Tally Finset

variable {ninodes : ℕ} {t t' : ℕ → Dinode} {x : Dinode} {c : Finset ℕ} {n n' : Ns}
  {d e i j d' e' : ℕ} {name data : List UInt8} {s : Kernel} {v : View} {p : Fin NPROC}

def Alive (t : ℕ → Dinode) (d : ℕ) : Prop := (t d).type = T_DIR ∧ 0 < (t d).nlink.toInt

instance (t : ℕ → Dinode) : DecidablePred (Alive t) := fun _ => inferInstanceAs (Decidable (_ ∧ _))

/-- How many entries of a directory, other than `"."`, name inode `i`. -/
def namesIn (data : List UInt8) (i : ℕ) : ℕ :=
  ((range (nentries data)).filter fun e =>
    slots data e = i ∧ cname (entry data e).name ≠ dot).card

/-- How many entries of directories with links, other than `"."`, name inode `i`. -/
def nameCount (ninodes : ℕ) (t : ℕ → Dinode) (i : ℕ) : ℕ :=
  ∑ d ∈ (range ninodes).filter (Alive t), namesIn (t d).data i

/-- Entry `e` of directory `d` names inode `i`, and is neither `"."` nor `".."`. -/
structure ProperName (t : ℕ → Dinode) (d e i : ℕ) : Prop where
  dir : (t d).type = T_DIR
  inum : slots (t d).data e = i
  used : i ≠ 0
  ne_dot : namecmp (entry (t d).data e).name dot ≠ 0
  ne_dotdot : namecmp (entry (t d).data e).name dotdot ≠ 0

structure NamespaceOk (ninodes : ℕ) (t : ℕ → Dinode) : Prop where
  /-- Slot 0 is `"."`. -/
  dot : ∀ d, Alive t d → slots (t d).data 0 = d ∧ namecmp (entry (t d).data 0).name dot = 0
  /-- Slot 1 is `".."`. -/
  dotdot : ∀ d, Alive t d → namecmp (entry (t d).data 1).name dotdot = 0
  /-- It names the root in the root, and else the directory that has a name for this one. -/
  parent : ∀ d, Alive t d → (d = ROOTINO ∧ slots (t d).data 1 = ROOTINO) ∨
    ∃ e, ProperName t (slots (t d).data 1) e d
  distinct : ∀ d e e', Alive t d → slots (t d).data e ≠ 0 → slots (t d).data e' ≠ 0 →
    namecmp (entry (t d).data e).name (entry (t d).data e').name = 0 → e = e'
  allocated : ∀ d e, Alive t d → slots (t d).data e ≠ 0 → (t (slots (t d).data e)).type ≠ 0
  once : ∀ d, Alive t d → d ≠ ROOTINO → ∃! x : ℕ × ℕ, ProperName t x.1 x.2 d
  conn : ∀ d, Alive t d → Conn t d
  nlink : ∀ i, (t i).type ≠ 0 → (t i).nlink.toInt = nameCount ninodes t i

/-! ### Names by slot -/

theorem DirOk.ne_dot (h : DirOk d data) (hd : d ≠ 0) (he : slots data e ≠ 0) (h₀ : e ≠ 0) :
    cname (entry data e).name ≠ Names.dot := by
  intro hn
  refine h₀ (h.distinct e 0 he ?_ (hn.trans h.dot.2.symm))
  rw [h.dot.1]
  exact hd

theorem DirOk.ne_dotdot (h : DirOk d data) (he : slots data e ≠ 0) (h₁ : e ≠ 1) :
    cname (entry data e).name ≠ Names.dotdot := fun hn =>
  h₁ (h.distinct e 1 he h.dotdot.1 (hn.trans h.dotdot.2.symm))

theorem properName_iff (hok : InodeOk ninodes d (t d)) : ProperName t d e i ↔ Entry t d e i := by
  constructor
  · rintro ⟨hd, hi, h₀, hdot, hdotdot⟩
    refine ⟨hd, (hok.dir hd).two_le (fun hn => hdot ?_) fun hn => hdotdot ?_, hi, h₀⟩
    · exact (namecmp_eq_zero_iff _ _).mpr (hn.trans (by decide))
    · exact (namecmp_eq_zero_iff _ _).mpr (hn.trans (by decide))
  rintro ⟨hd, h₂, hi, h₀⟩
  have hpos := (hok.bound (ne_zero_of_dir hd)).1
  have hcdot : cname dot = dot := by decide
  have hcdotdot : cname dotdot = dotdot := by decide
  refine ⟨hd, hi, h₀, fun hn => ?_, fun hn => ?_⟩
  · rw [namecmp_eq_zero_iff, hcdot] at hn
    exact (hok.dir hd).ne_dot hpos.ne' (hi ▸ h₀) (by omega) hn
  · rw [namecmp_eq_zero_iff, hcdotdot] at hn
    exact (hok.dir hd).ne_dotdot (hi ▸ h₀) (by omega) hn

theorem Entry.unique {exact : Prop} (h : Tree ninodes exact t) (hi : (t i).type = T_DIR)
    (hent : Entry t d e i) (hent' : Entry t d' e' i) : d' = d ∧ e' = e := by
  obtain rfl : d' = d := (h.parent d' e' i hent' hi).symm.trans (h.parent d e i hent hi)
  refine ⟨rfl, ?_⟩
  by_contra hne
  have hlt := ((h.inode d').bound (ne_zero_of_dir hent.dir)).2
  have honce := h.once i hi
  have hle := le_tally (g := kids (· = i)) (h := t) (mem_range.mpr hlt)
  have htwo : 1 < kids (· = i) (t d') := by
    rw [kids, if_pos hent.dir, tally, ← card_filter]
    refine one_lt_card.mpr ⟨e', ?_, e, ?_, hne⟩
    · exact mem_filter.mpr ⟨hent'.mem (h.inode d'), hent'.slot⟩
    · exact mem_filter.mpr ⟨hent.mem (h.inode d'), hent.slot⟩
  unfold links at honce
  omega

/-! ### Counting names -/

theorem namesIn_eq (hok : InodeOk ninodes d x) (hd : x.type = T_DIR) (hi : i ≠ 0) :
    namesIn x.data i = kids (· = i) x + if slots x.data 1 = i then 1 else 0 := by
  have hdir := hok.dir hd
  have h₀ : x.type ≠ 0 := by
    rw [hd]
    decide
  have hpos := (hok.bound h₀).1
  have hmax : NDIRENT = 4478 + 2 := rfl
  have hrange : namesIn x.data i = ((range NDIRENT).filter fun e =>
      slots x.data e = i ∧ cname (entry x.data e).name ≠ dot).card := by
    refine congrArg card (ext fun e => ?_)
    simp only [mem_filter, mem_range]
    refine and_congr_left fun hh => ⟨fun hlt => hlt.trans_le hdir.whole.nentries_le, fun _ => ?_⟩
    exact hdir.whole.lt_of_slots (hh.1 ▸ hi)
  have hzero : ¬ (slots x.data 0 = i ∧ cname (entry x.data 0).name ≠ dot) :=
    fun hh => hh.2 hdir.dot.2
  have hone : (slots x.data 1 = i ∧ cname (entry x.data 1).name ≠ dot) ↔ slots x.data 1 = i :=
    ⟨And.left, fun hh => ⟨hh, hdir.ne_dot hpos.ne' (hh ▸ hi) one_ne_zero⟩⟩
  have hrest : ∀ e ∈ Finset.Ico 2 NDIRENT,
      (if slots x.data e = i ∧ cname (entry x.data e).name ≠ dot then 1 else 0) =
        if slots x.data e = i then 1 else 0 := by
    intro e he
    have hne : e ≠ 0 := by
      have := (mem_Ico.mp he).1
      omega
    refine if_congr ⟨And.left, fun hh => ⟨hh, ?_⟩⟩ rfl rfl
    exact hdir.ne_dot hpos.ne' (hh ▸ hi) hne
  rw [hrange, card_filter, range_eq_Ico, sum_eq_sum_Ico_succ_bot (by omega),
    sum_eq_sum_Ico_succ_bot (by omega), if_neg hzero, if_congr hone rfl rfl,
    sum_congr rfl hrest, kids, if_pos hd, tally]
  omega

theorem nameCount_eq (hok : ∀ d, InodeOk ninodes d (t d)) (hi : i ≠ 0)
    (hent : ∀ d e, Entry t d e i → Alive t d) : nameCount ninodes t i = links ninodes t i +
      ((range ninodes).filter fun d => Alive t d ∧ parentOf t d = i).card := by
  have hsum : nameCount ninodes t i = ∑ d ∈ (range ninodes).filter (Alive t),
      (kids (· = i) (t d) + if parentOf t d = i then 1 else 0) := by
    refine sum_congr rfl fun d hd => ?_
    exact namesIn_eq (hok d) (mem_filter.mp hd).2.1 hi
  have hkids : ∑ d ∈ (range ninodes).filter (Alive t), kids (· = i) (t d) = links ninodes t i := by
    rw [sum_filter, links, tally]
    refine sum_congr rfl fun d _ => ?_
    split
    · rfl
    next ha =>
    by_contra hne
    obtain ⟨e, j, hent', rfl⟩ := exists_entry_of_kids (P := (· = i)) hi.symm (Ne.symm hne)
    exact ha (hent d e hent')
  rw [hsum, sum_add_distrib, hkids, ← card_filter, filter_filter]

theorem nameCount_le (h : ∀ d, Alive t d → t' d = t d) (i : ℕ) :
    nameCount ninodes t i ≤ nameCount ninodes t' i := by
  have hsub : (range ninodes).filter (Alive t) ⊆ (range ninodes).filter (Alive t') := by
    intro d hd
    rw [mem_filter] at hd ⊢
    refine ⟨hd.1, ?_⟩
    unfold Alive
    rw [h d hd.2]
    exact hd.2
  calc nameCount ninodes t i
      = ∑ d ∈ (range ninodes).filter (Alive t), namesIn (t' d).data i :=
        sum_congr rfl fun d hd => by rw [h d (mem_filter.mp hd).2]
    _ ≤ nameCount ninodes t' i := sum_le_sum_of_subset hsub

/-! ### Orderly name spaces -/

section

variable (h : Orderly ninodes t)

include h

theorem Orderly.alive_iff (hd : (t d).type = T_DIR) : Alive t d ↔ ¬ Removed t d := by
  constructor
  · rintro ⟨-, hpos⟩
    refine h.not_removed hd fun hz => ?_
    rw [hz] at hpos
    exact absurd hpos (by decide)
  intro hr
  have hu := h.tree.not_unlinked hd hr
  have hnonneg := h.tree.nlink_nonneg (ne_zero_of_dir hd)
  have hne : (t d).nlink.toInt ≠ 0 :=
    fun hz => hu ⟨ne_zero_of_dir hd, Int16.toInt_inj.mp hz⟩
  exact ⟨hd, by omega⟩

theorem Orderly.alive_of_entry (hent : Entry t d e i) : Alive t d :=
  (h.alive_iff hent.dir).mpr fun hr => h.empty d hr e i hent

theorem Orderly.alive_cases (ha : Alive t d) :
    (d = ROOTINO ∧ parentOf t d = ROOTINO) ∨ ∃ e, Entry t (parentOf t d) e d := by
  rcases (Names.not_removed ha.1).mp ((h.alive_iff ha.1).mp ha) with rfl | ⟨d', e, hent⟩
  · exact .inl ⟨rfl, h.tree.root.2⟩
  · rw [h.tree.parent d' e d hent ha.1]
    exact .inr ⟨e, hent⟩

theorem Orderly.alive_parent (ha : Alive t d) : Alive t (parentOf t d) := by
  rcases h.alive_cases ha with ⟨rfl, hp⟩ | ⟨e, hent⟩
  · rw [hp]
    exact ha
  · exact h.alive_of_entry hent

theorem Orderly.card_children (hi : (t i).type = T_DIR) :
    subdirs t i = (((range ninodes).filter fun d =>
      Alive t d ∧ parentOf t d = i).erase ROOTINO).card := by
  rw [subdirs, kids, if_pos hi, tally, ← card_filter]
  have hentry : ∀ e ∈ (Finset.Ico 2 NDIRENT).filter fun e =>
      (t (slots (t i).data e)).type = T_DIR, Entry t i e (slots (t i).data e) := by
    intro e he
    obtain ⟨hmem, hd⟩ := mem_filter.mp he
    refine ⟨hi, (mem_Ico.mp hmem).1, rfl, fun hz => ?_⟩
    rw [hz] at hd
    exact h.tree.zero_not_dir hd
  refine card_bij (fun e _ => slots (t i).data e) (fun e he => ?_)
    (fun e he e' he' heq => ?_) fun d hd => ?_
  · have hent := hentry e he
    have hd := (mem_filter.mp he).2
    have hlt := ((h.tree.inode _).bound (ne_zero_of_dir hd)).2
    refine mem_erase.mpr ⟨(h.tree.entries i e _ hent).2, mem_filter.mpr
      ⟨mem_range.mpr hlt, (h.alive_iff hd).mpr hent.not_removed, ?_⟩⟩
    exact h.tree.parent i e _ hent hd
  · have hent' := hentry e' he'
    rw [← heq] at hent'
    exact ((hentry e he).unique h.tree (mem_filter.mp he).2 hent').2.symm
  obtain ⟨hroot, hd⟩ := mem_erase.mp hd
  obtain ⟨-, ha, hp⟩ := mem_filter.mp hd
  rcases h.alive_cases ha with ⟨hr, -⟩ | ⟨e, hent⟩
  · exact absurd hr hroot
  rw [hp] at hent
  refine ⟨e, mem_filter.mpr ⟨hent.mem (h.tree.inode i), ?_⟩, hent.slot⟩
  rw [hent.slot]
  exact ha.1

theorem Orderly.nlink_eq (hi : (t i).type ≠ 0) : (t i).nlink.toInt = nameCount ninodes t i := by
  have hpos := ((h.tree.inode i).bound hi).1
  have hroot := h.tree.root
  rw [nameCount_eq h.tree.inode hpos.ne' fun d e hent => h.alive_of_entry hent]
  by_cases hd : (t i).type = T_DIR
  · have hchildren := h.card_children hd
    have hcount := h.tree.dirLinks i hd
    by_cases hir : i = ROOTINO
    · have hmem : ROOTINO ∈ (range ninodes).filter fun d =>
          Alive t d ∧ parentOf t d = i := by
        have hlt := ((h.tree.inode ROOTINO).bound (ne_zero_of_dir hroot.1)).2
        refine mem_filter.mpr ⟨mem_range.mpr hlt, ?_, hroot.2.trans hir.symm⟩
        exact (h.alive_iff hroot.1).mpr fun hr => hr.ne_root rfl
      have hcard := card_erase_add_one hmem
      rw [if_pos hir] at hcount
      omega
    · rw [erase_eq_of_notMem] at hchildren
      · rw [if_neg hir] at hcount
        omega
      · intro hmem
        exact hir ((mem_filter.mp hmem).2.2.symm.trans hroot.2)
  · have hnone : ((range ninodes).filter fun d => Alive t d ∧ parentOf t d = i) = ∅ := by
      refine filter_eq_empty_iff.mpr fun d _ hh => hd ?_
      rw [← hh.2]
      exact (h.alive_parent hh.1).1
    have hle := h.tree.fileLinks i hi hd
    have hge := h.tree.fileExact trivial i hi hd
    rw [hnone, card_empty]
    omega

theorem Orderly.namespaceOk : NamespaceOk ninodes t where
  dot d ha := by
    have hdir := (h.tree.inode d).dir ha.1
    exact ⟨hdir.dot.1, (namecmp_eq_zero_iff _ _).mpr (hdir.dot.2.trans (by decide))⟩
  dotdot d ha := by
    have hdir := (h.tree.inode d).dir ha.1
    exact (namecmp_eq_zero_iff _ _).mpr (hdir.dotdot.2.trans (by decide))
  parent d ha := by
    refine (h.alive_cases ha).imp id fun ⟨e, hent⟩ => ⟨e, ?_⟩
    exact (properName_iff (h.tree.inode _)).mpr hent
  distinct d e e' ha he he' hn :=
    ((h.tree.inode d).dir ha.1).distinct e e' he he' ((namecmp_eq_zero_iff _ _).mp hn)
  allocated d e ha he := by
    match e, he with
    | 0, _ =>
      rw [((h.tree.inode d).dir ha.1).dot.1]
      exact ne_zero_of_dir ha.1
    | 1, _ => exact ne_zero_of_dir (h.alive_parent ha).1
    | e + 2, he => exact (h.tree.entries d _ _ ⟨ha.1, by omega, rfl, he⟩).1
  once d ha hr := by
    rcases h.alive_cases ha with ⟨hroot, -⟩ | ⟨e, hent⟩
    · exact absurd hroot hr
    refine ⟨(parentOf t d, e), (properName_iff (h.tree.inode _)).mpr hent, ?_⟩
    rintro ⟨d', e'⟩ hn
    obtain ⟨hd', he'⟩ := hent.unique h.tree ha.1 ((properName_iff (h.tree.inode d')).mp hn)
    exact Prod.ext hd' he'
  conn d ha := h.conn d ha.1 ((h.alive_iff ha.1).mp ha)
  nlink i hi := h.nlink_eq hi

end

/-! ### Absolute paths -/

def Call.Absolute : Call → Prop
  | .open path _ => ∀ q ∈ path, q.head? = some slash
  | .link old new => (∀ q ∈ old, q.head? = some slash) ∧ ∀ q ∈ new, q.head? = some slash
  | .unlink path => ∀ q ∈ path, q.head? = some slash
  | .mkdir path => ∀ q ∈ path, q.head? = some slash
  | .mknod path _ _ => ∀ q ∈ path, q.head? = some slash
  | .chdir path => ∀ q ∈ path, q.head? = some slash
  | .close _ | .fork _ | .exit => True

theorem Orderly.not_removed_of_find (h : Orderly ninodes t) (hd : (t d).type = T_DIR)
    (hr : ¬ Removed t d) (hf : find (t d).data name = some (e, i)) : ¬ Removed t i := by
  obtain ⟨-, hinum, hi, -⟩ := find_eq_some hf
  have hslot : slots (t d).data e = i := hinum
  match e, hslot with
  | 0, hslot =>
    rw [((h.tree.inode d).dir hd).dot.1] at hslot
    exact hslot ▸ hr
  | 1, hslot =>
    have ha := h.alive_parent ((h.alive_iff hd).mpr hr)
    rw [parentOf, hslot] at ha
    exact (h.alive_iff ha.1).mp ha
  | e + 2, hslot => exact (⟨hd, by omega, hslot, hi⟩ : Entry t d (e + 2) i).not_removed

theorem Orderly.walk_not_removed (h : Orderly ninodes v.inode) {names : List (List UInt8)} :
    ∀ {d : ℕ}, ¬ Removed v.inode d → walk v true names d = .ok (some (j, name)) →
      ¬ Removed v.inode j := by
  induction names with
  | nil => intro d _ hw; cases hw
  | cons n names ih =>
  intro d hr hw
  obtain ⟨hd, ⟨-, -, hx⟩ | ⟨-, e, i, hf, -, hrest⟩⟩ := walk_cons_some hw
  · cases hx
    exact hr
  · exact ih (h.not_removed_of_find hd hr hf) hrest

theorem Orderly.resolve_not_removed (h : Orderly ninodes v.inode) {path : Path}
    (habs : path.head? = some slash) (hr : resolve v p true path = .ok (some (d, name))) :
    ¬ Removed v.inode d := by
  unfold resolve View.start at hr
  rw [if_pos habs] at hr
  split at hr
  · exact h.walk_not_removed (fun hroot => hroot.ne_root rfl) hr
  · cases hr

/-! ### Fewer than 32768 names -/

theorem Settles.table_eq (h : Settles ninodes n n') (hd : ¬ Unlinked n.table d) :
    n'.table d = n.table d := by
  refine h.keeps (I := fun m => m.table d = n.table d) rfl ?_
  rintro m m' hm ⟨i, hs | hs⟩
  · cases hs with
    | hold _ => exact hm
  have hu : ¬ Unlinked m.table d := by
    unfold Unlinked
    rw [hm]
    exact hd
  cases hs with
  | release _ _ => exact (reap_apply_of_not_unlinked hu).trans hm

theorem Alive.not_unlinked (h : Alive t d) : ¬ Unlinked t d := by
  rintro ⟨-, hz⟩
  have hpos := h.2
  rw [hz] at hpos
  exact absurd hpos (by decide)

theorem Orderly.lt_nameCount_link (h : Orderly ninodes t) (hl : Linking ninodes t d name i)
    (hd : ¬ Removed t d) : links ninodes t i < nameCount ninodes (linkTable t d name i) i := by
  have hpos := ((h.tree.inode i).bound hl.live).1
  have hput := hl.putSlot h.tree
  have hsame := sameNames_withNlink t i ((t i).nlink + 1)
  have hok : ∀ j, InodeOk ninodes j (linkTable t d name i j) := by
    intro j
    rw [linkTable_eq hl.ne]
    refine hput.inode (fun k => ?_) j
    exact ⟨fun h₀ => (h.tree.inode k).bound ((hsame k).1 ▸ h₀),
      fun hk => (hsame k).2.symm ▸ (h.tree.inode k).dir ((hsame k).1 ▸ hk)⟩
  have halive : ∀ j, Alive t j → Alive (linkTable t d name i) j := by
    intro j hj
    have hji : j ≠ i := by
      rintro rfl
      exact hl.file hj.1
    have hnlink : (linkTable t d name i j).nlink = (t j).nlink := by
      rw [linkTable_eq hl.ne, hput.nlink_eq, withNlink_of_ne hji]
    unfold Alive
    rw [type_linkTable hl h.tree, hnlink]
    exact hj
  have hent : ∀ d' e', Entry (linkTable t d name i) d' e' i → Alive (linkTable t d name i) d' := by
    intro d' e' hent
    refine halive d' ?_
    rcases (entry_linkTable hl h.tree).mp hent with hent | ⟨rfl, -⟩
    · exact h.alive_of_entry hent
    · exact (h.alive_iff hl.add.dir).mpr hd
  have hlinks : links ninodes (linkTable t d name i) i = links ninodes t i + 1 := by
    have hadd := hput.links_add i
    rw [withNlink_of_ne hl.ne.symm, slots_firstFree ((h.tree.inode d).dir hl.add.dir),
      if_neg hpos.ne, if_pos rfl, hsame.links_eq] at hadd
    rw [linkTable_eq hl.ne, withNlink_of_ne hl.ne.symm]
    exact hadd
  rw [nameCount_eq hok hpos.ne' hent, hlinks]
  omega

theorem Orderly.link_room (h : Orderly ninodes n.table)
    (hl : Linking ninodes n.table d name i) (hd : ¬ Removed n.table d)
    (hs : Settles ninodes ⟨reap n.refs i (reap n.refs d (linkTable n.table d name i)), n.refs⟩ n')
    (hfew : nameCount ninodes n'.table i < 32768) : (n.table i).nlink.toInt < 32767 := by
  have hlt := h.lt_nameCount_link hl hd
  have hexact := h.tree.fileExact trivial i hl.live hl.file
  have hle : nameCount ninodes (linkTable n.table d name i) i ≤ nameCount ninodes n'.table i := by
    refine nameCount_le (fun j hj => ?_) i
    have hu := hj.not_unlinked
    have h₁ : reap n.refs d (linkTable n.table d name i) j = linkTable n.table d name i j :=
      reap_apply_of_not_unlinked hu
    have hu₁ : ¬ Unlinked (reap n.refs d (linkTable n.table d name i)) j := by
      unfold Unlinked
      rw [h₁]
      exact hu
    have h₂ := reap_apply_of_not_unlinked (c := n.refs) (i := i) hu₁
    have hu₂ : ¬ Unlinked (reap n.refs i (reap n.refs d (linkTable n.table d name i))) j := by
      unfold Unlinked
      rw [h₂, h₁]
      exact hu
    exact (hs.table_eq hu₂).trans (h₂.trans h₁)
  omega

/-! ### Runs -/

/-- The call has absolute paths, and leaves fewer than 32768 names for every inode. -/
def FewNames (ninodes : ℕ) (s : Kernel) (a : Fin NPROC × Call) : Prop :=
  a.2.Absolute ∧ ∀ s', step ninodes s a = some s' → ∀ i, nameCount ninodes s'.disk i < 32768

/-- Names are made only in directories that were not removed. -/
def AddsToNamed (t : ℕ → Dinode) : Event → Prop
  | .make d _ _ _ _ _ => ¬ Removed t d
  | .link d _ _ => ¬ Removed t d
  | _ => True

theorem Orderly.addsToNamed {call : Call} {ev : Event} (h : Orderly ninodes v.inode)
    (habs : call.Absolute) (hwhy : Why v p call ev) : AddsToNamed v.inode ev := by
  match call, ev, habs, hwhy with
  | .open (some path) _, .make .., habs, hwhy =>
    exact h.resolve_not_removed (habs path rfl) hwhy.2.2
  | .mkdir (some path), .make .., habs, hwhy => exact h.resolve_not_removed (habs path rfl) hwhy.2
  | .mknod (some path) _ _, .make .., habs, hwhy =>
    exact h.resolve_not_removed (habs path rfl) hwhy.2
  | .link (some _) (some new), .link .., habs, hwhy =>
    exact h.resolve_not_removed (habs.2 new rfl) hwhy.2
  | .unlink (some _), .unlink .., _, _ => trivial

theorem Orderly.change {ev : Event} {n₁ : Ns} (hN : ninodes ≤ 65536)
    (h : Orderly ninodes n.table) (hadds : AddsToNamed n.table ev) (hs : Step ninodes n ev n₁)
    (hsettles : Settles ninodes n₁ n') (hfew : ∀ i, nameCount ninodes n'.table i < 32768) :
    Orderly ninodes n₁.table := by
  refine h.step hN ?_ hs
  have hnlink : ∀ {t : ℕ → Dinode}, Orderly ninodes t → ∀ d, (t d).type = T_DIR →
      ¬ Removed t d → (t d).nlink ≠ 0 :=
    fun h d hd hr hz => h.tree.not_unlinked hd hr ⟨ne_zero_of_dir hd, hz⟩
  cases hs with
  | hold _ => trivial
  | release _ _ => trivial
  | make hadd _ _ _ _ => exact hnlink h _ hadd.dir hadds
  | link hadd h₀ hnd =>
    exact ⟨hnlink h _ hadd.dir hadds, h.link_room ⟨hN, hadd, h₀, hnd⟩ hadds hsettles (hfew _)⟩
  | unlink _ => trivial

/-- **The name space is well formed in every state** of a run with absolute paths and fewer than
32768 names for every inode. -/
theorem namespace_invariant (h : Reachable (step ninodes) (FewNames ninodes) (Start ninodes) s) :
    NamespaceOk ninodes s.disk := by
  have hinv : Between ninodes s ∧ Orderly ninodes s.disk := by
    refine h.invariant (I := fun s => Between ninodes s ∧ Orderly ninodes s.disk)
      (fun s hs => ⟨hs.between, hs.orderly⟩) ?_
    rintro s a s' ⟨hb, hI⟩ ⟨habs, hfew⟩ hs
    obtain ⟨hen, r, hrun⟩ := step_eq_some hs
    obtain ⟨hb', hdone⟩ := hb.done hen hrun
    obtain ⟨n₁, hbegun, hsettles⟩ := hdone.effect
    have h₁ : Orderly ninodes n₁.table := by
      rcases hbegun with rfl | ⟨ev, hwhy, hstep⟩
      · exact hI
      · have hadds : AddsToNamed s.view.inode ev := Orderly.addsToNamed hI habs hwhy
        exact Orderly.change hb.fits hI hadds hstep hsettles (hfew s' hs)
    exact ⟨hb', h₁.settles hb.fits hsettles⟩
  exact hinv.2.namespaceOk

theorem nameCount_le_sum (ninodes : ℕ) (t : ℕ → Dinode) (i : ℕ) :
    nameCount ninodes t i ≤ ∑ d ∈ range ninodes, nentries (t d).data :=
  calc nameCount ninodes t i
      ≤ ∑ d ∈ (range ninodes).filter (Alive t), nentries (t d).data :=
        sum_le_sum fun _ _ =>
          (card_filter_le ..).trans (card_range _).le
    _ ≤ ∑ d ∈ range ninodes, nentries (t d).data :=
        sum_le_sum_of_subset (filter_subset ..)

theorem namespace_invariant_mkdir :
    ∃ s, step 200 boot (0, .mkdir (some [47, 97])) = some s ∧ NamespaceOk 200 s.disk := by
  obtain ⟨s, hs, hq⟩ := (Option.any_eq_true _ _).mp (by decide +kernel :
    (step 200 boot (0, .mkdir (some [47, 97]))).any
      (fun s => ∑ d ∈ range 200, nentries (s.disk d).data < 32768) = true)
  refine ⟨s, hs, namespace_invariant (.step (.start start_boot) ⟨?_, fun s' hs' i => ?_⟩ hs)⟩
  · rintro q ⟨⟩
    rfl
  · rw [hs] at hs'
    cases hs'
    exact (nameCount_le_sum ..).trans_lt (of_decide_eq_true hq)

end Xv6.Names
