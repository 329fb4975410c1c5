import Mathlib.Algebra.BigOperators.Group.Finset.Piecewise
import Xv6.Names.Leak

/-!
# Link counts that wrap around

`nlink` is a `short`, and the number of names for a file is bounded only by the space in all
directories. While no `link` is applied to an inode with 32767 links, the link count of every inode
is at least the number of its names. One `link` more makes it negative.
-/

namespace Xv6.Names

open Run Tally Finset

variable {ninodes : ℕ} {t : ℕ → Dinode} {d e i : ℕ} {s : Kernel}

/-! ### Runs without wrapping -/

theorem Tree.one_le_nlink (h : Tree ninodes False t) (hent : Entry t d e i) :
    1 ≤ (t i).nlink.toInt := by
  have hlinks := hent.links_ne_zero (h.inode d)
  have hlive := (h.entries d e i hent).1
  by_cases hd : (t i).type = T_DIR
  · have hcount := h.dirLinks i hd
    split at hcount <;> omega
  · have hcount := h.fileLinks i hlive hd
    omega

theorem Unlinks.entry {v : View} {p : Fin NPROC} {path : Path} (hu : Unlinks v p path d e i)
    (hok : InodeOk ninodes d (v.inode d)) : Entry v.inode d e i :=
  ⟨hu.dir, (hok.dir hu.dir).two_le hu.ne_dot hu.ne_dotdot, hu.inum, hu.ne_zero⟩

theorem Between.unlink_ne {p : Fin NPROC} {path : Option Path} (hb : Between ninodes s)
    (h : Tree ninodes False s.disk) (hen : Enabled s p (.unlink path)) :
    (Call.unlink path).run ninodes p s ≠ .error .unlinkNlink := by
  intro hrun
  cases path with
  | none => cases hrun
  | some path =>
  have hvia : Hoare.Via Shows (sysUnlink p (some path))
      (Leaves ninodes s.view p (.unlink (some path))) (· ≠ .unlinkNlink) s.view := by
    refine via_sysUnlink_of hb.idle hen.1 (fun e he => ?_) (by decide)
      (fun _ _ _ _ _ => by decide) fun d e i hu hlow => ?_
    · rcases resolve_error he with rfl | ⟨rfl, -⟩ <;> decide
    have hone := h.one_le_nlink (hu.entry (h.inode d))
    have hlt : (s.disk i).nlink.toInt < (1 : Int16).toInt := Int16.lt_iff_toInt_lt.mp hlow
    have h1 : (1 : Int16).toInt = 1 := by decide
    omega
  exact (hvia s ⟨hb.coherent, rfl⟩).of_error hrun rfl

/-- **Link counts do not wrap, while no `link` is applied to an inode with 32767 links.** In every
run of calls on a well-formed image, an inode with a name has a positive link count and is
allocated, and `unlink` finds a link to take away. -/
theorem link_counts_kept
    (h : Reachable (step ninodes) (OnlyCauses ninodes NoOverflow) (Start ninodes) s) :
    (∀ d e i, Entry s.disk d e i → 1 ≤ (s.disk i).nlink.toInt ∧ (s.disk i).type ≠ 0) ∧
      ∀ p path, Enabled s p (.unlink path) →
        (Call.unlink path).run ninodes p s ≠ .error .unlinkNlink := by
  obtain ⟨hb, hI⟩ := reachable_keeps (I := fun n => Tree ninodes False n.table)
    (fun _ _ => ⟨trivial, trivial⟩) (fun _ _ _ hN hI hK hs => hI.step hN hK hs) h
    fun s hs => { hs.image.tree with fileExact := nofun }
  refine ⟨fun d e i hent => ⟨?_, (hI.entries d e i hent).1⟩, fun p path hen => ?_⟩
  · exact Tree.one_le_nlink hI hent
  · exact hb.unlink_ne hI hen

theorem link_counts_kept_mkdir : ∃ s, step 200 boot (0, .mkdir (some [97])) = some s ∧
    Entry s.disk ROOTINO 2 2 ∧ 1 ≤ (s.disk 2).nlink.toInt := by
  obtain ⟨s, hs, hq⟩ := (Option.any_eq_true _ _).mp (by decide +kernel :
    (step 200 boot (0, .mkdir (some [97]))).any
      (fun s => (s.disk ROOTINO).type = T_DIR ∧ slots (s.disk ROOTINO).data 2 = 2) = true)
  obtain ⟨hdir, hslot⟩ := of_decide_eq_true hq
  have hent : Entry s.disk ROOTINO 2 2 := ⟨hdir, Nat.le_refl 2, hslot, by decide⟩
  have hkept := link_counts_kept (.step (.start start_boot) (fun ev n hwhy _ => ?_) hs)
  · exact ⟨s, hs, hent, (hkept.1 _ _ _ hent).1⟩
  · cases ev with
    | make d name i type major minor => exact trivial
    | hold i | release i | link d name i | unlink d e i => exact hwhy.elim

/-! ### A directory with many names -/

/-- The name of entry `e`. -/
def nameOf (e : ℕ) : List UInt8 := [UInt8.ofNat (48 + e / 70), UInt8.ofNat (48 + e % 70)]

/-- Directory `d` in directory `p`, with `k` names, where entry `e` is for inode `inum e`. -/
def fill (d p : ℕ) (inum : ℕ → ℕ) : ℕ → List UInt8
  | 0 => dotData d p
  | k + 1 => putEntry (fill d p inum k) (k + 2) ⟨inum (k + 2), strncpy (nameOf (k + 2)) DIRSIZ⟩

theorem toNat_nameOf (h : e < 4480) : (UInt8.ofNat (48 + e / 70)).toNat = 48 + e / 70 ∧
    (UInt8.ofNat (48 + e % 70)).toNat = 48 + e % 70 := by
  have hsize : UInt8.size = 256 := rfl
  exact ⟨UInt8.toNat_ofNat_of_lt' (by omega), UInt8.toNat_ofNat_of_lt' (by omega)⟩

theorem nameOf_inj {e' : ℕ} (h : e < 4480) (h' : e' < 4480) (heq : nameOf e = nameOf e') :
    e = e' := by
  obtain ⟨h₁, h₂⟩ := toNat_nameOf h
  obtain ⟨h₁', h₂'⟩ := toNat_nameOf h'
  simp only [nameOf, List.cons.injEq, and_true] at heq
  rw [heq.1] at h₁
  rw [heq.2] at h₂
  omega

theorem cname_nameOf (h : e < 4480) : cname (strncpy (nameOf e) DIRSIZ) = nameOf e := by
  obtain ⟨h₁, h₂⟩ := toNat_nameOf h
  have hne : ∀ {x : UInt8}, 48 ≤ x.toNat → x ≠ 0 := by
    rintro x hx rfl
    exact absurd hx (by decide)
  have hpair : ∀ a b : UInt8, a ≠ 0 → b ≠ 0 → cname [a, b] = [a, b] := by
    intro a b ha hb
    simp [cname, DIRSIZ, ha, hb]
  rw [cname_strncpy]
  exact hpair _ _ (hne (by omega)) (hne (by omega))

theorem nameOf_ne_dots (h : e < 4480) : nameOf e ≠ dot ∧ nameOf e ≠ dotdot := by
  obtain ⟨h₁, -⟩ := toNat_nameOf h
  constructor
  · intro heq
    exact absurd (congrArg List.length heq) (by decide : (2 : ℕ) ≠ 1)
  intro heq
  simp only [nameOf, dotdot, List.cons.injEq, and_true] at heq
  rw [heq.1] at h₁
  have h46 : (46 : UInt8).toNat = 46 := rfl
  omega

structure Filled (d p : ℕ) (inum : ℕ → ℕ) (k : ℕ) (data : List UInt8) : Prop where
  ok : DirOk d data
  nentries : nentries data = k + 2
  parent : slots data 1 = p
  entry : ∀ e, 2 ≤ e → e < k + 2 → entry data e = ⟨inum e, strncpy (nameOf e) DIRSIZ⟩

theorem filled {p k : ℕ} {inum : ℕ → ℕ} (hd₀ : d ≠ 0) (hd : d < 65536) (hp₀ : p ≠ 0)
    (hp : p < 65536) (hinum : ∀ e < k + 2, inum e < 65536 ∧ inum e ≠ d) (hk : k + 2 ≤ 4480) :
    Filled d p inum k (fill d p inum k) := by
  induction k with
  | zero =>
    refine ⟨.new hd₀ hd hp₀ hp, ?_, ?_, fun e h₁ h₂ => absurd h₂ (by omega)⟩
    · rw [fill, Names.nentries, length_dotData]
      rfl
    · rw [fill, slots, entry_dotData_one hp]
  | succ k ih =>
  have h := ih (fun e he => hinum e (by omega)) (by omega)
  have hnew := hinum (k + 2) (by omega)
  have hlen : (strncpy (nameOf (k + 2)) DIRSIZ).length = DIRSIZ := length_strncpy ..
  have he : k + 2 ≤ Names.nentries (fill d p inum k) := h.nentries.ge
  have hfit : DESIZE * (k + 2) + DESIZE ≤ MAXFILE * BSIZE := by
    have hM : MAXFILE * BSIZE = 71680 := rfl
    rw [hM, DESIZE]
    omega
  have hother : ∀ e, e ≠ k + 2 →
      Names.entry (fill d p inum (k + 1)) e = Names.entry (fill d p inum k) e :=
    fun e hne => entry_putEntry_of_ne he hlen hne
  refine ⟨h.ok.put (by omega) he hlen hnew.1 hnew.2 hfit fun _ e' he' => ?_,
    ?_, ?_, fun e h₁ h₂ => ?_⟩
  · -- the name is new
    have hlt := h.ok.whole.lt_of_slots he'
    rw [h.nentries] at hlt
    rw [cname_nameOf (by omega)]
    obtain rfl | rfl | h₂ : e' = 0 ∨ e' = 1 ∨ 2 ≤ e' := by omega
    · rw [h.ok.dot.2]
      exact (nameOf_ne_dots (by omega)).1
    · rw [h.ok.dotdot.2]
      exact (nameOf_ne_dots (by omega)).2
    rw [h.entry e' h₂ hlt, cname_nameOf (by omega)]
    intro heq
    have := nameOf_inj (by omega) (by omega) heq
    omega
  · rw [fill, (nentries_putEntry h.ok.whole.mod he hlen).2, h.nentries]
    omega
  · rw [slots, hother 1 (by omega)]
    exact h.parent
  · rcases eq_or_ne e (k + 2) with rfl | hne
    · exact entry_putEntry_self he hlen hnew.1
    · rw [hother e hne]
      exact h.entry e h₁ (by omega)

theorem Filled.slots_eq {p k : ℕ} {inum : ℕ → ℕ} {data : List UInt8}
    (h : Filled d p inum k data) (he : 2 ≤ e) : slots data e = if e < k + 2 then inum e else 0 := by
  split
  · next hlt => rw [slots, h.entry e he hlt]
  · next hge => exact h.ok.whole.slots_of_le (h.nentries ▸ not_lt.mp hge)

theorem Filled.kids_eq {p k : ℕ} {inum : ℕ → ℕ} {x : Dinode} (h : Filled d p inum k x.data)
    (hx : x.type = T_DIR) {P : ℕ → Prop} [DecidablePred P] (h₀ : ¬ P 0) :
    kids P x = ((Finset.Ico 2 (k + 2)).filter fun e => P (inum e)).card := by
  have hle : k + 2 ≤ NDIRENT := h.nentries ▸ h.ok.whole.nentries_le
  rw [kids, if_pos hx, tally, card_filter]
  refine (sum_subset_zero_on_sdiff (Finset.Ico_subset_Ico_right hle) (fun e he => ?_)
    fun e he => ?_).symm
  · obtain ⟨h₁, h₂⟩ := mem_sdiff.mp he
    have hlo := (mem_Ico.mp h₁).1
    rw [h.slots_eq hlo, if_neg fun hlt => h₂ (mem_Ico.mpr ⟨hlo, hlt⟩), if_neg h₀]
  · obtain ⟨hlo, hlt⟩ := mem_Ico.mp he
    rw [h.slots_eq hlo, if_pos hlt]

/-! ### An image with a file that has 32767 names -/

/-- The root has seven names for inode 2, and one for each of the inodes 3 to 10. -/
def rootSlot (e : ℕ) : ℕ := if e < 9 then 2 else e - 6

/-- Inode 2 is a file, and inodes 3 to 10 are directories with 4095 names for it each. -/
def fullDisk (i : ℕ) : Dinode :=
  if i = ROOTINO then ⟨T_DIR, 0, 0, 9, fill ROOTINO ROOTINO rootSlot 15⟩
  else if i = 2 then ⟨T_FILE, 0, 0, 32767, []⟩
  else if 3 ≤ i ∧ i < 11 then ⟨T_DIR, 0, 0, 1, fill i ROOTINO (fun _ => 2) 4095⟩
  else ⟨0, 0, 0, 0, []⟩

theorem fullDisk_root :
    fullDisk ROOTINO = ⟨T_DIR, 0, 0, 9, fill ROOTINO ROOTINO rootSlot 15⟩ := if_pos rfl

theorem fullDisk_file : fullDisk 2 = ⟨T_FILE, 0, 0, 32767, []⟩ := rfl

theorem fullDisk_dir (h : 3 ≤ i) (h' : i < 11) :
    fullDisk i = ⟨T_DIR, 0, 0, 1, fill i ROOTINO (fun _ => 2) 4095⟩ := by
  have hR : ROOTINO = 1 := rfl
  rw [fullDisk, if_neg (by omega), if_neg (by omega), if_pos ⟨h, h'⟩]

theorem type_fullDisk_dir (h : 3 ≤ i) (h' : i < 11) : (fullDisk i).type = T_DIR := by
  rw [fullDisk_dir h h']

theorem nlink_fullDisk_dir (h : 3 ≤ i) (h' : i < 11) : (fullDisk i).nlink = 1 := by
  rw [fullDisk_dir h h']

theorem fullDisk_cases (h : (fullDisk i).type ≠ 0) : i = ROOTINO ∨ i = 2 ∨ 3 ≤ i ∧ i < 11 := by
  by_contra hno
  obtain ⟨h₁, h₂⟩ := not_or.mp hno
  obtain ⟨h₂, h₃⟩ := not_or.mp h₂
  rw [fullDisk, if_neg h₁, if_neg h₂, if_neg h₃] at h
  exact h rfl

theorem fullDisk_dir_cases (h : (fullDisk i).type = T_DIR) : i = ROOTINO ∨ 3 ≤ i ∧ i < 11 := by
  rcases fullDisk_cases (ne_zero_of_dir h) with hi | rfl | hi
  · exact .inl hi
  · exact absurd h (by decide)
  · exact .inr hi

theorem rootSlot_bounds (h : 2 ≤ e) (h' : e < 17) : 2 ≤ rootSlot e ∧ rootSlot e < 11 := by
  unfold rootSlot
  split <;> omega

theorem filled_root : Filled ROOTINO ROOTINO rootSlot 15 (fullDisk ROOTINO).data := by
  rw [fullDisk_root]
  refine filled (by decide) (by decide) (by decide) (by decide) (fun e he => ?_) (by decide)
  have hR : ROOTINO = 1 := rfl
  unfold rootSlot
  split <;> omega

theorem filled_dir (h : 3 ≤ i) (h' : i < 11) :
    Filled i ROOTINO (fun _ => 2) 4095 (fullDisk i).data := by
  rw [fullDisk_dir h h']
  refine filled (by omega) (by omega) (by decide) (by decide) (fun _ _ => ⟨by decide, by omega⟩)
    (by decide)

theorem entry_fullDisk : Entry fullDisk d e i ↔ d = ROOTINO ∧ 2 ≤ e ∧ e < 17 ∧ i = rootSlot e ∨
      (3 ≤ d ∧ d < 11) ∧ 2 ≤ e ∧ e < 4097 ∧ i = 2 := by
  constructor
  · rintro ⟨hd, h₂, hslot, h₀⟩
    rcases fullDisk_dir_cases hd with rfl | ⟨hlo, hhi⟩
    · rw [filled_root.slots_eq h₂] at hslot
      split at hslot
      · next hlt => exact .inl ⟨rfl, h₂, hlt, hslot.symm⟩
      · exact absurd hslot.symm h₀
    rw [(filled_dir hlo hhi).slots_eq h₂] at hslot
    split at hslot
    · next hlt => exact .inr ⟨⟨hlo, hhi⟩, h₂, hlt, hslot.symm⟩
    · exact absurd hslot.symm h₀
  · rintro (⟨rfl, h₂, hlt, rfl⟩ | ⟨⟨hlo, hhi⟩, h₂, hlt, rfl⟩)
    · have hb := rootSlot_bounds h₂ hlt
      exact ⟨rfl, h₂, by rw [filled_root.slots_eq h₂, if_pos hlt], by omega⟩
    · refine ⟨type_fullDisk_dir hlo hhi, h₂, ?_, by decide⟩
      rw [(filled_dir hlo hhi).slots_eq h₂, if_pos hlt]

theorem links_fullDisk {j : ℕ} (hj : j ≠ 0) : links 200 fullDisk j =
    ((Finset.Ico 2 17).filter fun e => rootSlot e = j).card + 8 * (if 2 = j then 4095 else 0) := by
  have hkids : ∀ d, kids (· = j) (fullDisk d) =
      (if d = ROOTINO then ((Finset.Ico 2 17).filter fun e => rootSlot e = j).card else 0) +
        if d ∈ Finset.Ico 3 11 then (if 2 = j then 4095 else 0) else 0 := by
    intro d
    by_cases hd : (fullDisk d).type = T_DIR
    · rcases fullDisk_dir_cases hd with rfl | ⟨hlo, hhi⟩
      · rw [filled_root.kids_eq hd hj.symm, if_pos rfl, if_neg (by decide)]
        rfl
      have hR : ROOTINO = 1 := rfl
      rw [(filled_dir hlo hhi).kids_eq hd hj.symm, if_neg (by omega),
        if_pos (mem_Ico.mpr ⟨hlo, hhi⟩), Nat.zero_add]
      by_cases h2 : 2 = j
      · rw [if_pos h2, filter_true_of_mem fun _ _ => h2, Nat.card_Ico]
      · rw [if_neg h2, filter_false_of_mem fun _ _ => h2, card_empty]
    · have h₁ : d ≠ ROOTINO := by
        rintro rfl
        exact hd rfl
      have h₂ : d ∉ Finset.Ico 3 11 := by
        intro hmem
        obtain ⟨hlo, hhi⟩ := mem_Ico.mp hmem
        exact hd (type_fullDisk_dir hlo hhi)
      rw [kids, if_neg hd, if_neg h₁, if_neg h₂]
  rw [links, tally, sum_congr rfl fun d _ => hkids d, sum_add_distrib,
    sum_ite_eq', if_pos (by decide), sum_ite_mem, sum_const, smul_eq_mul]
  have hinter : range 200 ∩ Finset.Ico 3 11 = Finset.Ico 3 11 := by decide
  rw [hinter, Nat.card_Ico]

theorem rootSlot_eq {j : ℕ} (h : 3 ≤ j) : rootSlot e = j ↔ e = j + 6 := by
  unfold rootSlot
  split <;> omega

theorem links_fullDisk_dir (h : 3 ≤ i) (h' : i < 11) : links 200 fullDisk i = 1 := by
  have hone : ((Finset.Ico 2 17).filter fun e => rootSlot e = i) = {i + 6} := by
    ext e
    rw [mem_filter, mem_Ico, mem_singleton, rootSlot_eq h]
    omega
  rw [links_fullDisk (by omega), hone, card_singleton, if_neg (by omega)]

theorem links_fullDisk_root : links 200 fullDisk ROOTINO = 0 := by
  rw [links_fullDisk (by decide)]
  decide

theorem links_fullDisk_file : links 200 fullDisk 2 = 32767 := by
  rw [links_fullDisk (by decide)]
  decide

theorem subdirs_fullDisk_root : subdirs fullDisk ROOTINO = 8 := by
  have hP : ∀ e ∈ Finset.Ico 2 17, ((fullDisk (rootSlot e)).type = T_DIR ↔ 9 ≤ e) := by
    intro e he
    obtain ⟨h₂, hlt⟩ := mem_Ico.mp he
    by_cases h9 : e < 9
    · rw [rootSlot, if_pos h9, fullDisk_file]
      exact iff_of_false (by decide) (by omega)
    · rw [rootSlot, if_neg h9, fullDisk_dir (by omega) (by omega)]
      exact iff_of_true rfl (by omega)
  rw [subdirs, filled_root.kids_eq rfl (by decide), filter_congr hP]
  decide

theorem subdirs_fullDisk_dir (h : 3 ≤ i) (h' : i < 11) : subdirs fullDisk i = 0 := by
  rw [subdirs, (filled_dir h h').kids_eq (type_fullDisk_dir h h') (by decide),
    filter_false_of_mem fun _ _ => by decide, card_empty]

theorem image_fullDisk : Image 200 fullDisk := by
  have hR : ROOTINO = 1 := rfl
  have hfile : ∀ i, (fullDisk i).type ≠ 0 → (fullDisk i).type ≠ T_DIR → i = 2 := by
    intro i hi hd
    rcases fullDisk_cases hi with rfl | h2 | ⟨hlo, hhi⟩
    · exact absurd rfl hd
    · exact h2
    · exact absurd (type_fullDisk_dir hlo hhi) hd
  have hcount : (fullDisk 2).nlink.toInt = 32767 := by decide
  refine ⟨by decide, ⟨fun i => ⟨fun hi => ?_, fun hd => ?_⟩, ⟨rfl, filled_root.parent⟩, ?_, ?_,
    fun i hd => ?_, fun i hd => ?_, fun i hi hd => ?_, fun _ i hi hd => ?_⟩, fun d hd => ?_,
    fun i hu => ?_⟩
  · rcases fullDisk_cases hi with rfl | rfl | ⟨hlo, hhi⟩ <;> omega
  · rcases fullDisk_dir_cases hd with rfl | ⟨hlo, hhi⟩
    · exact filled_root.ok
    · exact (filled_dir hlo hhi).ok
  · -- names lead to allocated inodes
    intro d e i hent
    rcases entry_fullDisk.mp hent with ⟨-, h₂, hlt, rfl⟩ | ⟨-, -, -, rfl⟩
    · obtain ⟨hlo, hhi⟩ := rootSlot_bounds h₂ hlt
      refine ⟨?_, by omega⟩
      rcases hlo.eq_or_lt with h2 | h3
      · rw [← h2]
        decide
      · exact ne_zero_of_dir (type_fullDisk_dir h3 hhi)
    · exact ⟨by decide, by decide⟩
  · -- directories have names in the root only
    intro d e i hent hd
    rcases entry_fullDisk.mp hent with ⟨rfl, -, -, -⟩ | ⟨-, -, -, rfl⟩
    · rcases fullDisk_dir_cases hd with rfl | ⟨hlo, hhi⟩
      · exact filled_root.parent
      · exact (filled_dir hlo hhi).parent
    · exact absurd hd (by decide)
  · rcases fullDisk_dir_cases hd with rfl | ⟨hlo, hhi⟩
    · rw [links_fullDisk_root]
      exact Nat.zero_le 1
    · exact (links_fullDisk_dir hlo hhi).le
  · rcases fullDisk_dir_cases hd with rfl | ⟨hlo, hhi⟩
    · rw [links_fullDisk_root, subdirs_fullDisk_root, if_pos rfl, fullDisk_root]
      decide
    · rw [links_fullDisk_dir hlo hhi, subdirs_fullDisk_dir hlo hhi, if_neg (by omega),
        nlink_fullDisk_dir hlo hhi]
      decide
  · rw [hfile i hi hd, links_fullDisk_file, hcount]
    decide
  · rw [hfile i hi hd, links_fullDisk_file, hcount]
    decide
  · rcases fullDisk_dir_cases hd with rfl | ⟨hlo, hhi⟩
    · exact .root
    · refine .child .root (e := d + 6) (entry_fullDisk.mpr (.inl ⟨rfl, by omega, by omega, ?_⟩)) hd
      exact ((rootSlot_eq hlo).mpr rfl).symm
  · obtain ⟨hi, hzero⟩ := hu
    rcases fullDisk_cases hi with rfl | rfl | ⟨hlo, hhi⟩
    · exact absurd hzero (by decide)
    · exact absurd hzero (by decide)
    · rw [nlink_fullDisk_dir hlo hhi] at hzero
      exact absurd hzero (by decide)

def full : Kernel := { boot with disk := fullDisk }

theorem start_full : Start 200 full where
  coherent := by
    refine ⟨fun ip => ?_, start_boot.coherent.inj⟩
    rcases eq_or_ne ip 0 with rfl | hne
    · exact ⟨nofun, nofun, fun _ _ hzero => absurd hzero (by decide)⟩
    · have hip : full.icache ip = ⟨0, 0, false, false, ⟨0, 0, 0, 0, []⟩⟩ := if_neg hne
      rw [hip]
      exact ⟨nofun, nofun, nofun⟩
  rest := start_boot.rest.withTable fullDisk
  image := image_fullDisk
  quiescent := ⟨start_boot.quiescent.files, start_boot.quiescent.home⟩

/-- One more name for the file: its link count is -32768, and the new name cannot be removed. -/
theorem link_count_wraps : ∃ s, Reachable (step 200) (fun _ _ => True) (Start 200) s ∧
    Entry s.disk ROOTINO 17 2 ∧ (s.disk 2).nlink = -32768 ∧
    (Call.unlink (some [122])).run 200 0 s = .error .unlinkNlink := by
  obtain ⟨s, hs, hq⟩ := Reachable.exists_of_exec [(0, .link (some [48, 50]) (some [122]))]
    (fun s => ((s.disk ROOTINO).type = T_DIR ∧ slots (s.disk ROOTINO).data 17 = 2 ∧
      (s.disk 2).nlink = -32768) ∧ stopsWith .unlinkNlink 200 0 (.unlink (some [122])) s = true)
    (.start start_full : Reachable (step 200) (fun _ _ => True) (Start 200) full)
    (by decide +kernel)
  obtain ⟨⟨hdir, hslot, hnlink⟩, hstop⟩ := of_decide_eq_true hq
  exact ⟨s, hs, ⟨hdir, by decide, hslot, by decide⟩, hnlink, eq_of_stopsWith hstop⟩

end Xv6.Names
