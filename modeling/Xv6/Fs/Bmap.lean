import Mathlib.Data.Finset.Card
import Xv6.Fs.Slots

/-!
# `bmap`

What mapping a block of a file can do. It returns the number in the file's slot for that block,
which it may first have filled, together with the slot of the indirect block; it moves nothing, it
changes no other inode, and the new blocks are zero, which is what an empty slot stands for.
-/

namespace Xv6.Fs

open Hoare Function Finset

-- otherwise unification runs the programs down to the bytes of a block
attribute [local irreducible] LittleEndian.getLE

/-- From `v` to `v'`, only inode `i` got new blocks, and nothing moved. -/
structure Extends (L : Layout) (i : ℕ) (v v' : View) : Prop where
  wf : WellFormed L v'
  inode_ne : ∀ j, j ≠ i → v'.inode j = v.inode j
  inode_self : v'.inode i = { v.inode i with addrs := (v'.inode i).addrs }
  slot : ∀ a, v.slot a ≠ 0 → v'.slot a = v.slot a
  slot_ne : ∀ a, a.owner ≠ i → v'.slot a = v.slot a
  block_ne : ∀ a, a.IsData → a.owner ≠ i → v'.block a = v.block a

def SameBlocks (v v' : View) : Prop := ∀ a : Slot, a.IsData → v'.block a = v.block a

variable {L : Layout} {i : ℕ} {v v' v'' : View}

theorem Extends.refl (h : WellFormed L v) : Extends L i v v :=
  ⟨h, fun _ _ => rfl, rfl, fun _ _ => rfl, fun _ _ => rfl, fun _ _ _ => rfl⟩

theorem Extends.trans (h : Extends L i v v') (h' : Extends L i v' v'') : Extends L i v v'' where
  wf := h'.wf
  inode_ne j hj := (h'.inode_ne j hj).trans (h.inode_ne j hj)
  inode_self := by
    rw [h'.inode_self, h.inode_self]
  slot a ha := by
    have hmid := h.slot a ha
    rw [h'.slot a (hmid ▸ ha), hmid]
  slot_ne a ha := (h'.slot_ne a ha).trans (h.slot_ne a ha)
  block_ne a hd ha := (h'.block_ne a hd ha).trans (h.block_ne a hd ha)

theorem Extends.type_eq (h : Extends L i v v') : (v'.inode i).type = (v.inode i).type := by
  rw [h.inode_self]

theorem Extends.size_eq (h : Extends L i v v') : (v'.inode i).size = (v.inode i).size := by
  rw [h.inode_self]

theorem SameBlocks.trans (h : SameBlocks v v') (h' : SameBlocks v' v'') : SameBlocks v v'' :=
  fun a ha => (h' a ha).trans (h a ha)

/-! ### Counting free blocks -/

def View.free (L : Layout) (v : View) : Finset ℕ := (range L.size).filter (v.bit · = false)

/-- The empty ones among the slots `W`. -/
def View.missing (v : View) (W : Finset Slot) : Finset Slot := W.filter (v.slot · = 0)

/-- There is an unmarked block for every empty slot of `W`. -/
def Fits (L : Layout) (W : Finset Slot) (v : View) : Prop := (v.missing W).card ≤ (v.free L).card

variable {a : Slot}

theorem Fits.take {W : Finset Slot} {b : ℕ} (h : Fits L W v) (ha : a ∈ W)
    (hempty : v.slot a = 0) (hb : Fresh L v b) (hslot : v'.slot = update v.slot a b)
    (hbit : v'.bit = update v.bit b true) : Fits L W v' := by
  have hmissing : v'.missing W = (v.missing W).erase a := by
    ext c
    by_cases hc : c = a
    · simp [View.missing, hslot, hc, hb.ne_zero]
    · simp [View.missing, hslot, hc]
  have hfree : v'.free L = (v.free L).erase b := by
    ext c
    by_cases hc : c = b
    · simp [View.free, hbit, hc]
    · simp [View.free, hbit, hc]
  have hmem : a ∈ v.missing W := by simp [View.missing, ha, hempty]
  have hmem' : b ∈ v.free L := by simp [View.free, hb.lt, hb.free]
  unfold Fits at h ⊢
  rw [hmissing, hfree, card_erase_of_mem hmem, card_erase_of_mem hmem']
  omega

theorem not_fits_of_full {W : Finset Slot} (ha : a ∈ W) (hempty : v.slot a = 0)
    (hfull : ∀ b < L.size, v.bit b = true) : ¬ Fits L W v := by
  have hmem : a ∈ v.missing W := by simp [View.missing, ha, hempty]
  have hnone : v.free L = ∅ := by
    ext c
    simp only [View.free, mem_filter, mem_range, notMem_empty, iff_false, not_and]
    intro hc
    simp [hfull c hc]
  have hpos := card_pos.mpr ⟨a, hmem⟩
  unfold Fits
  rw [hnone, card_empty]
  omega

/-! ### Filling one slot -/

theorem sameBlocks_take {b : ℕ} (hempty : v.slot a = 0)
    (hb : Fresh L v b) (hslot : v'.slot = update v.slot a b) (hzero : v'.data b = zeroBlock)
    (hdata : ∀ c : Slot, c.IsData → v.slot c ≠ 0 → v'.data (v.slot c) = v.data (v.slot c)) :
    SameBlocks v v' := by
  intro c hc
  unfold View.block
  rw [hslot]
  rcases eq_or_ne c a with rfl | hca
  · rw [update_self, if_neg hb.ne_zero, if_pos hempty, hzero]
  rw [update_of_ne hca]
  split
  · rfl
  · exact hdata c hc ‹_›

theorem Extends.of_take {b : ℕ} (hwf : WellFormed L v) (hempty : v.slot a = 0)
    (hb : Fresh L v b) (hslot : v'.slot = update v.slot a b)
    (hbit : v'.bit = update v.bit b true) (hsame : SameBlocks v v') (ha : a.owner = i)
    (hne : ∀ j, j ≠ i → v'.inode j = v.inode j)
    (hself : v'.inode i = { v.inode i with addrs := (v'.inode i).addrs }) : Extends L i v v' where
  wf := hwf.take hempty hb hslot hbit
  inode_ne := hne
  inode_self := hself
  slot c hc := by
    have hca : c ≠ a := fun h => hc (h ▸ hempty)
    rw [hslot, update_of_ne hca]
  slot_ne c hc := by
    have hca : c ≠ a := fun h => hc (h ▸ ha)
    rw [hslot, update_of_ne hca]
  block_ne c hd _ := hsame c hd

/-- What mapping slot `a` of inode `i` to block `c` establishes, if the slots it may fill are
`want`. -/
structure Maps (L : Layout) (i : ℕ) (v : View) (a : Slot) (want : Finset Slot) (c : ℕ)
    (v' : View) : Prop where
  ext : Extends L i v v'
  same : SameBlocks v v'
  slot_eq : v'.slot a = c
  ne_zero : c ≠ 0
  fits : ∀ W, want ⊆ W → Fits L W v → Fits L W v'

def RunsOut (L : Layout) (v : View) (want : Finset Slot) (e : Panic) : Prop :=
  e = .outOfBlocks ∧ ∀ W, want ⊆ W → ¬ Fits L W v

theorem Maps.present {want : Finset Slot} (hwf : WellFormed L v) (ha : v.slot a ≠ 0) :
    Maps L i v a want (v.slot a) v :=
  ⟨.refl hwf, fun _ _ => rfl, rfl, ha, fun _ _ h => h⟩

theorem Maps.take {b : ℕ} (hempty : v.slot a = 0) (hb : Fresh L v b)
    (hext : Extends L i v v') (hsame : SameBlocks v v')
    (hslot : v'.slot = update v.slot a b) (hbit : v'.bit = update v.bit b true) :
    Maps L i v a {a} b v' where
  ext := hext
  same := hsame
  slot_eq := by rw [hslot, update_self]
  ne_zero := hb.ne_zero
  fits W hW h := h.take (hW (mem_singleton_self a)) hempty hb hslot hbit

theorem Maps.takeAddr {k b : ℕ} (hwf : WellFormed L v) (hlive : (v.inode i).type ≠ 0)
    (hk : k < NDIRECT + 1) (h0 : v.slot (.addr i k) = 0) (hb : Fresh L v b) :
    Maps L i v (.addr i k) {.addr i k} b (v.takeAddr i k b) := by
  have hnew := slot_takeAddr hwf hlive hk h0 hb
  have hsame : SameBlocks v (v.takeAddr i k b) := by
    refine sameBlocks_take h0 hb hnew (update_self ..) fun c _ _ => ?_
    exact update_of_ne (hb.ne_slot hwf c) ..
  have hext : Extends L i v (v.takeAddr i k b) :=
    .of_take hwf h0 hb hnew rfl hsame rfl (fun j hj => update_of_ne hj ..)
      (by simp [View.takeAddr, Inode.setAddr])
  exact .take h0 hb hext hsame hnew rfl

theorem Maps.takeEntry {j b : ℕ} (hwf : WellFormed L v) (hind : v.indirect i ≠ 0)
    (hj : j < NINDIRECT) (h0 : v.slot (.entry i j) = 0) (hb : Fresh L v b) :
    Maps L i v (.entry i j) {.entry i j} b (v.takeEntry i j b) := by
  have hnew := slot_takeEntry hwf hind hj hb
  have hne : b ≠ v.indirect i := (hb.ne_slot hwf (.addr i NDIRECT)).symm
  have hsame : SameBlocks v (v.takeEntry i j b) := by
    refine sameBlocks_take h0 hb hnew ?_ fun c hc hc0 => ?_
    · simp [View.takeEntry, View.alloc, update_of_ne hne]
    -- a data slot does not own the indirect block
    have hother : v.slot c ≠ v.indirect i := fun heq => by
      have hslot := hwf.owned.inj c (.addr i NDIRECT) hc0 heq
      subst hslot
      exact absurd hc (Nat.lt_irrefl NDIRECT)
    simp [View.takeEntry, View.alloc, update_of_ne hother, update_of_ne (hb.ne_slot hwf c)]
  have hext : Extends L i v (v.takeEntry i j b) :=
    .of_take hwf h0 hb hnew rfl hsame rfl (fun _ _ => rfl) rfl
  exact .take h0 hb hext hsame hnew rfl

theorem Maps.indirect {addr j c : ℕ} (h : Maps L i v (.addr i NDIRECT) {.addr i NDIRECT} addr v')
    (h' : Maps L i v' (.entry i j) {.entry i j} c v'') :
    Maps L i v (.entry i j) {.addr i NDIRECT, .entry i j} c v'' := by
  refine ⟨h.ext.trans h'.ext, h.same.trans h'.same, h'.slot_eq, h'.ne_zero,
    fun W hW hfits => h'.fits W ?_ (h.fits W ?_ hfits)⟩
  · exact (singleton_subset_iff.mpr (by simp)).trans hW
  · exact (singleton_subset_iff.mpr (by simp)).trans hW

theorem via_balloc_slot {R : ℕ → View → Prop} (hwf : WellFormed L v)
    (hempty : v.slot a = 0) (h : ∀ b, Fresh L v b → R b (v.alloc b)) :
    Via (Views L) (balloc L) R (RunsOut L v {a}) v :=
  via_balloc hwf.metadata (fun b h₁ h₂ h₃ => h b ⟨h₁, h₂, h₃⟩) fun hfull =>
    ⟨rfl, fun _ hW => not_fits_of_full (hW (mem_singleton_self a)) hempty hfull⟩

theorem via_bmapAddr {k : ℕ} (hi : i < L.ninodes) (hwf : WellFormed L v)
    (hlive : (v.inode i).type ≠ 0) (hk : k < NDIRECT + 1) :
    Via (Views L) (bmapAddr L i k) (Maps L i v (.addr i k) {.addr i k})
      (RunsOut L v {.addr i k}) v := by
  have hslot : v.slot (.addr i k) = (v.inode i).addr k := if_neg hlive
  refine Via.bind_eq (via_inode hi ⟨rfl, rfl⟩) ?_
  refine Via.ite (fun h0 => ?_) fun h0 => ?_
  · rw [← hslot] at h0
    refine Via.bind (via_balloc_slot (R := fun b w => Fresh L v b ∧ v.alloc b = w) hwf h0
      fun b hb => ⟨hb, rfl⟩) ?_
    rintro b _ ⟨hb, rfl⟩
    refine Via.bind_eq (via_inode (R := fun ip w => ip = v.inode i ∧ v.alloc b = w) hi
      ⟨rfl, rfl⟩) ?_
    refine Via.seq (u := v.takeAddr i k b) (via_setInode hi rfl) ?_
    exact Via.pure (.takeAddr hwf hlive hk h0 hb)
  · rw [← hslot] at h0 ⊢
    exact Via.pure (.present hwf h0)

theorem via_bmapEntry {j : ℕ} (hwf : WellFormed L v) (hind : v.indirect i ≠ 0)
    (hj : j < NINDIRECT) :
    Via (Views L) (bmapEntry L (v.indirect i) j) (Maps L i v (.entry i j) {.entry i j})
      (RunsOut L v {.entry i j}) v := by
  have hdata : L.datastart ≤ v.indirect i := (hwf.bounds (a := .addr i NDIRECT) hind).1
  have hslot : v.slot (.entry i j) = getWord (v.data (v.indirect i)) j := by
    rw [View.slot_entry, if_neg (by omega)]
  refine Via.bind_eq (via_bread hdata ⟨rfl, rfl⟩) ?_
  refine Via.ite (fun h0 => ?_) fun h0 => ?_
  · rw [← hslot] at h0
    refine Via.bind (via_balloc_slot (R := fun b w => Fresh L v b ∧ v.alloc b = w) hwf h0
      fun b hb => ⟨hb, rfl⟩) ?_
    rintro b _ ⟨hb, rfl⟩
    refine Via.seq (u := v.takeEntry i j b) (via_logWrite hdata rfl) ?_
    exact Via.pure (.takeEntry hwf hind hj h0 hb)
  · rw [← hslot] at h0 ⊢
    exact Via.pure (.present hwf h0)

/-- The slots that mapping block `bn` of inode `i` may fill. -/
def wanted (i bn : ℕ) : Finset Slot :=
  if bn < NDIRECT then {.addr i bn} else {.addr i NDIRECT, .entry i (bn - NDIRECT)}

theorem via_bmap {bn : ℕ} (hi : i < L.ninodes) (hwf : WellFormed L v)
    (hlive : (v.inode i).type ≠ 0) (hbn : bn < MAXFILE) :
    Via (Views L) (bmap L i bn) (Maps L i v (fileSlot i bn) (wanted i bn))
      (RunsOut L v (wanted i bn)) v := by
  unfold bmap
  by_cases hdirect : bn < NDIRECT
  · simp only [hdirect, if_true, fileSlot, wanted]
    exact via_bmapAddr hi hwf hlive (Nat.lt_succ_of_lt hdirect)
  have hj : bn - NDIRECT < NINDIRECT := by
    have : MAXFILE = NDIRECT + NINDIRECT := rfl
    omega
  simp only [hdirect, if_false, hj, if_true, fileSlot, wanted]
  -- failing in either half is failing as a whole
  refine Via.bind ((via_bmapAddr hi hwf hlive (Nat.lt_succ_self NDIRECT)).mono
    (fun _ _ h => h) fun e he => ⟨he.1, fun W hW => he.2 W ?_⟩) ?_
  · exact (singleton_subset_iff.mpr (by simp)).trans hW
  intro addr w hw
  have hind : w.indirect i = addr := hw.slot_eq
  have hmaps := via_bmapEntry (i := i) hw.ext.wf (hind ▸ hw.ne_zero) hj
  rw [hind] at hmaps
  refine hmaps.mono (fun c u hu => ?_) fun e he => ⟨he.1, fun W hW hfits => ?_⟩
  · exact hw.indirect hu
  · refine he.2 W ?_ (hw.fits W ?_ hfits)
    · exact (singleton_subset_iff.mpr (by simp)).trans hW
    · exact (singleton_subset_iff.mpr (by simp)).trans hW

end Xv6.Fs
