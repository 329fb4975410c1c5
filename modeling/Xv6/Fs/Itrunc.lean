import Xv6.Fs.Bmap

/-!
# `itrunc`

Truncation gives up every block of an inode: the direct ones one by one, each together with its
`addrs[]` entry, then the blocks listed in the indirect block, then the indirect block itself.

While the indirect block is being emptied the disk still lists blocks that are already free, so the
slots of the view do not describe the ownership. The loop invariant uses the slots with the entries
done so far taken out (`dropEntries`).
-/

namespace Xv6.Fs

open Hoare Ownership Function

variable {L : Layout} {i : ℕ} {v : View}

/-! ### Direct blocks -/

/-- Free `addrs[k]` of inode `i` and clear it. -/
def View.dropAddr (v : View) (i k : ℕ) : View :=
  let w := v.unmark ((v.inode i).addr k)
  { w with inode := update v.inode i ((v.inode i).setAddr k 0) }

theorem slot_dropAddr_addr {k : ℕ} (hlive : (v.inode i).type ≠ 0) (hk : k < NDIRECT + 1) (j l : ℕ) :
    (v.dropAddr i k).slot (.addr j l) = if j = i ∧ l = k then 0 else v.slot (.addr j l) := by
  rw [View.slot_addr, View.slot_addr, View.dropAddr]
  rcases eq_or_ne j i with rfl | hj
  · simp [hlive, Inode.addr_setAddr hk]
  · simp [hj]

theorem slot_dropAddr {k : ℕ} (hlive : (v.inode i).type ≠ 0) (hk : k < NDIRECT) :
    (v.dropAddr i k).slot = update v.slot (.addr i k) 0 := by
  have haddr := slot_dropAddr_addr (v := v) hlive (Nat.lt_succ_of_lt hk)
  funext a
  cases a with
  | addr j l =>
    rw [haddr]
    by_cases h : j = i ∧ l = k
    · rw [if_pos h, h.1, h.2, update_self]
    · rw [if_neg h, update_of_ne (by simpa using h)]
  | entry j l =>
  have hind : (v.dropAddr i k).indirect j = v.indirect j :=
    (haddr j NDIRECT).trans (if_neg (by omega))
  rw [update_of_ne (by simp), View.slot_entry, View.slot_entry, hind]
  rfl

theorem WellFormed.metadata_update (hwf : WellFormed L v) {b : ℕ} (hb : L.datastart ≤ b)
    {c : ℕ} (hc : c < L.datastart) : update v.bit b false c = true := by
  rw [update_of_ne (by omega)]
  exact hwf.metadata c hc

theorem WellFormed.dropAddr {k : ℕ} (hwf : WellFormed L v) (hlive : (v.inode i).type ≠ 0)
    (hk : k < NDIRECT) (h0 : (v.inode i).addr k ≠ 0) : WellFormed L (v.dropAddr i k) := by
  have hslot : v.slot (.addr i k) = (v.inode i).addr k := if_neg hlive
  rw [← hslot] at h0
  refine ⟨?_, fun c hc => ?_⟩
  · rw [slot_dropAddr hlive hk, View.dropAddr, ← hslot]
    exact hwf.owned.free h0
  · exact hwf.metadata_update (hslot ▸ (hwf.bounds h0).1) hc

/-- What the loop over `addrs[0..k)` has done to `v`. -/
structure Dropped (L : Layout) (i : ℕ) (v : View) (k : ℕ) (w : View) : Prop where
  wf : WellFormed L w
  inode_ne : ∀ j, j ≠ i → w.inode j = v.inode j
  inode_self : w.inode i = { v.inode i with addrs := (w.inode i).addrs }
  cleared : ∀ l < k, (w.inode i).addr l = 0
  data : w.data = v.data

variable {w : View}

theorem Dropped.step {k : ℕ} (h : Dropped L i v k w) (hlive : (v.inode i).type ≠ 0)
    (hk : k < NDIRECT) (h0 : (w.inode i).addr k ≠ 0) : Dropped L i v (k + 1) (w.dropAddr i k) where
  wf := h.wf.dropAddr (by rw [h.inode_self]; exact hlive) hk h0
  inode_ne j hj := by
    rw [← h.inode_ne j hj]
    exact update_of_ne hj ..
  inode_self := by
    have hself : (w.dropAddr i k).inode i = (w.inode i).setAddr k 0 := update_self ..
    rw [hself, h.inode_self]
    rfl
  cleared l hl := by
    have hself : (w.dropAddr i k).inode i = (w.inode i).setAddr k 0 := update_self ..
    rw [hself, Inode.addr_setAddr (Nat.lt_succ_of_lt hk) (by decide)]
    split
    · rfl
    · exact h.cleared l (by omega)
  data := h.data

variable {E : Panic → Prop}

theorem via_itruncDirect (hi : i < L.ninodes) (hwf : WellFormed L v)
    (hlive : (v.inode i).type ≠ 0) :
    Via (Views L) (itruncDirect L i) (fun _ => Dropped L i v NDIRECT) E v := by
  have hstart : Dropped L i v 0 v :=
    ⟨hwf, fun _ _ => rfl, rfl, fun l hl => absurd hl (Nat.not_lt_zero l), rfl⟩
  refine Via.forUpTo (I := Dropped L i v) hstart fun k hk w hw => ?_
  refine Via.bind_eq (via_inode hi ⟨rfl, rfl⟩) ?_
  refine Via.ite (fun h0 => Via.pure ?_) fun h0 => ?_
  · refine ⟨hw.wf, hw.inode_ne, hw.inode_self, fun l hl => ?_, hw.data⟩
    rcases Nat.lt_succ_iff_lt_or_eq.mp hl with hlt | rfl
    · exact hw.cleared l hlt
    · exact h0
  have hlive' : (w.inode i).type ≠ 0 := by
    rw [hw.inode_self]
    exact hlive
  have hslot : w.slot (.addr i k) = (w.inode i).addr k := if_neg hlive'
  have hsound := hw.wf.owned.sound (.addr i k) (hslot ▸ h0)
  rw [hslot] at hsound
  refine Via.seq (u := w.unmark ((w.inode i).addr k)) (via_bfree hsound.1.2 hsound.2 rfl) ?_
  exact via_setInode hi (hw.step hlive hk h0)

/-! ### Indirect blocks -/

/-- The slots without the first `n` entries of the indirect block of inode `i`. -/
def dropEntries (i n : ℕ) (f : Slot → ℕ) : Slot → ℕ
  | .addr j k => f (.addr j k)
  | .entry j l => if j = i ∧ l < n then 0 else f (.entry j l)

theorem dropEntries_succ (f : Slot → ℕ) (n : ℕ) :
    dropEntries i (n + 1) f = update (dropEntries i n f) (.entry i n) 0 := by
  funext a
  cases a with
  | addr j k => rw [update_of_ne (by simp)]; rfl
  | entry j l =>
  by_cases h : j = i ∧ l = n
  · rw [h.1, h.2, update_self]
    exact if_pos ⟨rfl, Nat.lt_succ_self n⟩
  · rw [update_of_ne (by simpa using h)]
    exact if_congr (by omega) rfl rfl

/-- While the indirect block is emptied: the first `n` entries are given up. -/
structure Emptying (L : Layout) (i : ℕ) (v : View) (n : ℕ) (w : View) : Prop where
  inode : w.inode = v.inode
  data : w.data = v.data
  owned : Owned (dropEntries i n v.slot) w.bit fun b => L.datastart ≤ b ∧ b < L.size
  metadata : ∀ b < L.datastart, w.bit b = true

theorem Emptying.free {n : ℕ} (h : Emptying L i v n w) (hn : v.slot (.entry i n) ≠ 0) :
    Emptying L i v (n + 1) (w.unmark (v.slot (.entry i n))) where
  inode := h.inode
  data := h.data
  owned := by
    have hslot : dropEntries i n v.slot (.entry i n) = v.slot (.entry i n) :=
      if_neg (by omega)
    rw [dropEntries_succ, ← hslot]
    exact h.owned.free (hslot ▸ hn)
  metadata c hc := by
    have hslot : dropEntries i n v.slot (.entry i n) = v.slot (.entry i n) :=
      if_neg (by omega)
    have hdata := (h.owned.sound (.entry i n) (hslot ▸ hn)).1.1
    rw [hslot] at hdata
    have hne : c ≠ v.slot (.entry i n) := by omega
    exact (update_of_ne hne ..).trans (h.metadata c hc)

theorem Emptying.skip {n : ℕ} (h : Emptying L i v n w)
    (hn : v.slot (.entry i n) = 0) : Emptying L i v (n + 1) w where
  inode := h.inode
  data := h.data
  owned := by
    have hslot : dropEntries i n v.slot (.entry i n) = 0 := (if_neg (by omega)).trans hn
    rw [dropEntries_succ, ← hslot, update_eq_self]
    exact h.owned
  metadata := h.metadata

theorem slot_congr (hinode : w.inode = v.inode) (hdata : w.data = v.data) : w.slot = v.slot := by
  obtain ⟨_, _, _⟩ := w
  obtain ⟨_, _, _⟩ := v
  dsimp only at hinode hdata
  subst hinode hdata
  funext a
  cases a <;> rfl

theorem slot_dropAddr_indirect (hlive : (v.inode i).type ≠ 0) : (v.dropAddr i NDIRECT).slot =
      update (dropEntries i NINDIRECT v.slot) (.addr i NDIRECT) 0 := by
  have haddr := slot_dropAddr_addr (v := v) hlive (Nat.lt_succ_self NDIRECT)
  funext a
  cases a with
  | addr j l =>
    rw [haddr]
    by_cases h : j = i ∧ l = NDIRECT
    · rw [if_pos h, h.1, h.2, update_self]
    · rw [if_neg h, update_of_ne (by simpa using h)]
      rfl
  | entry j l =>
  have hind : (v.dropAddr i NDIRECT).indirect j =
      if j = i ∧ NDIRECT = NDIRECT then 0 else v.indirect j := haddr j NDIRECT
  rw [update_of_ne (by simp), View.slot_entry, hind]
  by_cases hj : j = i
  · rw [if_pos (.inl (if_pos ⟨hj, rfl⟩))]
    symm
    by_cases hl : l < NINDIRECT
    · exact if_pos ⟨hj, hl⟩
    · rw [dropEntries, if_neg (fun h => hl h.2), View.slot_entry, if_pos (.inr (by omega))]
  · have hdrop : dropEntries i NINDIRECT v.slot (.entry j l) = v.slot (.entry j l) :=
      if_neg fun h => hj h.1
    rw [if_neg (c := j = i ∧ NDIRECT = NDIRECT) (fun h => hj h.1), hdrop, View.slot_entry]
    rfl

theorem Emptying.dropAddr {w u : View} (hu : Emptying L i w NINDIRECT u)
    (hw : Dropped L i v NDIRECT w) (hlive : (v.inode i).type ≠ 0)
    (h0 : w.slot (.addr i NDIRECT) ≠ 0) :
    Dropped L i v (NDIRECT + 1)
      { u.unmark ((w.inode i).addr NDIRECT) with
        inode := update u.inode i ((w.inode i).setAddr NDIRECT 0) } := by
  have hfinal : { u.unmark ((w.inode i).addr NDIRECT) with
      inode := update u.inode i ((w.inode i).setAddr NDIRECT 0) } = u.dropAddr i NDIRECT := by
    rw [View.dropAddr, hu.inode]
  rw [hfinal]
  have hlive' : (w.inode i).type ≠ 0 := by
    rw [hw.inode_self]
    exact hlive
  have hself : (u.dropAddr i NDIRECT).inode i = (w.inode i).setAddr NDIRECT 0 := by
    rw [View.dropAddr, hu.inode]
    exact update_self ..
  have hslot : w.slot (.addr i NDIRECT) = (w.inode i).addr NDIRECT := if_neg hlive'
  have hsame : u.slot = w.slot := slot_congr hu.inode hu.data
  refine ⟨⟨?_, fun c hc => ?_⟩, fun j hj => ?_, ?_, fun l hl => ?_, hu.data.trans hw.data⟩
  · rw [slot_dropAddr_indirect (by rw [hu.inode]; exact hlive'), hsame]
    have hfree := hu.owned.free (a := Slot.addr i NDIRECT) h0
    rw [View.dropAddr, hu.inode]
    rw [show dropEntries i NINDIRECT w.slot (.addr i NDIRECT) = (w.inode i).addr NDIRECT from hslot]
      at hfree
    exact hfree
  · have hdata := (hw.wf.bounds h0).1
    rw [hslot] at hdata
    rw [View.dropAddr, hu.inode]
    exact (update_of_ne (by omega) ..).trans (hu.metadata c hc)
  · rw [← hw.inode_ne j hj, ← hu.inode]
    exact update_of_ne hj ..
  · rw [hself, hw.inode_self]
    rfl
  · rw [hself, Inode.addr_setAddr (Nat.lt_succ_self NDIRECT) (by decide)]
    split
    · rfl
    · exact hw.cleared l (by omega)

theorem via_itruncIndirect (hi : i < L.ninodes)
    (hlive : (v.inode i).type ≠ 0) (hw : Dropped L i v NDIRECT w) :
    Via (Views L) (itruncIndirect L i) (fun _ => Dropped L i v (NDIRECT + 1)) E w := by
  have hlive' : (w.inode i).type ≠ 0 := by
    rw [hw.inode_self]
    exact hlive
  have hslot : w.slot (.addr i NDIRECT) = (w.inode i).addr NDIRECT := if_neg hlive'
  have hind : w.indirect i = (w.inode i).addr NDIRECT := hslot
  refine Via.bind_eq (via_inode hi ⟨rfl, rfl⟩) ?_
  refine Via.ite (fun h0 => Via.pure ?_) fun h0 => ?_
  · refine ⟨hw.wf, hw.inode_ne, hw.inode_self, fun l hl => ?_, hw.data⟩
    rcases Nat.lt_succ_iff_lt_or_eq.mp hl with hlt | rfl
    · exact hw.cleared l hlt
    · exact h0
  rw [← hslot] at h0
  have hentry : ∀ j < NINDIRECT, w.slot (.entry i j) =
      getWord (w.data ((w.inode i).addr NDIRECT)) j := by
    intro j hj
    have h0' : w.indirect i ≠ 0 := h0
    rw [View.slot_entry, if_neg (by omega), hind]
  have hdata := (hw.wf.bounds h0).1
  rw [hslot] at hdata
  refine Via.bind_eq (via_bread hdata ⟨rfl, rfl⟩) ?_
  have hstart : Emptying L i w 0 w := by
    refine ⟨rfl, rfl, ?_, hw.wf.metadata⟩
    have hnone : dropEntries i 0 w.slot = w.slot := by
      funext a
      cases a with
      | addr j k => rfl
      | entry j l => exact if_neg (fun h => absurd h.2 (Nat.not_lt_zero l))
    rw [hnone]
    exact hw.wf.owned
  refine Via.bind (R := fun _ => Emptying L i w NINDIRECT)
    (Via.forUpTo (I := Emptying L i w) hstart fun j hj u hu => ?_) fun _ u hu => ?_
  · rw [← hentry j hj]
    refine Via.ite (fun hz => Via.pure (hu.skip hz)) fun hz => ?_
    have hdrop : dropEntries i j w.slot (.entry i j) = w.slot (.entry i j) :=
      if_neg fun h => Nat.lt_irrefl j h.2
    have hsound := hu.owned.sound (.entry i j) (hdrop ▸ hz)
    rw [hdrop] at hsound
    exact via_bfree hsound.1.2 hsound.2 (hu.free hz)
  have hdrop : dropEntries i NINDIRECT w.slot (.addr i NDIRECT) = w.slot (.addr i NDIRECT) :=
    rfl
  have hsound := hu.owned.sound (.addr i NDIRECT) (hdrop ▸ h0)
  rw [hdrop, hslot] at hsound
  refine Via.seq (u := u.unmark ((w.inode i).addr NDIRECT)) (via_bfree hsound.1.2 hsound.2 rfl) ?_
  exact via_setInode hi (hu.dropAddr hw hlive h0)

/-! ### The whole -/

theorem addrs_eq_zero {ip : Inode} (h : ∀ k < NDIRECT + 1, ip.addr k = 0) :
    ip.addrs = fun _ => 0 := by
  funext k
  have hk := h k k.isLt
  rw [Inode.addr, dif_pos k.isLt] at hk
  exact UInt32.toNat_inj.mp hk

theorem via_itrunc (hi : i < L.ninodes) (hwf : WellFormed L v) (hlive : (v.inode i).type ≠ 0) :
    Via (Views L) (itrunc L i) (fun _ w => WellFormed L w ∧ (∀ j, j ≠ i → w.inode j = v.inode j) ∧
      w.inode i = { v.inode i with size := 0, addrs := fun _ => 0 } ∧ w.data = v.data) E v := by
  refine Via.bind (via_itruncDirect hi hwf hlive) fun _ w hw => ?_
  refine Via.bind (via_itruncIndirect hi hlive hw) fun _ u hu => ?_
  refine Via.bind_eq (via_inode hi ⟨rfl, rfl⟩) ?_
  refine Via.seq (u := u.setSize i 0) (via_setInode hi rfl) ?_
  refine via_iupdate hi ⟨hu.wf.setSize i 0, fun j hj => ?_, ?_, hu.data⟩
  · rw [← hu.inode_ne j hj]
    exact update_of_ne hj ..
  · have hself : (u.setSize i 0).inode i = { u.inode i with size := 0 } := update_self ..
    rw [hself, hu.inode_self, ← addrs_eq_zero hu.cleared]

end Xv6.Fs
