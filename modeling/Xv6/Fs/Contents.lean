import Mathlib.Data.Finset.Union
import Mathlib.Order.Interval.Finset.Nat
import Xv6.Fs.Bmap
import Xv6.Lib.Splice

/-!
# File contents as a flat array of bytes

`readi` and `writei` walk a file in pieces that end at block boundaries. In terms of single bytes,
an iteration changes exactly the bytes of its piece: mapping the block changes none, because a
block that was missing stands for zeroes and a new block is zero, and storing the piece changes
one block of one file, because no block belongs to two slots.
-/

namespace Xv6.Fs

open LittleEndian Hoare Splice List

/-- Byte `k` of inode `i`, zero where there is no block. -/
def View.byte (v : View) (i k : ℕ) : UInt8 :=
  byteAt (v.block (fileSlot i (k / BSIZE))) (k % BSIZE)

/-- The bytes of inode `i`. -/
def View.contents (v : View) (i : ℕ) : List UInt8 :=
  (range (v.inode i).size.toNat).map (v.byte i)

variable {L : Layout} {i : ℕ} {v w : View}

theorem SameBlocks.byte_eq (h : SameBlocks v w) (j k : ℕ) : w.byte j k = v.byte j k := by
  unfold View.byte
  rw [h _ (isData_fileSlot j _)]

theorem Extends.byte_eq_of_ne (h : Extends L i v w) {j : ℕ} (hj : j ≠ i) (k : ℕ) :
    w.byte j k = v.byte j k := by
  unfold View.byte
  rw [h.block_ne _ (isData_fileSlot j _) (by rwa [owner_fileSlot])]

/-! ### Storing a piece -/

variable {src : ℕ → UInt8}

theorem byteAt_blit {bp : Block} {off m : ℕ} {j : ℕ} (hj : j < BSIZE) :
    byteAt (blit bp off m src) j =
      if off ≤ j ∧ j < off + m then src (j - off) else byteAt bp j := by
  simp [byteAt, blit, hj]

theorem byte_write_blit {off m : ℕ} (hwf : WellFormed L v)
    (hne : v.slot (fileSlot i (off / BSIZE)) ≠ 0) (hm : off % BSIZE + m ≤ BSIZE) (k : ℕ) :
    (v.write (v.slot (fileSlot i (off / BSIZE)))
        (blit (v.data (v.slot (fileSlot i (off / BSIZE)))) (off % BSIZE) m src)).byte i k =
      if off ≤ k ∧ k < off + m then src (k - off) else v.byte i k := by
  have hB : BSIZE = 512 := rfl
  have hlt : k % BSIZE < BSIZE := Nat.mod_lt _ (by decide)
  unfold View.byte
  rw [block_write hwf (isData_fileSlot i _) hne]
  by_cases hblk : k / BSIZE = off / BSIZE
  · have hblock : v.block (fileSlot i (off / BSIZE)) =
        v.data (v.slot (fileSlot i (off / BSIZE))) := if_neg hne
    rw [hblk, if_pos rfl, byteAt_blit hlt, hblock]
    have hiff : off % BSIZE ≤ k % BSIZE ∧ k % BSIZE < off % BSIZE + m ↔ off ≤ k ∧ k < off + m := by
      rw [hB] at hblk hm ⊢
      omega
    have hsub : k % BSIZE - off % BSIZE = k - off := by
      rw [hB] at hblk ⊢
      omega
    rw [hsub]
    exact if_congr hiff rfl rfl
  · have hslot : fileSlot i (k / BSIZE) ≠ fileSlot i (off / BSIZE) :=
      fun h => hblk (fileSlot_injective h)
    rw [if_neg hslot, if_neg]
    rintro ⟨h₁, h₂⟩
    rw [hB] at hblk hm
    omega

theorem Extends.write (hwf : WellFormed L v) {a : Slot} (ha : a.IsData) (hne : v.slot a ≠ 0)
    (howner : a.owner = i) (x : Block) : Extends L i v (v.write (v.slot a) x) where
  wf := hwf.write ha x
  inode_ne _ _ := rfl
  inode_self := rfl
  slot c _ := by rw [slot_write hwf ha]
  slot_ne c _ := by rw [slot_write hwf ha]
  block_ne c _ hc := by
    have hca : c ≠ a := fun h => hc (h ▸ howner)
    rw [block_write hwf ha hne, if_neg hca]

/-! ### The loop of `writei` -/

/-- The slots that a transfer of `n` bytes from `off` may fill. -/
def wantedBytes (i off n : ℕ) : Finset Slot :=
  (Finset.Ico (off / BSIZE) ((off + n + BSIZE - 1) / BSIZE)).biUnion (wanted i)

theorem wanted_subset {off n k : ℕ} (h₁ : off ≤ k) (h₂ : k < off + n) :
    wanted i (k / BSIZE) ⊆ wantedBytes i off n := by
  refine Finset.subset_biUnion_of_mem (wanted i) (Finset.mem_Ico.mpr ⟨?_, ?_⟩)
  · exact Nat.div_le_div_right h₁
  · have hB : BSIZE = 512 := rfl
    rw [hB]
    omega

/-- After `tot` of the `n` bytes of `src` were stored from `off`. -/
structure Wrote (L : Layout) (i off n : ℕ) (src : ℕ → UInt8) (v : View) (tot : ℕ) (w : View) :
    Prop where
  ext : Extends L i v w
  byte : ∀ k, w.byte i k = if off ≤ k ∧ k < off + tot then src (k - off) else v.byte i k
  filled : ∀ k, off ≤ k → k < off + tot → w.slot (fileSlot i (k / BSIZE)) ≠ 0
  fits : ∀ W, wantedBytes i off n ⊆ W → Fits L W v → Fits L W w

variable {off n : ℕ}

theorem Wrote.zero (hwf : WellFormed L v) : Wrote L i off n src v 0 v :=
  ⟨.refl hwf, fun k => by rw [if_neg (by omega)], fun k h₁ h₂ => absurd h₂ (by omega),
    fun _ _ h => h⟩

theorem piece_bounds (off : ℕ) {n tot : ℕ} (h : tot < n) :
    0 < min (n - tot) (BSIZE - off % BSIZE) ∧ tot + min (n - tot) (BSIZE - off % BSIZE) ≤ n ∧
      off % BSIZE + min (n - tot) (BSIZE - off % BSIZE) ≤ BSIZE := by
  have hlt : off % BSIZE < BSIZE := Nat.mod_lt _ (by decide)
  omega

theorem Wrote.step {off n tot c : ℕ} {u : View} (h : Wrote L i off n src v tot w) (htot : tot < n)
    (hmap : Maps L i w (fileSlot i ((off + tot) / BSIZE)) (wanted i ((off + tot) / BSIZE)) c u) :
    Wrote L i off n src v (tot + min (n - tot) (BSIZE - (off + tot) % BSIZE))
      (u.write c (blit (u.data c) ((off + tot) % BSIZE)
        (min (n - tot) (BSIZE - (off + tot) % BSIZE)) fun j => src (tot + j))) := by
  obtain ⟨-, hle, hin⟩ := piece_bounds (off + tot) htot
  have hc := hmap.slot_eq
  subst hc
  have hwf := hmap.ext.wf
  refine ⟨h.ext.trans (hmap.ext.trans (.write hwf (isData_fileSlot i _) hmap.ne_zero
    (owner_fileSlot i _) _)), fun k => ?_, fun k h₁ h₂ => ?_, fun W hW hfits => ?_⟩
  · rw [byte_write_blit hwf hmap.ne_zero hin, hmap.same.byte_eq, h.byte]
    by_cases h₁ : off + tot ≤ k ∧ k < off + tot + min (n - tot) (BSIZE - (off + tot) % BSIZE)
    · rw [if_pos h₁, if_pos ⟨by omega, by omega⟩]
      congr 1
      omega
    · rw [if_neg h₁]
      exact if_congr (by omega) rfl rfl
  · rw [slot_write hwf (isData_fileSlot i _)]
    by_cases hold : k < off + tot
    · have hne := h.filled k h₁ hold
      rw [hmap.ext.slot _ hne]
      exact hne
    have hblk : k / BSIZE = (off + tot) / BSIZE := by
      have hB : BSIZE = 512 := rfl
      rw [hB] at hin h₂ ⊢
      omega
    rw [hblk]
    exact hmap.ne_zero
  · have hsub : wanted i ((off + tot) / BSIZE) ⊆ W :=
      (wanted_subset (by omega) (by omega)).trans hW
    have hu := hmap.fits W hsub (h.fits W hW hfits)
    unfold Fits View.missing at hu ⊢
    rw [slot_write hwf (isData_fileSlot i _)]
    exact hu

theorem via_writeLoop (hi : i < L.ninodes)
    (hlive : (v.inode i).type ≠ 0) (hmax : off + n ≤ MAXFILE * BSIZE) :
    ∀ fuel tot w, tot ≤ n → n - tot ≤ fuel → Wrote L i off n src v tot w →
      Via (Views L) (writeLoop L i n src fuel tot (off + tot))
        (fun off' u => off' = off + n ∧ Wrote L i off n src v n u)
        (RunsOut L v (wantedBytes i off n)) w := by
  intro fuel
  induction fuel with
  | zero =>
    intro tot w hle hfuel hw
    obtain rfl : tot = n := by omega
    exact Via.pure ⟨rfl, hw⟩
  | succ fuel ih =>
  intro tot w hle hfuel hw
  rw [writeLoop]
  refine Via.ite (fun htot => ?_) fun htot => ?_
  · obtain ⟨hpos, hle', -⟩ := piece_bounds (off + tot) htot
    have hbn : (off + tot) / BSIZE < MAXFILE :=
      Nat.div_lt_of_lt_mul (by rw [Nat.mul_comm]; omega)
    have hlive' : (w.inode i).type ≠ 0 := by
      rw [hw.ext.type_eq]
      exact hlive
    refine Via.bind ((via_bmap hi hw.ext.wf hlive' hbn).mono (fun _ _ h => h) ?_) ?_
    · rintro e ⟨rfl, hout⟩
      refine ⟨rfl, fun W hW hfits => hout W ?_ (hw.fits W hW hfits)⟩
      exact (wanted_subset (by omega) (by omega)).trans hW
    intro c u hmap
    have hdata : L.datastart ≤ c := by
      have hne := hmap.ne_zero
      rw [← hmap.slot_eq] at hne ⊢
      exact (hmap.ext.wf.bounds hne).1
    refine Via.bind_eq (via_bread hdata ⟨rfl, rfl⟩) ?_
    refine Via.bind (via_logWrite (R := fun _ => Wrote L i off n src v _) hdata
      (hw.step htot hmap)) fun _ x hx => ?_
    rw [Nat.add_assoc]
    exact ih _ x hle' (by omega) hx
  · obtain rfl : tot = n := by omega
    exact Via.pure ⟨rfl, hw⟩

/-! ### `writei` -/

/-- The requests that `writei` refuses: they start past the end, wrap around, or end past the
largest file. -/
def WriteRefused (size off n : ℕ) : Prop :=
  size < off ∨ 2 ^ 32 ≤ off + n ∨ MAXFILE * BSIZE < off + n

theorem writeRefused_iff {size off n : ℕ} (hoff : off < 2 ^ 32) (hn : n < 2 ^ 32) :
    WriteRefused size off n ↔ (off > size ∨ (off + n) % 2 ^ 32 < off) ∨
      (off + n) % 2 ^ 32 > MAXFILE * BSIZE := by
  unfold WriteRefused
  have hM : MAXFILE * BSIZE = 71680 := rfl
  rw [hM]
  omega

/-- What a successful `writei` does to the view. -/
structure Written (L : Layout) (i off n : ℕ) (src : ℕ → UInt8) (v w : View) : Prop where
  wf : WellFormed L w
  inode_ne : ∀ j, j ≠ i → w.inode j = v.inode j
  inode_self : w.inode i =
    { v.inode i with size := (w.inode i).size, addrs := (w.inode i).addrs }
  size_eq : (w.inode i).size.toNat = max (v.inode i).size.toNat (off + n)
  byte_self : ∀ k, w.byte i k = if off ≤ k ∧ k < off + n then src (k - off) else v.byte i k
  byte_ne : ∀ j, j ≠ i → ∀ k, w.byte j k = v.byte j k
  slot : ∀ a, v.slot a ≠ 0 → w.slot a = v.slot a
  filled : ∀ k, off ≤ k → k < off + n → w.slot (fileSlot i (k / BSIZE)) ≠ 0

theorem byte_setSize (n : UInt32) (j k : ℕ) : (v.setSize i n).byte j k = v.byte j k := by
  unfold View.byte
  rw [block_setSize]

theorem Wrote.setSize (hw : Wrote L i off n src v n w)
    (hle : (v.inode i).size.toNat ≤ off + n) (hmax : off + n ≤ MAXFILE * BSIZE) :
    Written L i off n src v (w.setSize i (UInt32.ofNat (off + n))) := by
  have hM : MAXFILE * BSIZE = 71680 := rfl
  have hself : (w.setSize i (UInt32.ofNat (off + n))).inode i =
      { w.inode i with size := UInt32.ofNat (off + n) } := Function.update_self ..
  refine ⟨hw.ext.wf.setSize i _, fun j hj => ?_, ?_, ?_, fun k => ?_, fun j hj k => ?_,
    fun a ha => ?_, fun k h₁ h₂ => ?_⟩
  · rw [← hw.ext.inode_ne j hj]
    exact Function.update_of_ne hj ..
  · rw [hself, hw.ext.inode_self]
  · have hU : UInt32.size = 4294967296 := rfl
    rw [hself, UInt32.toNat_ofNat_of_lt' (by omega)]
    omega
  · rw [byte_setSize]
    exact hw.byte k
  · rw [byte_setSize]
    exact hw.ext.byte_eq_of_ne hj k
  · rw [slot_setSize]
    exact hw.ext.slot a ha
  · rw [slot_setSize]
    exact hw.filled k h₁ h₂

theorem Fits.of_eq {W : Finset Slot} (h : Fits L W v) (hslot : w.slot = v.slot)
    (hbit : w.bit = v.bit) : Fits L W w := by
  unfold Fits View.missing View.free at h ⊢
  rwa [hslot, hbit]

theorem via_growSize {E : Panic → Prop} (hi : i < L.ninodes)
    (hw : Wrote L i off n src v n w) (hoff : off ≤ (v.inode i).size.toNat)
    (hmax : off + n ≤ MAXFILE * BSIZE) :
    Via (Views L) (growSize L i n (off + n))
      (fun _ u => Written L i off n src v u ∧ ∀ W, Fits L W w → Fits L W u) E w := by
  have hsize := hw.ext.size_eq
  refine Via.bind_eq (via_inode hi ⟨rfl, rfl⟩) ?_
  refine Via.ite (fun hgrow => ?_) fun hkeep => Via.pure ⟨?_, fun _ h => h⟩
  · refine Via.seq (u := w.setSize i (UInt32.ofNat (off + n))) (via_setInode hi rfl) ?_
    rw [hsize] at hgrow
    exact via_iupdate hi ⟨hw.setSize (le_of_lt hgrow.2) hmax,
      fun _ h => h.of_eq (slot_setSize ..) rfl⟩
  refine ⟨hw.ext.wf, hw.ext.inode_ne, ?_, ?_, hw.byte, fun j hj => hw.ext.byte_eq_of_ne hj,
    hw.ext.slot, hw.filled⟩
  · rw [hw.ext.inode_self]
  · rw [hsize] at hkeep ⊢
    omega

theorem via_writei (devsw : Devsw) (src : ℕ → UInt8) (hi : i < L.ninodes)
    (hwf : WellFormed L v) (hlive : (v.inode i).type ≠ 0) (hdev : (v.inode i).type ≠ T_DEV)
    (hoff : off < 2 ^ 32) (hn : n < 2 ^ 32) (h : ¬ WriteRefused (v.inode i).size.toNat off n) :
    Via (Views L) (writei L devsw i src off n)
      (fun r w => r = n ∧ Written L i off n src v w ∧
        ∀ W, wantedBytes i off n ⊆ W → Fits L W v → Fits L W w)
      (RunsOut L v (wantedBytes i off n)) v := by
  have hle : off ≤ (v.inode i).size.toNat := not_lt.mp fun hc => h (.inl hc)
  have hmax : off + n ≤ MAXFILE * BSIZE := not_lt.mp fun hc => h (.inr (.inr hc))
  obtain ⟨h₁, h₂⟩ := not_or.mp (h ∘ (writeRefused_iff hoff hn).mpr)
  refine Via.bind_eq (via_inode hi ⟨rfl, rfl⟩) ?_
  rw [if_neg hdev, if_neg h₁, if_neg h₂]
  refine Via.bind (via_writeLoop hi hlive hmax n 0 v (Nat.zero_le n) (Nat.sub_le n 0)
    (.zero hwf)) ?_
  rintro _ w ⟨rfl, hw⟩
  refine Via.bind (via_growSize hi hw hle hmax) fun _ u hu => ?_
  exact Via.pure ⟨rfl, hu.1, fun W hW h => hu.2 W (hw.fits W hW h)⟩

/-! ### `readi`

Where no block is missing, reading does not change the state at all. -/

variable {s : State}

theorem bread_run (s : State) (b : ℕ) : bread b s = .ok (s.disk b, s) := rfl

theorem inode_run (s : State) (i : ℕ) : inode L i s = .ok (s.inode L i, s) := rfl

theorem bmapAddr_of_ne_zero {k : ℕ} (hi : i < L.ninodes) (h : (s.view L).slot (.addr i k) ≠ 0) :
    bmapAddr L i k s = .ok ((s.view L).slot (.addr i k), s) := by
  have hinode := view_inode (s := s) hi
  rw [View.slot_addr, hinode] at h ⊢
  by_cases htype : (s.inode L i).type = 0
  · rw [if_pos htype] at h
    exact absurd rfl h
  · rw [if_neg htype] at h ⊢
    rw [bmapAddr, bind_of_ok (inode_run s i), if_neg h]
    rfl

theorem bmap_of_ne_zero {bn : ℕ} (hi : i < L.ninodes) (hwf : WellFormed L (s.view L))
    (h : (s.view L).slot (fileSlot i bn) ≠ 0) :
    bmap L i bn s = .ok ((s.view L).slot (fileSlot i bn), s) := by
  unfold bmap fileSlot
  by_cases hdirect : bn < NDIRECT
  · simp only [fileSlot, hdirect, if_true] at h ⊢
    exact bmapAddr_of_ne_zero hi h
  simp only [fileSlot, hdirect, if_false] at h ⊢
  have hslot := View.slot_entry (s.view L) i (bn - NDIRECT)
  by_cases hc : (s.view L).indirect i = 0 ∨ NINDIRECT ≤ bn - NDIRECT
  · rw [if_pos hc] at hslot
    exact absurd hslot h
  rw [if_neg hc] at hslot
  obtain ⟨hind, hj⟩ := not_or.mp hc
  have hdata : L.datastart ≤ (s.view L).indirect i :=
    (hwf.bounds (a := .addr i NDIRECT) hind).1
  have hblk : (s.view L).data ((s.view L).indirect i) = s.disk ((s.view L).indirect i) :=
    if_pos hdata
  rw [hblk] at hslot
  rw [if_pos (by omega), bind_of_ok (bmapAddr_of_ne_zero hi hind)]
  change bmapEntry L ((s.view L).indirect i) (bn - NDIRECT) s = _
  rw [hslot] at h ⊢
  rw [bmapEntry, bind_of_ok (bread_run s _), if_neg h]
  rfl

theorem readLoop_of_ne_zero (hi : i < L.ninodes) (hwf : WellFormed L (s.view L))
    (h : ∀ k, off ≤ k → k < off + n → (s.view L).slot (fileSlot i (k / BSIZE)) ≠ 0) :
    ∀ fuel tot, tot ≤ n → n - tot ≤ fuel → readLoop L i n fuel tot (off + tot) s =
      .ok ((range (n - tot)).map (fun k => (s.view L).byte i (off + tot + k)), s) := by
  intro fuel
  induction fuel with
  | zero =>
    intro tot hle hfuel
    obtain rfl : tot = n := by omega
    rw [Nat.sub_self]
    rfl
  | succ fuel ih =>
  intro tot hle hfuel
  rw [readLoop]
  by_cases htot : tot < n
  · obtain ⟨hpos, hle', hin⟩ := piece_bounds (off + tot) htot
    set m := min (n - tot) (BSIZE - (off + tot) % BSIZE) with hm
    have hne := h (off + tot) (by omega) (by omega)
    have hblk : (s.view L).data ((s.view L).slot (fileSlot i ((off + tot) / BSIZE))) =
        s.disk ((s.view L).slot (fileSlot i ((off + tot) / BSIZE))) :=
      if_pos (hwf.bounds hne).1
    have hrest := ih (tot + m) hle' (by omega)
    rw [← Nat.add_assoc] at hrest
    rw [if_pos htot, bind_of_ok (bmap_of_ne_zero hi hwf hne), bind_of_ok (bread_run s _),
      bind_of_ok hrest]
    have hsplit : n - tot = m + (n - (tot + m)) := by omega
    rw [hsplit, range_add, map_append, map_map, ← hblk]
    refine congrArg (fun l => Except.ok (l, s)) (congrArg₂ _ ?_ ?_)
    · refine map_congr_left fun k hk => ?_
      have hk' := mem_range.mp hk
      have hB : BSIZE = 512 := rfl
      have hdiv : (off + tot + k) / BSIZE = (off + tot) / BSIZE := by
        rw [hB] at hin ⊢
        omega
      have hmod : (off + tot + k) % BSIZE = (off + tot) % BSIZE + k := by
        rw [hB] at hin ⊢
        omega
      rw [View.byte, hdiv, hmod, View.block, if_neg hne]
    · refine map_congr_left fun k _ => ?_
      rw [Function.comp_apply, Nat.add_assoc (off + tot)]
  · obtain rfl : tot = n := by omega
    rw [if_neg htot, Nat.sub_self]
    rfl

/-- The requests that `readi` refuses. -/
def ReadRefused (size off n : ℕ) : Prop := size < off ∨ 2 ^ 32 ≤ off + n

theorem readRefused_iff {size off n : ℕ} (hoff : off < 2 ^ 32) (hn : n < 2 ^ 32) :
    ReadRefused size off n ↔ off > size ∨ (off + n) % 2 ^ 32 < off := by
  unfold ReadRefused
  omega

/-- Every block index below the size of a file or directory has a block. -/
def NoHoles (v : View) : Prop :=
  ∀ i, (v.inode i).type = T_FILE ∨ (v.inode i).type = T_DIR →
    ∀ bn, bn * BSIZE < (v.inode i).size.toNat → v.slot (fileSlot i bn) ≠ 0

theorem NoHoles.slot_ne_zero (h : NoHoles v)
    (htype : (v.inode i).type = T_FILE ∨ (v.inode i).type = T_DIR) {k : ℕ}
    (hk : k < (v.inode i).size.toNat) : v.slot (fileSlot i (k / BSIZE)) ≠ 0 :=
  h i htype _ ((Nat.div_mul_le_self k BSIZE).trans_lt hk)

theorem NoHoles.written (h : NoHoles v)
    (hw : Written L i off n src v w) (hoff : off ≤ (v.inode i).size.toNat) : NoHoles w := by
  intro j htype bn hbn
  rcases eq_or_ne j i with rfl | hj
  · rw [hw.inode_self] at htype
    rw [hw.size_eq] at hbn
    by_cases hold : bn * BSIZE < (v.inode j).size.toNat
    · have hne := h j htype bn hold
      rw [hw.slot _ hne]
      exact hne
    · have hfilled := hw.filled (bn * BSIZE) (by omega) (by omega)
      rwa [Nat.mul_div_cancel _ (by decide)] at hfilled
  · rw [hw.inode_ne j hj] at htype hbn
    have hne := h j htype bn hbn
    rw [hw.slot _ hne]
    exact hne

variable {devsw : Devsw}

theorem readi_range (hi : i < L.ninodes) (hwf : WellFormed L (s.view L))
    (hslots : ∀ k, off ≤ k → k < off + n → k < (s.inode L i).size.toNat →
      (s.view L).slot (fileSlot i (k / BSIZE)) ≠ 0)
    (hdev : (s.inode L i).type ≠ T_DEV) (hoff : off < 2 ^ 32) (hn : n < 2 ^ 32)
    (h : ¬ ReadRefused (s.inode L i).size.toNat off n) : readi L devsw i off n s =
      .ok (((slice ((s.view L).contents i) off n).length,
        slice ((s.view L).contents i) off n), s) := by
  have hinode := view_inode (s := s) hi
  have hle := not_or.mp h
  set size := (s.inode L i).size.toNat with hsize
  have hwrap : (off + n) % 2 ^ 32 = off + n := by omega
  -- the clamped count
  have hcount : (if (off + n) % 2 ^ 32 > size then size - off else n) = min n (size - off) := by
    rw [hwrap]
    split <;> omega
  have hloop : readLoop L i (min n (size - off)) (min n (size - off)) 0 (off + 0) s =
      .ok ((range (min n (size - off) - 0)).map (fun k => (s.view L).byte i (off + 0 + k)), s) := by
    refine readLoop_of_ne_zero hi hwf (fun k h₁ h₂ => ?_) _ 0 (Nat.zero_le _) (Nat.sub_le _ 0)
    exact hslots k h₁ (by omega) (by omega)
  have hslice : slice ((s.view L).contents i) off n =
      (range (min n (size - off))).map fun k => (s.view L).byte i (off + k) := by
    rw [View.contents, slice_map_range, hinode]
  rw [readi, bind_of_ok (inode_run s i), if_neg hdev, if_neg (h ∘ (readRefused_iff hoff hn).mpr)]
  simp only [← hsize, hcount]
  rw [Nat.add_zero, Nat.sub_zero] at hloop
  rw [bind_of_ok hloop, hslice]
  simp only [length_map, length_range]
  rfl

theorem readi_run (hi : i < L.ninodes) (hwf : WellFormed L (s.view L)) (hholes : NoHoles (s.view L))
    (htype : (s.inode L i).type = T_FILE ∨ (s.inode L i).type = T_DIR)
    (hoff : off < 2 ^ 32) (hn : n < 2 ^ 32) (h : ¬ ReadRefused (s.inode L i).size.toNat off n) :
    readi L devsw i off n s = .ok (((slice ((s.view L).contents i) off n).length,
        slice ((s.view L).contents i) off n), s) := by
  have hinode := view_inode (s := s) hi
  refine readi_range hi hwf (fun k _ _ hk => ?_) ?_ hoff hn h
  · exact hholes.slot_ne_zero (hinode ▸ htype) (by rw [hinode]; exact hk)
  · rcases htype with ht | ht <;> rw [ht] <;> decide

/-! ### The flat array -/

theorem writei_refused (hdev : (s.inode L i).type ≠ T_DEV) (hoff : off < 2 ^ 32) (hn : n < 2 ^ 32)
    (h : WriteRefused (s.inode L i).size.toNat off n) :
    writei L devsw i src off n s = .ok (-1, s) := by
  rw [writei, bind_of_ok (inode_run s i), if_neg hdev]
  by_cases h₁ : off > (s.inode L i).size.toNat ∨ (off + n) % 2 ^ 32 < off
  · rw [if_pos h₁]
    rfl
  · rw [if_neg h₁, if_pos (((writeRefused_iff hoff hn).mp h).resolve_left h₁)]
    rfl

theorem via_writei_refused (devsw : Devsw) (src : ℕ → UInt8) {E : Panic → Prop}
    (hi : i < L.ninodes) (hdev : (v.inode i).type ≠ T_DEV) (hoff : off < 2 ^ 32) (hn : n < 2 ^ 32)
    (h : WriteRefused (v.inode i).size.toNat off n) :
    Via (Views L) (writei L devsw i src off n) (fun r w => r = -1 ∧ w = v) E v := by
  rintro s rfl
  rw [view_inode hi] at hdev h
  rw [wp, writei_refused hdev hoff hn h]
  exact ⟨_, rfl, rfl, rfl⟩

theorem readi_refused (hdev : (s.inode L i).type ≠ T_DEV)
    (hoff : off < 2 ^ 32) (hn : n < 2 ^ 32) (h : ReadRefused (s.inode L i).size.toNat off n) :
    readi L devsw i off n s = .ok ((-1, []), s) := by
  rw [readi, bind_of_ok (inode_run s i), if_neg hdev, if_pos ((readRefused_iff hoff hn).mp h)]
  rfl

theorem Written.contents_eq (hw : Written L i off n src v w) (hoff : off ≤ (v.inode i).size.toNat) :
    w.contents i = splice (v.contents i) off ((range n).map src) :=
  splice_map_range hoff hw.size_eq hw.byte_self

theorem Written.contents_eq_of_ne (hw : Written L i off n src v w)
    {j : ℕ} (hj : j ≠ i) : w.contents j = v.contents j := by
  unfold View.contents
  rw [hw.inode_ne j hj]
  exact map_congr_left fun k _ => hw.byte_ne j hj k

/-- **File contents refine a flat array of bytes.** On a well-formed file system without holes, for
a file or directory `i` and every 32-bit `off` and `n`:

* `writei` returns `-1` and changes nothing exactly on the refused requests;
* given enough free blocks, it otherwise returns `n` and overwrites the range with the source,
  extending the file if need be, changes no other inode, and leaves a well-formed file system
  without holes;
* `readi` returns `-1` exactly on its refused requests, and otherwise delivers the range, cut off
  at the end of the file, and changes nothing. -/
theorem contents_refine_flat (devsw : Devsw) {off n : ℕ} (hi : i < L.ninodes)
    (hwf : WellFormed L (s.view L)) (hholes : NoHoles (s.view L))
    (htype : (s.inode L i).type = T_FILE ∨ (s.inode L i).type = T_DIR)
    (hoff : off < 2 ^ 32) (hn : n < 2 ^ 32) :
    (∀ src : ℕ → UInt8, writei L devsw i src off n s = .ok (-1, s) ↔
      WriteRefused (s.inode L i).size.toNat off n) ∧
    (∀ src : ℕ → UInt8, Fits L (wantedBytes i off n) (s.view L) →
      ¬ WriteRefused (s.inode L i).size.toNat off n →
        ∃ s', writei L devsw i src off n s = .ok (n, s') ∧ (s'.view L).contents i =
            splice ((s.view L).contents i) off ((range n).map src) ∧
          (∀ j, j ≠ i → (s'.view L).contents j = (s.view L).contents j ∧
            ((s'.view L).inode j).size = ((s.view L).inode j).size) ∧
          WellFormed L (s'.view L) ∧ NoHoles (s'.view L)) ∧
    (readi L devsw i off n s = .ok ((-1, []), s) ↔ ReadRefused (s.inode L i).size.toNat off n) ∧
    (¬ ReadRefused (s.inode L i).size.toNat off n → readi L devsw i off n s =
        .ok (((slice ((s.view L).contents i) off n).length,
          slice ((s.view L).contents i) off n), s)) := by
  have hinode := view_inode (s := s) hi
  have hdev : (s.inode L i).type ≠ T_DEV := by
    rcases htype with ht | ht <;> rw [ht] <;> decide
  have hlive : (s.inode L i).type ≠ 0 := by
    rcases htype with ht | ht <;> rw [ht] <;> decide
  refine ⟨fun src => ⟨fun heq => ?_, writei_refused hdev hoff hn⟩, fun src hfits h => ?_, ?_,
    readi_run hi hwf hholes htype hoff hn⟩
  · by_contra h
    rw [← hinode] at hlive hdev h
    obtain ⟨_, _, hr, -⟩ := (via_writei devsw src hi hwf hlive hdev hoff hn h s rfl).of_ok heq
    omega
  · rw [← hinode] at hlive hdev h
    have hvia := via_writei devsw src hi hwf hlive hdev hoff hn h
    obtain ⟨_, s', _, hrun, rfl, rfl, hw, -⟩ := (hvia.mono (fun _ _ hw => hw)
      fun e he => he.2 _ (Finset.Subset.refl _) hfits).exists_ok rfl
    have hle : off ≤ ((s.view L).inode i).size.toNat := not_lt.mp fun hc => h (.inl hc)
    refine ⟨s', hrun, hw.contents_eq hle, fun j hj => ⟨hw.contents_eq_of_ne hj, ?_⟩, hw.wf,
      hholes.written hw hle⟩
    rw [hw.inode_ne j hj]
  · refine ⟨fun heq => ?_, readi_refused hdev hoff hn⟩
    by_contra h
    rw [readi_run hi hwf hholes htype hoff hn h] at heq
    cases heq

/-! ### An empty file system -/

/-- The free map of `bareFs`: blocks 0 to 58 are in use. -/
def bareMap : Block := fun j => if (j : ℕ) < 7 then 0xff else if (j : ℕ) = 7 then 7 else 0

/-- `devsw[]` before `consoleinit`. -/
def noDevices : Devsw := ⟨fun _ => none, fun _ => none⟩

/-- An image with an empty root directory in memory and nothing else. -/
def bareFs : State where
  disk b := if b = 58 then bareMap else zeroBlock
  icache i := if i = 1 then some ⟨T_DIR, 0, 0, 1, 0, fun _ => 0⟩ else none

theorem bareMap_eq_zero {j : ℕ} (hj : 8 ≤ j) : byteAt bareMap j = 0 := by
  unfold byteAt bareMap
  split
  · rw [if_neg (by simpa using by omega), if_neg (by simpa using by omega)]
  · rfl

theorem getBit_bareMap (b : ℕ) : Bitmap.getBit bareMap b = decide (b < 59) := by
  rcases lt_or_ge b 64 with hlt | hge
  · have hsmall : ∀ b < 64, Bitmap.getBit bareMap b = decide (b < 59) := by decide +kernel
    exact hsmall b hlt
  · rw [Bitmap.getBit, bareMap_eq_zero (by omega), UInt8.zero_and, decide_eq_false (by omega)]
    rfl

theorem bit_bareFs (b : ℕ) (hb : b < 2000) : (bareFs.view stdLayout).bit b = decide (b < 59) := by
  have hsize : b < stdLayout.size := hb
  have hblock : bareFs.disk (BBLOCK b stdLayout.toSuperblock) = bareMap := by
    have hdiv : b / BPB = 0 := Nat.div_eq_of_lt (hb.trans (by decide))
    unfold BBLOCK
    rw [hdiv]
    rfl
  have hmod : b % BPB = b := Nat.mod_eq_of_lt (hb.trans (by decide))
  dsimp only [State.view]
  rw [hblock, hmod, decide_eq_true hsize, Bool.true_and, getBit_bareMap]

theorem inode_bareFs_of_ne {i : ℕ} (hi : i ≠ 1) : ((bareFs.view stdLayout).inode i).type = 0 := by
  dsimp only [State.view]
  split
  case isFalse => rfl
  case isTrue h =>
  have hlt : i < 200 := h
  have hblock : IBLOCK i stdLayout.toSuperblock ≠ 58 := by
    have hI : IBLOCK i stdLayout.toSuperblock = i / 8 + 32 := rfl
    omega
  have hdisk : bareFs.disk (IBLOCK i stdLayout.toSuperblock) = zeroBlock := if_neg hblock
  have hcache : bareFs.icache i = none := if_neg hi
  have hshort : ∀ off, getShort zeroBlock off = 0 := by
    intro off
    simp [getShort, getLE, byteAt, zeroBlock]
  rw [State.inode, hcache, Option.getD_none, State.dinode, hdisk]
  exact hshort _

theorem inode_bareFs_one : (bareFs.view stdLayout).inode 1 = ⟨T_DIR, 0, 0, 1, 0, fun _ => 0⟩ := rfl

theorem slot_bareFs (a : Slot) : (bareFs.view stdLayout).slot a = 0 := by
  have haddr : ∀ i k, (bareFs.view stdLayout).slot (.addr i k) = 0 := by
    intro i k
    rcases eq_or_ne i 1 with rfl | hi
    · rw [View.slot_addr, inode_bareFs_one]
      simp [Inode.addr]
    · exact if_pos (inode_bareFs_of_ne hi)
  cases a with
  | addr i k => exact haddr i k
  | entry i j => exact if_pos (.inl (haddr i NDIRECT))

theorem wellFormed_bareFs : WellFormed stdLayout (bareFs.view stdLayout) where
  owned := by
    refine ⟨fun a b ha => absurd (slot_bareFs a) ha, fun a ha => absurd (slot_bareFs a) ha, ?_⟩
    rintro b - ⟨hlo, hhi⟩ hbit
    rw [bit_bareFs b hhi] at hbit
    exact absurd (of_decide_eq_true hbit) (not_lt.mpr hlo)
  metadata b hb := by
    rw [bit_bareFs b (hb.trans (by decide))]
    exact decide_eq_true hb

theorem noHoles_bareFs : NoHoles (bareFs.view stdLayout) := by
  intro i htype bn hbn
  rcases eq_or_ne i 1 with rfl | hi
  · rw [inode_bareFs_one] at hbn
    exact absurd hbn (Nat.not_lt_zero _)
  · rw [inode_bareFs_of_ne hi] at htype
    exact absurd htype (by decide)

theorem fits_bareFs {W : Finset Slot} (hW : W.card ≤ 1941) :
    Fits stdLayout W (bareFs.view stdLayout) := by
  have hsub : Finset.Ico 59 2000 ⊆ (bareFs.view stdLayout).free stdLayout := by
    intro b hb
    obtain ⟨hlo, hhi⟩ := Finset.mem_Ico.mp hb
    refine Finset.mem_filter.mpr ⟨Finset.mem_range.mpr hhi, ?_⟩
    rw [bit_bareFs b hhi]
    exact decide_eq_false (not_lt.mpr hlo)
  calc ((bareFs.view stdLayout).missing W).card ≤ W.card := Finset.card_filter_le ..
    _ ≤ (Finset.Ico 59 2000).card := by rwa [Nat.card_Ico]
    _ ≤ _ := Finset.card_le_card hsub

/-- Three bytes written to the empty root directory. -/
theorem contents_refine_flat_bareFs :
    ∃ s', writei stdLayout noDevices 1 (fun k => UInt8.ofNat k) 0 3 bareFs = .ok (3, s') ∧
      (s'.view stdLayout).contents 1 = [0, 1, 2] := by
  have hcard : (wantedBytes 1 0 3).card ≤ 1941 := by decide
  obtain ⟨-, hwrite, -⟩ := contents_refine_flat (L := stdLayout) (s := bareFs) (i := 1)
    noDevices (n := 3) (by decide) wellFormed_bareFs noHoles_bareFs
    (.inr rfl) (Nat.zero_lt_succ _) (by decide)
  obtain ⟨s', hrun, hcontents, -⟩ := hwrite (fun k => UInt8.ofNat k) (fits_bareFs hcard)
    (by unfold WriteRefused; decide)
  exact ⟨s', hrun, hcontents⟩

end Xv6.Fs
