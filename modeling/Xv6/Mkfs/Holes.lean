import Xv6.Fs.Lookup
import Xv6.Mkfs.Image

/-!
# Holes

The root directory of an image is one block longer than it should be when its entries fill their
blocks: `main` rounds the size up to the next multiple of `BSIZE`, also from a multiple. Then the
last block has no address, and the kernel allocates one when it reads there.

When there is no room for the inodes, `mkfs` goes on in the block behind the inode blocks, which is
the free map. `balloc` overwrites the inode there with marks, and its size and its addresses do not
fit together.
-/

namespace Xv6.Mkfs

open LittleEndian Bitmap Hoare Xv6.Fs Xv6.Names

variable {v : View} {files : List HostFile} {img : Image} {i k b : ℕ}

/-- Every inode that `mkfs` has handed out has an address for every block below its size, and the
kernel can read it without a change to the disk. -/
structure Whole (img : Image) : Prop where
  addr : ∀ i, 0 < i → i < img.freeinode →
    ∀ bn, bn * BSIZE < ((boot img).inode stdLayout i).size.toNat →
      (boot img).blockAddr stdLayout i bn ≠ 0
  read : ∀ i, 0 < i → i < img.freeinode → ∀ devsw off n, off < 2 ^ 32 → n < 2 ^ 32 →
    ∃ r, readi stdLayout devsw i off n (boot img) = .ok (r, boot img)

/-! ### With room for the inodes -/

theorem size_root (hb : Built files v) :
    (v.inode Xv6.ROOTINO).size.toNat = 16 * (files.length + 2) := by
  rw [hb.root.length_eq, length_rootData]

theorem Finished.type_ne_zero (h : Finished files img v) (hi : 0 < i)
    (hlt : i < files.length + 2) : ((rounded v).inode i).type ≠ 0 := by
  rw [type_rounded]
  rcases eq_or_ne i Xv6.ROOTINO with rfl | hne
  · rw [h.built.root.type_eq]
    decide
  obtain ⟨j, rfl⟩ : ∃ j, i = j + 2 := ⟨i - 2, by rw [Xv6.ROOTINO] at hne; omega⟩
  have hj : j < files.length := by omega
  rw [(h.built.file j _ (List.getElem?_eq_getElem hj)).type_eq]
  decide

theorem Finished.blockAddr_eq (h : Finished files img v) (hi : i < inodeRoom)
    (hlive : ((rounded v).inode i).type ≠ 0) (bn : ℕ) :
    (boot img).blockAddr stdLayout i bn = v.slot (fileSlot i bn) := by
  have hwf : WellFormed stdLayout (rounded v) := h.built.sane.wf.setSize ..
  have hslot : (rounded v).slot = v.slot := slot_setSize ..
  rw [← hslot, State.blockAddr, h.inode_eq hi, fileSlot]
  split
  · rw [View.slot_addr, if_neg hlive]
  have hind : (rounded v).indirect i = ((rounded v).inode i).addr NDIRECT := if_neg hlive
  rw [View.slot_entry, hind]
  by_cases h0 : ((rounded v).inode i).addr NDIRECT = 0
  · rw [if_pos h0, ite_self, if_pos (Or.inl h0)]
  rw [if_neg h0]
  by_cases hj : bn - NDIRECT < NINDIRECT
  · have hge := (hwf.bounds (a := .addr i NDIRECT) (by rwa [← hind] at h0)).1
    change nmeta ≤ (rounded v).indirect i at hge
    rw [hind] at hge
    rw [if_pos hj, if_neg (not_or.mpr ⟨h0, not_le.mpr hj⟩), h.data_eq hge]
  · rw [if_neg hj, if_pos (Or.inr (not_lt.mp hj))]

theorem lt_rounded_iff {n bn : ℕ} (h : ¬ 32 ∣ n) :
    bn * BSIZE < (16 * n / BSIZE + 1) * BSIZE ↔ bn * BSIZE < 16 * n := by
  have hB : BSIZE = 512 := rfl
  rw [hB]
  omega

theorem Finished.addr (h : Finished files img v) (hroom : files.length + 2 ≤ inodeRoom)
    (hdvd : ¬ 32 ∣ files.length + 2) (hi : 0 < i) (hlt : i < files.length + 2) {bn : ℕ}
    (hbn : bn * BSIZE < ((boot img).inode stdLayout i).size.toNat) :
    (boot img).blockAddr stdLayout i bn ≠ 0 := by
  rw [h.blockAddr_eq (by omega) (h.type_ne_zero hi hlt), (h.built.sane.filled i).data]
  rw [h.inode_eq (by omega)] at hbn
  rcases eq_or_ne i Xv6.ROOTINO with rfl | hne
  · rw [size_rounded_root h.built.sane, size_root h.built, lt_rounded_iff hdvd] at hbn
    rwa [size_root h.built]
  · rwa [inode_rounded_of_ne hne] at hbn

theorem Finished.hole (h : Finished files img v) (hdvd : 32 ∣ files.length + 2) :
    (files.length + 2) / 32 * BSIZE < ((boot img).inode stdLayout Xv6.ROOTINO).size.toNat ∧
      (boot img).blockAddr stdLayout Xv6.ROOTINO ((files.length + 2) / 32) = 0 := by
  have hB : BSIZE = 512 := rfl
  have hroot := root_lt_inodeRoom
  refine ⟨?_, ?_⟩
  · rw [h.inode_eq hroot, size_rounded_root h.built.sane, size_root h.built, hB]
    omega
  rw [h.blockAddr_eq hroot (h.type_ne_zero (by decide) (by rw [Xv6.ROOTINO]; omega))]
  by_contra hne
  have hlt := ((h.built.sane.filled Xv6.ROOTINO).data _).mp hne
  rw [size_root h.built, hB] at hlt
  omega

/-! ### Without room for the inodes

Whatever happens to the inodes, the counters only grow. -/

/-- At least `b` blocks are in use, and the next inode is `k`. -/
def Counts (b : ℕ) (m : Image) (k : ℕ) : Prop := b ≤ m.freeblock ∧ m.freeinode = k

theorem counts_rsect (sec : ℕ) :
    Via (Counts b) (rsect sec) (fun _ k' => k' = k) (fun _ => True) k := by
  intro m hm
  unfold rsect
  rw [wp_ite]
  split
  · trivial
  rw [wp_bind, wp_get, wp_ite]
  split
  · trivial
  · exact ⟨k, hm, rfl⟩

theorem counts_wsect (sec : ℕ) (buf : Block) :
    Via (Counts b) (wsect sec buf) (fun _ k' => k' = k) (fun _ => True) k := by
  intro m hm
  unfold wsect
  rw [wp_ite]
  split
  · trivial
  · exact ⟨k, hm, rfl⟩

theorem counts_takeBlock : Via (Counts b) takeBlock (fun _ k' => k' = k) (fun _ => True) k :=
  fun _ hm => ⟨k, ⟨Nat.le_succ_of_le hm.1, hm.2⟩, rfl⟩

theorem counts_winode (inum : ℕ) (ip : Inode) :
    Via (Counts b) (winode inum ip) (fun _ k' => k' = k) (fun _ => True) k := by
  unfold winode
  refine Via.bind (counts_rsect _) ?_
  rintro buf _ rfl
  exact counts_wsect _ _

theorem counts_rinode (inum : ℕ) :
    Via (Counts b) (rinode inum) (fun _ k' => k' = k) (fun _ => True) k := by
  unfold rinode
  refine Via.bind (counts_rsect _) ?_
  rintro buf _ rfl
  exact Via.pure rfl

theorem counts_fillAddr (din : Inode) (l : ℕ) :
    Via (Counts b) (fillAddr din l) (fun _ k' => k' = k) (fun _ => True) k := by
  unfold fillAddr
  refine Via.ite (fun _ => ?_) fun _ => Via.pure rfl
  refine Via.bind counts_takeBlock ?_
  rintro x _ rfl
  exact Via.pure rfl

theorem counts_fillEntry (din : Inode) (j : ℕ) :
    Via (Counts b) (fillEntry din j) (fun _ k' => k' = k) (fun _ => True) k := by
  unfold fillEntry
  refine Via.bind (counts_rsect _) ?_
  rintro indirect _ rfl
  refine Via.ite (fun _ => ?_) fun _ => Via.pure rfl
  refine Via.bind counts_takeBlock ?_
  rintro x _ rfl
  refine Via.bind (counts_wsect _ _) ?_
  rintro _ _ rfl
  exact Via.pure rfl

theorem counts_blockFor (din : Inode) (fbn : ℕ) :
    Via (Counts b) (blockFor din fbn) (fun _ k' => k' = k) (fun _ => True) k := by
  unfold blockFor
  refine Via.ite (fun _ => ?_) fun _ => ?_
  · refine Via.bind (counts_fillAddr _ _) ?_
    rintro din' _ rfl
    exact Via.pure rfl
  refine Via.bind (counts_fillAddr _ _) ?_
  rintro din' _ rfl
  refine Via.bind (counts_fillEntry _ _) ?_
  rintro x _ rfl
  exact Via.pure rfl

theorem counts_appendLoop (fuel : ℕ) : ∀ (k : ℕ) (din : Inode) (off : ℕ) (p : List UInt8),
    Via (Counts b) (appendLoop fuel din off p) (fun _ k' => k' = k) (fun _ => True) k := by
  induction fuel with
  | zero => exact fun _ _ _ _ => Via.pure rfl
  | succ fuel ih =>
  intro k din off p
  unfold appendLoop
  refine Via.ite (fun _ => ?_) fun _ => Via.pure rfl
  refine Via.ite (fun _ => ?_) fun _ => Via.throw trivial
  refine Via.bind (counts_blockFor _ _) ?_
  rintro ⟨din', x⟩ _ rfl
  refine Via.bind (counts_rsect _) ?_
  rintro buf _ rfl
  refine Via.bind (counts_wsect _ _) ?_
  rintro _ _ rfl
  exact ih _ _ _ _

theorem counts_iappend (inum : ℕ) (p : List UInt8) :
    Via (Counts b) (iappend inum p) (fun _ k' => k' = k) (fun _ => True) k := by
  unfold iappend
  refine Via.bind (counts_rinode _) ?_
  rintro din _ rfl
  refine Via.bind (counts_appendLoop _ _ _ _ _) ?_
  rintro ⟨din', off⟩ _ rfl
  exact counts_winode _ _

theorem counts_ialloc (type : Int16) :
    Via (Counts b) (ialloc type) (fun _ k' => k' = k + 1) (fun _ => True) k := by
  rintro m ⟨hb, rfl⟩
  unfold ialloc
  have hnext : Counts b { m with freeinode := m.freeinode + 1 } (m.freeinode + 1) := ⟨hb, rfl⟩
  rw [wp_bind, wp_get, wp_bind, wp_set, wp_bind]
  refine (counts_winode _ _ _ hnext).imp ?_
  rintro _ m' ⟨_, hm', rfl⟩
  exact ⟨_, hm', rfl⟩

theorem counts_addFile (rootino : ℕ) (f : HostFile) :
    Via (Counts b) (addFile rootino f) (fun _ k' => k' = k + 1) (fun _ => True) k := by
  unfold addFile
  refine Via.ite (fun _ => Via.throw trivial) fun _ => ?_
  refine Via.bind (counts_ialloc _) ?_
  rintro inum _ rfl
  refine Via.bind (counts_iappend _ _) ?_
  rintro _ _ rfl
  refine Via.forEach (I := fun _ k' => k' = k + 1) ?_ rfl
  rintro p _ _ rfl
  exact counts_iappend _ _

theorem counts_files (rootino : ℕ) : ∀ (files : List HostFile) (k : ℕ),
    Via (Counts b) (forEach (addFile rootino) files) (fun _ k' => k' = k + files.length)
      (fun _ => True) k
  | [], _ => Via.pure rfl
  | f :: files, k => by
    rw [forEach]
    refine Via.bind (counts_addFile rootino f) ?_
    rintro _ _ rfl
    refine (counts_files rootino files (k + 1)).mono ?_ fun _ h => h
    rintro _ _ rfl
    rw [List.length_cons]
    omega

theorem counts_fixSize (rootino : ℕ) :
    Via (Counts b) (fixSize rootino) (fun _ k' => k' = k) (fun _ => True) k := by
  unfold fixSize
  refine Via.bind (counts_rinode _) ?_
  rintro din _ rfl
  exact counts_winode _ _

/-- What `mkfs` does to the free map when it has run out of inode blocks. -/
structure Overrun (files : List HostFile) (img : Image) : Prop where
  next : img.freeinode = files.length + 2
  ge : 66 ≤ img.freeblock
  lt : img.freeblock < BSIZE * 8
  map : img.sect sb.bmapstart = freeMap img.freeblock

theorem build_overrun {m₀ : Image} (hshown : Shown m₀ ⟨blank, 1, nmeta⟩)
    (hroom : inodeRoom ≤ files.length + 2) (h : build files m₀ = .ok ((), img)) :
    Overrun files img := by
  suffices hspec : wp (build files) (fun _ img => Overrun files img) (fun _ => True) m₀ from
    hspec.of_ok h
  have hr : inodeRoom = 208 := rfl
  -- for the first files there is room
  have hlen : (files.take 206).length = 206 := by
    rw [List.length_take]
    omega
  have hused : 66 ≤ usedBy (files.take 206) := by
    have hcost : cost (16 * (206 + 2)) = 7 := by decide
    have hmeta : nmeta = 59 := rfl
    rw [usedBy, hlen, hcost, hmeta]
    omega
  unfold build
  rw [wp_bind]
  refine (via_ialloc (by decide) _ hshown).imp ?_
  rintro _ m ⟨_, hm, rfl, rfl⟩
  rw [wp_ite, if_neg (by decide), ← bind_assoc, wp_bind]
  refine (via_makeRoot m hm).mono ?_ fun _ _ => trivial
  rintro _ m₁ ⟨d₁, hm₁, hd₁⟩
  rw [← List.take_append_drop 206 files, forEach_append, bind_assoc, wp_bind]
  refine (via_files (le_of_eq (by rw [hlen]; rfl)) hd₁ m₁ hm₁).mono ?_ fun _ _ => trivial
  rintro _ m₂ ⟨d₂, ⟨hrep, hfree⟩, -, hnext, hused₂⟩
  rw [hlen] at hnext
  have hcounts : Counts 66 m₂ 208 := ⟨by omega, hrep.freeinode.trans hnext⟩
  rw [wp_bind]
  refine (counts_files _ _ _ m₂ hcounts).imp ?_
  rintro _ m₃ ⟨_, hm₃, rfl⟩
  rw [wp_bind]
  refine (counts_fixSize _ m₃ hm₃).imp ?_
  rintro _ m₄ ⟨_, ⟨hge, hinode⟩, rfl⟩
  rw [wp_bind, wp_get, balloc, wp_ite]
  split
  · next hlt =>
    unfold wsect
    rw [wp_ite, if_neg (by decide), wp_modify]
    refine ⟨?_, hge, hlt, Function.update_self sb.bmapstart _ m₄.sect⟩
    rw [List.length_drop] at hinode
    change m₄.freeinode = _
    rw [hinode, List.length_append, hlen, List.length_drop]
    omega
  · trivial

theorem byteAt_freeMap_full {used j : ℕ} (h : used ≤ BPB) (hj : 8 * (j + 1) ≤ used) :
    (byteAt (freeMap used) j).toNat = 255 := by
  refine Nat.eq_of_testBit_eq fun l => ?_
  by_cases hl : l < 8
  · have hbit := getBit_freeMap (8 * j + l) h
    rw [getBit_eq, show (8 * j + l) / 8 = j by omega, show (8 * j + l) % 8 = l by omega,
      decide_eq_true (by omega)] at hbit
    rw [hbit]
    exact (Nat.testBit_two_pow_sub_one 8 l).trans (decide_eq_true hl) |>.symm
  · rw [Nat.testBit_lt_two_pow, Nat.testBit_lt_two_pow]
    · exact lt_of_lt_of_le (by decide) (Nat.pow_le_pow_right (by decide) (not_lt.mp hl))
    · exact lt_of_lt_of_le (UInt8.toNat_lt _) (Nat.pow_le_pow_right (by decide) (not_lt.mp hl))

theorem byteAt_freeMap_empty {used j : ℕ} (h : used ≤ BPB) (hj : used ≤ 8 * j) :
    (byteAt (freeMap used) j).toNat = 0 := by
  refine Nat.zero_of_testBit_eq_false fun l => ?_
  by_cases hl : l < 8
  · have hbit := getBit_freeMap (8 * j + l) h
    rwa [getBit_eq, show (8 * j + l) / 8 = j by omega, show (8 * j + l) % 8 = l by omega,
      decide_eq_false (by omega)] at hbit
  · exact Nat.testBit_lt_two_pow
      (lt_of_lt_of_le (UInt8.toNat_lt _) (Nat.pow_le_pow_right (by decide) (not_lt.mp hl)))

theorem Overrun.hole (h : Overrun files img) :
    ∃ bn, bn * BSIZE < ((boot img).inode stdLayout inodeRoom).size.toNat ∧
      (boot img).blockAddr stdLayout inodeRoom bn = 0 := by
  have hle : img.freeblock ≤ BPB := le_of_lt h.lt
  have hin : (boot img).inode stdLayout inodeRoom = getDinode (freeMap img.freeblock) 0 := by
    rw [← h.map]
    rfl
  have hsize : ((boot img).inode stdLayout inodeRoom).size.toNat =
      getLE (freeMap img.freeblock) 8 4 := by
    rw [hin]
    exact UInt32.toNat_ofNat_of_lt' (getLE_lt _ 4 8)
  by_cases hfull : 96 ≤ img.freeblock
  · -- the largest size there is, and more than a file can have
    refine ⟨MAXFILE, ?_, rfl⟩
    have hbytes : getLE (freeMap img.freeblock) 8 4 = 2 ^ 32 - 1 := by
      simp only [getLE]
      rw [byteAt_freeMap_full hle (by omega), byteAt_freeMap_full hle (by omega),
        byteAt_freeMap_full hle (by omega), byteAt_freeMap_full hle (by omega)]
      rfl
    rw [hsize, hbytes]
    decide
  -- some size, but no address
  refine ⟨0, ?_, ?_⟩
  · have hge := h.ge
    have hbit := getBit_freeMap 64 hle
    rw [getBit_eq, decide_eq_true (by omega)] at hbit
    have hne : (byteAt (freeMap img.freeblock) 8).toNat ≠ 0 := by
      intro hzero
      rw [show 64 / 8 = 8 from rfl, hzero] at hbit
      exact absurd hbit (by decide)
    rw [hsize, Nat.zero_mul, getLE]
    omega
  · have hbytes : getLE (freeMap img.freeblock) 12 4 = 0 := by
      simp only [getLE]
      rw [byteAt_freeMap_empty hle (by omega), byteAt_freeMap_empty hle (by omega),
        byteAt_freeMap_empty hle (by omega), byteAt_freeMap_empty hle (by omega)]
    rw [State.blockAddr, if_pos (by decide), hin]
    exact congrArg (fun n => (UInt32.ofNat n).toNat) hbytes

/-! ### The condition -/

/-- **An image has no holes** when there is room for its inodes and the entries of the root
directory do not fill their last block. -/
theorem whole_iff (h : mkfs files = .ok img) :
    Whole img ↔ files.length + 2 ≤ inodeRoom ∧ ¬ 32 ∣ files.length + 2 := by
  constructor
  · intro hw
    have hroom : files.length + 2 ≤ inodeRoom := by
      by_contra hlt
      have hover := build_overrun shown_formatted (by omega) (build_of_mkfs h)
      obtain ⟨bn, hbn, hzero⟩ := hover.hole
      exact hw.addr inodeRoom (by decide) (by rw [hover.next]; omega) bn hbn hzero
    refine ⟨hroom, fun hdvd => ?_⟩
    obtain ⟨v, hfin⟩ := mkfs_finished hroom h
    obtain ⟨hbn, hzero⟩ := hfin.hole hdvd
    refine hw.addr Xv6.ROOTINO (by decide) ?_ _ hbn hzero
    rw [hfin.rep.freeinode, Xv6.ROOTINO]
    omega
  · rintro ⟨hroom, hdvd⟩
    obtain ⟨v, hfin⟩ := mkfs_finished hroom h
    have hnext := hfin.rep.freeinode
    have haddr : ∀ i, 0 < i → i < img.freeinode →
        ∀ bn, bn * BSIZE < ((boot img).inode stdLayout i).size.toNat →
          (boot img).blockAddr stdLayout i bn ≠ 0 :=
      fun i hi hlt bn hbn => hfin.addr hroom hdvd hi (by omega) hbn
    exact ⟨haddr, fun i hi hlt _ _ _ hoff hn => readi_of_blockAddr hoff hn (haddr i hi hlt)⟩

theorem smallFile_name : ∀ c ∈ ([97] : List UInt8), c ≠ 0 := by
  simp

theorem smallFile_pieces : ∀ p ∈ ([[1, 2, 3], [4]] : List (List UInt8)), p.length ≤ BSIZE := by
  decide

/-- A file called `a` that comes in two pieces. -/
def smallFile : HostFile := ⟨[97], [[1, 2, 3], [4]], smallFile_name, smallFile_pieces⟩

theorem whole_iff_smallFile : ∃ img, mkfs [smallFile] = .ok img ∧ Whole img := by
  obtain ⟨img, h⟩ : ∃ img, mkfs [smallFile] = .ok img :=
    mkfs_completes (by decide) ⟨by decide, by decide, by decide⟩
  exact ⟨img, h, (whole_iff h).mpr ⟨by decide, by decide⟩⟩

theorem letter_ne_zero (k : Fin 30) : ∀ c ∈ [65 + UInt8.ofNat k], c ≠ 0 := by
  simp only [List.mem_singleton, forall_eq]
  revert k
  decide

theorem no_pieces : ∀ p ∈ ([] : List (List UInt8)), p.length ≤ BSIZE :=
  List.forall_mem_nil _

def thirtyFiles : List HostFile :=
  List.ofFn fun k : Fin 30 => ⟨[65 + UInt8.ofNat k], [], letter_ne_zero k, no_pieces⟩

/-- Thirty-two entries fill one block, and the second one is missing. -/
theorem thirtyFiles_hole : ∃ img, mkfs thirtyFiles = .ok img ∧
    ((boot img).inode stdLayout Xv6.ROOTINO).size.toNat = 2 * BSIZE ∧
    (boot img).blockAddr stdLayout Xv6.ROOTINO 1 = 0 := by
  obtain ⟨img, h⟩ : ∃ img, mkfs thirtyFiles = .ok img :=
    mkfs_completes (by decide) ⟨by decide, by decide, by decide⟩
  obtain ⟨v, hfin⟩ := mkfs_finished (by decide) h
  refine ⟨img, h, ?_, (hfin.hole (by decide)).2⟩
  rw [hfin.inode_eq root_lt_inodeRoom, size_rounded_root hfin.built.sane, size_root hfin.built]
  rfl

end Xv6.Mkfs
