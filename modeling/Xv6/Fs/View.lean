import Xv6.Fs.Ops

/-!
# What the disk means

The layer above the bytes: a table of inodes, a set of marked blocks, and the contents of the data
blocks. `State.view` reads them off a state, and each primitive of `Fs.Ops` is specified by what it
does to the view. Nothing above this module looks inside an inode block or a free-map block.

The inode table is the kernel's: the in-memory copy of an inode where there is one. So `iupdate`
does not change the view.
-/

namespace Xv6.Fs

open LittleEndian Bitmap Hoare Function List

def freeInode : Inode := ⟨0, 0, 0, 0, 0, fun _ => 0⟩

/-- Inodes, marks and data blocks. -/
@[ext]
structure View where
  /-- The inode table; free beyond `ninodes`. -/
  inode : ℕ → Inode
  bit : ℕ → Bool
  data : ℕ → Block

/-- Mark block `b` and zero it. -/
def View.alloc (v : View) (b : ℕ) : View :=
  { v with bit := update v.bit b true, data := update v.data b zeroBlock }

/-- Clear the mark of block `b`. -/
def View.unmark (v : View) (b : ℕ) : View := { v with bit := update v.bit b false }

/-- New contents for block `b`. -/
def View.write (v : View) (b : ℕ) (x : Block) : View :=
  { v with data := update v.data b x }

variable (L : Layout)

def State.view (s : State) : View where
  inode i := if i < L.ninodes then s.inode L i else freeInode
  bit b := decide (b < L.size) && getBit (s.disk (BBLOCK b L.toSuperblock)) (b % BPB)
  data b := if L.datastart ≤ b then s.disk b else zeroBlock

/-- What the state `s` shows is `v`. -/
def Views (s : State) (v : View) : Prop := s.view L = v

variable {L}

/-! ### The regions are disjoint -/

variable {i : ℕ}

theorem IBLOCK_lt (hi : i < L.ninodes) : IBLOCK i L.toSuperblock < L.bmapstart := by
  have h := L.inodes_le
  have hdiv : i / IPB ≤ L.ninodes / IPB := Nat.div_le_div_right (by omega)
  unfold IBLOCK
  omega

theorem bmapstart_le_BBLOCK (b : ℕ) : L.bmapstart ≤ BBLOCK b L.toSuperblock :=
  Nat.le_add_left _ _

variable {b : ℕ}

theorem BBLOCK_lt (hb : b < L.size) : BBLOCK b L.toSuperblock < L.datastart := by
  have hdiv : b / BPB ≤ L.size / BPB := Nat.div_le_div_right (by omega)
  unfold BBLOCK Layout.datastart
  omega

theorem bmapstart_le_datastart : L.bmapstart ≤ L.datastart := Nat.le_add_right _ _

theorem datastart_pos : 0 < L.datastart := Nat.succ_pos _

/-! ### Writes -/

variable {s : State}

theorem view_inode (hi : i < L.ninodes) : (s.view L).inode i = s.inode L i := if_pos hi

theorem view_update_data (hb : L.datastart ≤ b) (x : Block) :
    (s.write b x).view L = (s.view L).write b x := by
  ext1
  · funext i
    dsimp only [State.view, State.write, View.write]
    split
    case isTrue hi =>
      have hne : IBLOCK i L.toSuperblock ≠ b := by
        have h1 := IBLOCK_lt hi
        have h2 := bmapstart_le_datastart (L := L)
        omega
      simp only [State.inode, State.dinode, update_of_ne hne]
    case isFalse => rfl
  · funext c
    dsimp only [State.view, State.write, View.write]
    by_cases hc : c < L.size
    · have hne : BBLOCK c L.toSuperblock ≠ b := by
        have := BBLOCK_lt hc
        omega
      simp only [update_of_ne hne]
    · simp [hc]
  · funext c
    dsimp only [State.view, State.write, View.write]
    rcases eq_or_ne c b with rfl | hcb
    · simp [hb]
    · simp [hcb]

theorem getBit_update_BBLOCK {b c : ℕ} {x : Block} {f : Bool} (hx : ∀ i, getBit x i =
      if i = b % BPB then f else getBit (s.disk (BBLOCK b L.toSuperblock)) i) :
    getBit (update s.disk (BBLOCK b L.toSuperblock) x (BBLOCK c L.toSuperblock)) (c % BPB) =
      if c = b then f else getBit (s.disk (BBLOCK c L.toSuperblock)) (c % BPB) := by
  have hBPB : 0 < BPB := by decide
  by_cases hblk : BBLOCK c L.toSuperblock = BBLOCK b L.toSuperblock
  · have hdiv : c / BPB = b / BPB := by
      unfold BBLOCK at hblk
      omega
    have hiff : c % BPB = b % BPB ↔ c = b := by
      constructor
      · intro hmod
        rw [← Nat.div_add_mod c BPB, ← Nat.div_add_mod b BPB, hdiv, hmod]
      · rintro rfl
        rfl
    rw [hblk, update_self, hx]
    exact if_congr hiff rfl rfl
  · have hne : c ≠ b := by
      rintro rfl
      exact hblk rfl
    rw [update_of_ne hblk, if_neg hne]

theorem view_update_bit {x : Block} {f : Bool} (hb : b < L.size) (hx : ∀ i, getBit x i =
      if i = b % BPB then f else getBit (s.disk (BBLOCK b L.toSuperblock)) i) :
    (s.write (BBLOCK b L.toSuperblock) x).view L =
      { s.view L with bit := update (s.view L).bit b f } := by
  ext1
  · funext i
    dsimp only [State.view, State.write]
    split
    case isTrue hi =>
      have hne : IBLOCK i L.toSuperblock ≠ BBLOCK b L.toSuperblock := by
        have h1 := IBLOCK_lt hi
        have h2 := bmapstart_le_BBLOCK (L := L) b
        omega
      simp only [State.inode, State.dinode, update_of_ne hne]
    case isFalse => rfl
  · funext c
    dsimp only [State.view, State.write]
    rw [getBit_update_BBLOCK hx]
    rcases eq_or_ne c b with rfl | hcb
    · simp [hb]
    · simp [hcb]
  · funext c
    dsimp only [State.view, State.write]
    split
    case isTrue hc =>
      have hne : c ≠ BBLOCK b L.toSuperblock := by
        have := BBLOCK_lt hb
        omega
      rw [update_of_ne hne]
    case isFalse => rfl

theorem view_setInode (hi : i < L.ninodes) (ip : Inode) : (s.cache i ip).view L =
      { s.view L with inode := update (s.view L).inode i ip } := by
  ext1
  · funext j
    dsimp only [State.view, State.cache]
    rcases eq_or_ne j i with rfl | hj
    · simp [hi, State.inode]
    · rw [update_of_ne hj]
      simp only [State.inode, update_of_ne hj]
      rfl
  · rfl
  · rfl

theorem view_iupdate (hi : i < L.ninodes) : (s.write (IBLOCK i L.toSuperblock)
      (putDinode (s.disk (IBLOCK i L.toSuperblock)) (i % IPB) (s.inode L i))).view L =
        s.view L := by
  have hlt := IBLOCK_lt hi
  have hbd := bmapstart_le_datastart (L := L)
  ext1
  · funext j
    dsimp only [State.view, State.write]
    split
    case isTrue hj =>
      unfold State.inode State.dinode
      by_cases hblk : IBLOCK j L.toSuperblock = IBLOCK i L.toSuperblock
      · dsimp only
        rw [hblk, update_self]
        by_cases hji : j = i
        · rw [hji, getDinode_putDinode_self (Nat.mod_lt _ (by decide))]
          cases s.icache i <;> rfl
        have hmod : j % IPB ≠ i % IPB := by
          intro hmod
          unfold IBLOCK at hblk
          apply hji
          rw [← Nat.div_add_mod j IPB, ← Nat.div_add_mod i IPB, hmod]
          have hdiv : j / IPB = i / IPB := Nat.add_right_cancel hblk
          rw [hdiv]
        rw [getDinode_putDinode_of_ne hmod]
      · dsimp only
        rw [update_of_ne hblk]
    case isFalse => rfl
  · funext c
    dsimp only [State.view, State.write]
    have hne : BBLOCK c L.toSuperblock ≠ IBLOCK i L.toSuperblock := by
      have := bmapstart_le_BBLOCK (L := L) c
      omega
    rw [update_of_ne hne]
  · funext c
    dsimp only [State.view, State.write]
    split
    case isTrue hc => rw [update_of_ne (by omega)]
    case isFalse => rfl

/-! ### The primitives -/

variable {v : View} {E : Panic → Prop}

theorem via_inode {R : Inode → View → Prop} (hi : i < L.ninodes) (h : R (v.inode i) v) :
    Via (Views L) (inode L i) R E v := by
  rintro s rfl
  simp only [State.view, hi, if_true] at h
  exact ⟨_, rfl, h⟩

variable {R : Unit → View → Prop}

theorem via_setInode {ip : Inode} (hi : i < L.ninodes)
    (h : R () { v with inode := update v.inode i ip }) :
    Via (Views L) (setInode i ip) R E v := by
  rintro s rfl
  rw [← view_setInode hi] at h
  exact ⟨_, rfl, h⟩

theorem via_iupdate (hi : i < L.ninodes) (h : R () v) : Via (Views L) (iupdate L i) R E v := by
  rintro s rfl
  rw [← view_iupdate hi] at h
  exact ⟨_, rfl, h⟩

theorem via_bread {R : Block → View → Prop} (hb : L.datastart ≤ b) (h : R (v.data b) v) :
    Via (Views L) (bread b) R E v := by
  rintro s rfl
  simp only [State.view, hb, if_true] at h
  exact ⟨_, rfl, h⟩

theorem via_logWrite {x : Block} (hb : L.datastart ≤ b)
    (h : R () (v.write b x)) : Via (Views L) (logWrite b x) R E v := by
  rintro s rfl
  rw [← view_update_data hb] at h
  exact ⟨_, rfl, h⟩

/-! ### The allocator -/

theorem findFree_some {d : Disk} (h : findFree L d = some b) :
    b < L.size ∧ getBit (d (BBLOCK b L.toSuperblock)) (b % BPB) = false := by
  obtain ⟨k, -, hk⟩ := exists_of_findSome?_eq_some h
  obtain ⟨bi, hfind, rfl⟩ := Option.map_eq_some_iff.mp hk
  have hmem := mem_range.mp (mem_of_find?_eq_some hfind)
  have htest := find?_some hfind
  simp only [Bool.and_eq_true, decide_eq_true_eq, Bool.not_eq_true'] at htest
  obtain ⟨hlt, hbit⟩ := htest
  have hBPB : 0 < BPB := by decide
  have hblk : BBLOCK (k * BPB + bi) L.toSuperblock = BBLOCK (k * BPB) L.toSuperblock := by
    unfold BBLOCK
    rw [Nat.mul_comm, Nat.mul_add_div hBPB, Nat.div_eq_of_lt hmem, Nat.mul_div_cancel_left _ hBPB,
      Nat.add_zero]
  refine ⟨hlt, ?_⟩
  rw [hblk, Nat.mul_comm, Nat.mul_add_mod, Nat.mod_eq_of_lt hmem, Nat.mul_comm]
  exact hbit

theorem findFree_none {d : Disk} (h : findFree L d = none) (hb : b < L.size) :
    getBit (d (BBLOCK b L.toSuperblock)) (b % BPB) = true := by
  have hBPB : 0 < BPB := by decide
  have hk : b / BPB ∈ range ((L.size + BPB - 1) / BPB) := by
    rw [mem_range, Nat.div_lt_iff_lt_mul hBPB]
    have hle : L.size ≤ (L.size + BPB - 1) / BPB * BPB := by
      have := Nat.div_add_mod (L.size + BPB - 1) BPB
      have := Nat.mod_lt (L.size + BPB - 1) hBPB
      rw [Nat.mul_comm]
      omega
    omega
  have hnone := findSome?_eq_none_iff.mp h _ hk
  rw [Option.map_eq_none_iff, find?_eq_none] at hnone
  have hbi := hnone (b % BPB) (mem_range.mpr (Nat.mod_lt _ hBPB))
  have hsum : b / BPB * BPB + b % BPB = b := by
    rw [Nat.mul_comm]
    exact Nat.div_add_mod b BPB
  have hblk : BBLOCK (b / BPB * BPB) L.toSuperblock = BBLOCK b L.toSuperblock := by
    unfold BBLOCK
    rw [Nat.mul_div_cancel _ hBPB]
  simpa [hsum, hb, hblk] using hbi

theorem bit_in_block (b : ℕ) : b % BPB / 8 < BSIZE := by
  have hlt : b % BPB < BPB := Nat.mod_lt _ (by decide)
  have hB : BPB = BSIZE * 8 := rfl
  omega

theorem via_balloc {R : ℕ → View → Prop} (hmeta : ∀ b < L.datastart, v.bit b = true)
    (h : ∀ b, L.datastart ≤ b → b < L.size → v.bit b = false → R b (v.alloc b))
    (hE : (∀ b < L.size, v.bit b = true) → E .outOfBlocks) : Via (Views L) (balloc L) R E v := by
  rintro s rfl
  unfold balloc
  rw [wp_bind, wp_get]
  cases hf : findFree L s.disk with
  | none =>
    refine hE fun b hb => ?_
    dsimp only [State.view]
    rw [findFree_none hf hb, decide_eq_true hb]
    rfl
  | some b =>
  obtain ⟨hlt, hbit⟩ := findFree_some hf
  have hfree : (s.view L).bit b = false := by
    dsimp only [State.view]
    rw [hbit, Bool.and_false]
  have hdata : L.datastart ≤ b := by
    by_contra hb
    rw [hmeta b (by omega)] at hfree
    cases hfree
  have hmark : ∀ i, getBit (setBit (s.disk (BBLOCK b L.toSuperblock)) (b % BPB)) i =
      if i = b % BPB then true else getBit (s.disk (BBLOCK b L.toSuperblock)) i := by
    intro i
    rw [getBit_setBit (bit_in_block b)]
    by_cases hi : i = b % BPB
    · simp [hi]
    · simp [hi, Ne.symm hi]
  have hview : ((s.write (BBLOCK b L.toSuperblock)
      (setBit (s.disk (BBLOCK b L.toSuperblock)) (b % BPB))).write b zeroBlock).view L =
        (s.view L).alloc b := by
    rw [view_update_data hdata, view_update_bit hlt hmark]
    rfl
  have hR := h b hdata hlt hfree
  rw [← hview] at hR
  exact ⟨_, rfl, hR⟩

theorem via_bfree (hb : b < L.size) (hbit : v.bit b = true)
    (h : R () (v.unmark b)) : Via (Views L) (bfree L b) R E v := by
  rintro s rfl
  have hset : getBit (s.disk (BBLOCK b L.toSuperblock)) (b % BPB) = true := by
    dsimp only [State.view] at hbit
    exact (Bool.and_eq_true_iff.mp hbit).2
  have hclear : ∀ i, getBit (clearBit (s.disk (BBLOCK b L.toSuperblock)) (b % BPB)) i =
      if i = b % BPB then false else getBit (s.disk (BBLOCK b L.toSuperblock)) i := by
    intro i
    rw [getBit_clearBit (bit_in_block b)]
    by_cases hi : i = b % BPB
    · simp [hi]
    · simp [hi, Ne.symm hi]
  rw [View.unmark, ← view_update_bit hb hclear] at h
  unfold bfree
  rw [wp_bind]
  change wp (if getBit (s.disk (BBLOCK b L.toSuperblock)) (b % BPB) = false then _ else _) _ _ _
  rw [hset, if_neg (by decide)]
  exact ⟨_, rfl, h⟩

end Xv6.Fs
