import Xv6.Mkfs.Program

/-!
# What `mkfs` appends

The image that `mkfs` works on, seen the way the kernel will see it: a table of inodes, a free map
and data blocks. The free map is not on the disk yet; it is what `balloc` will write, the blocks
below `freeblock`. While `iappend` works on an inode, the inode is in a variable; the view shows
that copy.
-/

namespace Xv6.Mkfs

open Function

open LittleEndian Bitmap Hoare Splice Xv6.Fs Xv6.Names

def inodeRoom : ℕ := ninodeblocks * IPB

/-- Inode `i` on disk. -/
def Image.dinode (m : Image) (i : ℕ) : Inode := getDinode (m.sect (IBLOCK i sb)) (i % IPB)

/-- What the kernel will see, if the inodes in `c` are written back. -/
def Image.view (m : Image) (c : ℕ → Option Inode) : View where
  inode i := if i < inodeRoom then (c i).getD (m.dinode i) else freeInode
  bit b := decide (b < m.freeblock)
  data b := if nmeta ≤ b then m.sect b else zeroBlock

def settled : ℕ → Option Inode := fun _ => none

/-- Inode `i` is in a variable. -/
def pending (i : ℕ) (din : Inode) : ℕ → Option Inode := update settled i (some din)

/-- What is before the inode blocks: the boot block, the super block and an empty log. -/
def frontBlock (b : ℕ) : Block := if b = 1 then superBlock else zeroBlock

/-- The image `m`, with the inodes in `c` not written back, shows `v`; the next inode is `k`. -/
structure Rep (c : ℕ → Option Inode) (k : ℕ) (m : Image) (v : View) : Prop where
  view : m.view c = v
  nsect : m.nsect = FSSIZE
  freeinode : m.freeinode = k
  ge : nmeta ≤ m.freeblock
  le : m.freeblock ≤ FSSIZE
  zero : ∀ b, m.freeblock ≤ b → m.sect b = zeroBlock
  front : ∀ b < sb.inodestart, m.sect b = frontBlock b

def Image.write (m : Image) (b : ℕ) (x : Block) : Image :=
  { m with sect := update m.sect b x }

variable {m m' : Image} {v : View} {c : ℕ → Option Inode} {i k : ℕ} {din : Inode}

/-! ### The layout -/

theorem nmeta_lt : nmeta < FSSIZE := by decide

theorem IBLOCK_lt_bmapstart (hi : i < inodeRoom) : IBLOCK i sb < sb.bmapstart := by
  have h : i / IPB < ninodeblocks := Nat.div_lt_of_lt_mul (by rwa [Nat.mul_comm])
  have hb : sb.bmapstart = sb.inodestart + ninodeblocks := rfl
  unfold IBLOCK
  omega

theorem bmapstart_lt_nmeta : sb.bmapstart < nmeta := by decide

/-! ### Sectors -/

variable {E : Exit → Prop}

theorem sect_write_of_ne {b d : ℕ} {x : Block} (h : d ≠ b) : (m.write b x).sect d = m.sect d :=
  update_of_ne h ..

theorem sect_write_self {b : ℕ} {x : Block} : (m.write b x).sect b = x := update_self ..

theorem Rep.inode_eq (hm : Rep settled k m v) (hi : i < inodeRoom) : v.inode i = m.dinode i := by
  rw [← hm.view]
  exact if_pos hi

theorem wp_rsect {sec : ℕ} {Q : Block → Image → Prop} (hn : m.nsect = FSSIZE)
    (h : sec < FSSIZE → Q (m.sect sec) m) (hE : FSSIZE ≤ sec → ∀ e, E e) :
    wp (rsect sec) Q E m := by
  unfold rsect
  rw [wp_ite]
  split
  · next hgt => exact hE (le_of_lt hgt) _
  rw [wp_bind, wp_get, wp_ite, hn]
  split
  · next hle => exact hE hle _
  · next hlt => exact h (not_le.mp hlt)

theorem wp_wsect {sec : ℕ} {buf : Block} {Q : Unit → Image → Prop} (hn : m.nsect = FSSIZE)
    (hsec : sec < FSSIZE) (h : Q () (m.write sec buf)) : wp (wsect sec buf) Q E m := by
  have hmax : max m.nsect (sec + 1) = m.nsect := by omega
  unfold wsect
  rw [wp_ite, if_neg (by omega), wp_modify, hmax]
  exact h

theorem IBLOCK_lt_size (hi : i < inodeRoom) : IBLOCK i sb < FSSIZE :=
  (IBLOCK_lt_bmapstart hi).trans (bmapstart_lt_nmeta.trans nmeta_lt)

theorem wp_rinode {Q : Inode → Image → Prop} (hn : m.nsect = FSSIZE) (hi : i < inodeRoom)
    (h : Q (m.dinode i) m) : wp (rinode i) Q E m := by
  have hlt := IBLOCK_lt_size hi
  unfold rinode
  rw [wp_bind]
  exact wp_rsect hn (fun _ => h) fun hle => absurd hlt (not_lt.mpr hle)

theorem view_write {b : ℕ} (hb : nmeta ≤ b) (x : Block) :
    (m.write b x).view c = (m.view c).write b x := by
  ext1
  · funext j
    dsimp only [Image.view, Image.write, View.write, Image.dinode]
    split
    · next hj =>
      have hne : IBLOCK j sb ≠ b := by
        have h₁ := IBLOCK_lt_bmapstart hj
        have h₂ := bmapstart_lt_nmeta
        omega
      rw [update_of_ne hne]
    · rfl
  · rfl
  · funext d
    dsimp only [Image.view, Image.write, View.write]
    rcases eq_or_ne d b with rfl | hne
    · rw [if_pos hb, update_self, update_self]
    · rw [update_of_ne hne, update_of_ne hne]

theorem dinode_write {j : ℕ} :
    (m.write (IBLOCK i sb) (putDinode (m.sect (IBLOCK i sb)) (i % IPB) din)).dinode j =
      if j = i then din else m.dinode j := by
  have hI : 0 < IPB := by decide
  unfold Image.dinode Image.write
  dsimp only
  by_cases hblk : IBLOCK j sb = IBLOCK i sb
  · have hdiv : j / IPB = i / IPB := by
      unfold IBLOCK at hblk
      omega
    rw [hblk, update_self]
    by_cases hji : j = i
    · rw [if_pos hji, hji, getDinode_putDinode_self (Nat.mod_lt _ hI)]
    have hmod : j % IPB ≠ i % IPB := by
      intro hmod
      apply hji
      rw [← Nat.div_add_mod j IPB, ← Nat.div_add_mod i IPB, hmod, hdiv]
    rw [if_neg hji, getDinode_putDinode_of_ne hmod]
  · have hji : j ≠ i := by
      rintro rfl
      exact hblk rfl
    rw [if_neg hji, update_of_ne hblk]

theorem view_winode (hi : i < inodeRoom) (hc : ∀ j, j ≠ i → c j = none) :
    (m.write (IBLOCK i sb) (putDinode (m.sect (IBLOCK i sb)) (i % IPB) din)).view settled =
      { m.view c with inode := update (m.view c).inode i din } := by
  have hlt := IBLOCK_lt_bmapstart hi
  have hmeta := bmapstart_lt_nmeta
  ext1
  · funext j
    dsimp only [Image.view, settled, Option.getD_none]
    rw [dinode_write]
    rcases eq_or_ne j i with rfl | hne
    · rw [update_self, if_pos rfl, if_pos hi]
    · rw [update_of_ne hne, if_neg hne, hc j hne]
      rfl
  · rfl
  · funext b
    dsimp only [Image.view, Image.write]
    split
    · rw [update_of_ne (by omega)]
    · rfl

theorem wp_winode (hm : Rep c k m v) (hi : i < inodeRoom) (hc : ∀ j, j ≠ i → c j = none) :
    wp (winode i din) (fun _ m' => m'.freeblock = m.freeblock ∧
      Rep settled k m' { v with inode := update v.inode i din }) E m := by
  have hlt := IBLOCK_lt_bmapstart hi
  have hlt' := IBLOCK_lt_size hi
  have hmeta := bmapstart_lt_nmeta
  have hge := hm.ge
  unfold winode
  dsimp only
  rw [wp_bind]
  refine wp_rsect hm.nsect (fun _ => wp_wsect hm.nsect hlt' ?_) fun hle =>
    absurd hlt' (not_lt.mpr hle)
  refine ⟨rfl, ?_, hm.nsect, hm.freeinode, hge, hm.le, fun b hb => ?_, fun b hb => ?_⟩
  · rw [view_winode hi hc, hm.view]
  · have hne : b ≠ IBLOCK i sb := by
      have hfree : m.freeblock ≤ b := hb
      omega
    exact (sect_write_of_ne hne).trans (hm.zero b hb)
  · have hne : b ≠ IBLOCK i sb := ne_of_lt (lt_of_lt_of_le hb (Nat.le_add_left ..))
    exact (sect_write_of_ne hne).trans (hm.front b hb)

/-! ### Blocks for a file -/

theorem inode_pending (hm : Rep (pending i din) k m v) (hi : i < inodeRoom) : v.inode i = din := by
  rw [← hm.view]
  dsimp only [Image.view, pending]
  rw [if_pos hi, update_self]
  rfl

theorem Rep.fresh (hm : Rep c k m v) (hlt : m.freeblock < FSSIZE) :
    Fresh stdLayout v m.freeblock := by
  refine ⟨hm.ge, hlt, ?_⟩
  rw [← hm.view]
  exact decide_eq_false (lt_irrefl _)

def Image.next (m : Image) : Image := { m with freeblock := m.freeblock + 1 }

theorem view_next (hm : Rep c k m v) (c' : ℕ → Option Inode) :
    m.next.view c' = { v.alloc m.freeblock with inode := (m.view c').inode } := by
  rw [← hm.view]
  ext1
  · rfl
  · funext b
    dsimp only [Image.view, Image.next, View.alloc]
    rcases eq_or_ne b m.freeblock with rfl | hne
    · rw [update_self, decide_eq_true (Nat.lt_succ_self _)]
    · rw [update_of_ne hne]
      exact decide_eq_decide.mpr (by omega)
  · funext b
    dsimp only [Image.view, Image.next, View.alloc]
    rcases eq_or_ne b m.freeblock with rfl | hne
    · rw [update_self, if_pos hm.ge, hm.zero _ le_rfl]
    · rw [update_of_ne hne]

theorem Rep.next (hm : Rep c k m v) (hlt : m.freeblock < FSSIZE) (c' : ℕ → Option Inode) :
    Rep c' k m.next { v.alloc m.freeblock with inode := (m.view c').inode } := by
  have hge := hm.ge
  refine ⟨view_next hm c', hm.nsect, hm.freeinode, ?_, hlt, fun b hb => hm.zero b ?_, hm.front⟩
  · change nmeta ≤ m.freeblock + 1
    omega
  · have hb' : m.freeblock + 1 ≤ b := hb
    omega

theorem inode_view_pending (hm : Rep (pending i din) k m v) (hi : i < inodeRoom) (ip : Inode) :
    (m.view (pending i ip)).inode = update v.inode i ip := by
  rw [← hm.view]
  funext j
  dsimp only [Image.view, pending]
  rcases eq_or_ne j i with rfl | hne
  · rw [if_pos hi, update_self, update_self]
    rfl
  · rw [update_of_ne hne, update_of_ne hne, update_of_ne hne]

def vacant (v : View) (a : Slot) : ℕ := if v.slot a = 0 then 1 else 0

/-- Slot `a` of inode `i` has been mapped to block `x`, and no other slot has changed. -/
structure Filling (i : ℕ) (v : View) (a : Slot) (want : Finset Slot) (x : ℕ) (w : View) : Prop where
  maps : Maps stdLayout i v a want x w
  other : ∀ b, b.IsData → b ≠ a → w.slot b = v.slot b

theorem wp_fillAddr {l : ℕ} (hm : Rep (pending i din) k m v) (hi : i < inodeRoom)
    (hwf : WellFormed stdLayout v) (hlive : din.type ≠ 0) (hl : l < NDIRECT + 1) :
    wp (fillAddr din l) (fun ip m' => m'.freeblock = m.freeblock + vacant v (.addr i l) ∧
      ((∃ w, Rep (pending i ip) k m' w ∧ Maps stdLayout i v (.addr i l) {.addr i l} (ip.addr l) w ∧
        ∀ b, b ≠ .addr i l → w.slot b = v.slot b) ∨
      m'.nsect = FSSIZE ∧ ip.addr l = FSSIZE ∧ FSSIZE < m'.freeblock)) E m := by
  have hin := inode_pending hm hi
  have hslot : v.slot (.addr i l) = din.addr l := by
    rw [View.slot_addr, hin, if_neg hlive]
  unfold fillAddr vacant
  rw [wp_ite, hslot]
  split
  · next h0 =>
    have hU : FSSIZE < 2 ^ 32 := by decide
    have hle := hm.le
    have hself : (din.setAddr l m.freeblock).addr l = m.freeblock := by
      rw [Inode.addr_setAddr hl (by omega), if_pos rfl]
    have h0' := hslot.trans h0
    refine ⟨rfl, ?_⟩
    change (∃ w, Rep (pending i (din.setAddr l m.freeblock)) k m.next w ∧ _) ∨ _
    rw [hself]
    by_cases hlt : m.freeblock < FSSIZE
    · have hlive' : (v.inode i).type ≠ 0 := by rwa [hin]
      refine .inl ⟨v.takeAddr i l m.freeblock, ?_, .takeAddr hwf hlive' hl h0' (hm.fresh hlt),
        fun b hb => ?_⟩
      · have hnext := hm.next hlt (pending i (din.setAddr l m.freeblock))
        rw [inode_view_pending hm hi] at hnext
        rw [View.takeAddr, hin]
        exact hnext
      · rw [slot_takeAddr hwf hlive' hl h0' (hm.fresh hlt), update_of_ne hb]
    · exact .inr ⟨hm.nsect, by omega, Nat.lt_succ_of_le (not_lt.mp hlt)⟩
  next h0 =>
  rw [wp_pure, ← hslot]
  exact ⟨rfl, .inl ⟨v, hm, .present hwf (by rwa [hslot]), fun _ _ => rfl⟩⟩

theorem Rep.write {b : ℕ} (hm : Rep c k m v) (hb : nmeta ≤ b) (hlt : b < m.freeblock) (x : Block) :
    Rep c k (m.write b x) (v.write b x) := by
  refine ⟨by rw [view_write hb, hm.view], hm.nsect, hm.freeinode, hm.ge, hm.le, fun d hd => ?_,
    fun d hd => ?_⟩
  · have hd' : m.freeblock ≤ d := hd
    exact (sect_write_of_ne (by omega)).trans (hm.zero d hd')
  · have hfront : sb.inodestart < nmeta := by decide
    exact (sect_write_of_ne (by omega)).trans (hm.front d hd)

theorem Rep.slot_bounds {a : Slot} (hm : Rep c k m v) (hwf : WellFormed stdLayout v)
    (ha : v.slot a ≠ 0) : nmeta ≤ v.slot a ∧ v.slot a < m.freeblock := by
  obtain ⟨⟨hge, -⟩, hbit⟩ := hwf.owned.sound a ha
  refine ⟨hge, ?_⟩
  rw [← hm.view] at hbit ⊢
  exact of_decide_eq_true hbit

theorem Rep.data {b : ℕ} (hm : Rep c k m v) (hb : nmeta ≤ b) : v.data b = m.sect b := by
  rw [← hm.view]
  exact if_pos hb

theorem wp_fillEntry {j : ℕ} (hm : Rep (pending i din) k m v) (hi : i < inodeRoom)
    (hwf : WellFormed stdLayout v) (hlive : din.type ≠ 0) (hj : j < NINDIRECT)
    (hind : din.addr NDIRECT ≠ 0) :
    wp (fillEntry din j) (fun x m' => m'.freeblock = m.freeblock + vacant v (.entry i j) ∧
      ((∃ w, Rep (pending i din) k m' w ∧ Filling i v (.entry i j) {.entry i j} x w) ∨
      m'.nsect = FSSIZE ∧ x = FSSIZE ∧ FSSIZE < m'.freeblock)) E m := by
  have hind' : v.indirect i = din.addr NDIRECT := by
    rw [View.indirect, inode_pending hm hi, if_neg hlive]
  have hne : v.indirect i ≠ 0 := by rwa [hind']
  obtain ⟨hge, hlt⟩ := hm.slot_bounds (a := .addr i NDIRECT) hwf hne
  change nmeta ≤ v.indirect i at hge
  change v.indirect i < m.freeblock at hlt
  have hle := hm.le
  have hslot : v.slot (.entry i j) = getWord (m.sect (v.indirect i)) j := by
    rw [View.slot_entry, if_neg (by omega), hm.data hge]
  rw [fillEntry, vacant, ← hind', wp_bind]
  refine wp_rsect hm.nsect (fun hsec => ?_) fun hout => absurd hout (by omega)
  rw [wp_ite, hslot]
  split
  · next h0 =>
    have hU : FSSIZE < 2 ^ 32 := by decide
    have hself : getWord (setWord (m.sect (v.indirect i)) j m.freeblock) j = m.freeblock :=
      getWord_setWord_self hj (by omega)
    have h0' := hslot.trans h0
    rw [wp_bind]
    change wp _ _ _ m.next
    dsimp only
    rw [wp_bind]
    refine wp_wsect hm.nsect hsec ?_
    rw [wp_pure, hself]
    refine ⟨rfl, ?_⟩
    by_cases hfull : m.freeblock < FSSIZE
    · have hnext := hm.next hfull (pending i din)
      rw [hm.view] at hnext
      have hnext' := hnext.write hge (Nat.lt_succ_of_lt hlt)
        (setWord (m.sect (v.indirect i)) j m.freeblock)
      refine .inl ⟨v.takeEntry i j m.freeblock, ?_, .takeEntry hwf hne hj h0' (hm.fresh hfull),
        fun b _ hb => ?_⟩
      · unfold View.takeEntry
        dsimp only
        rw [hm.data hge]
        exact hnext'
      · rw [slot_takeEntry hwf hne hj (hm.fresh hfull), update_of_ne hb]
    · exact .inr ⟨hm.nsect, by omega, Nat.lt_succ_of_le (not_lt.mp hfull)⟩
  next h0 =>
  rw [wp_pure, ← hslot]
  exact ⟨rfl, .inl ⟨v, hm, .present hwf (by rwa [hslot]), fun _ _ _ => rfl⟩⟩

def vacancies (v : View) (i fbn : ℕ) : ℕ :=
  if fbn < NDIRECT then vacant v (.addr i fbn)
  else vacant v (.addr i NDIRECT) + vacant v (.entry i (fbn - NDIRECT))

theorem wp_blockFor {fbn : ℕ} (hm : Rep (pending i din) k m v) (hi : i < inodeRoom)
    (hwf : WellFormed stdLayout v) (hlive : din.type ≠ 0) (hfbn : fbn < MAXFILE) :
    wp (blockFor din fbn) (fun r m' => m'.freeblock = m.freeblock + vacancies v i fbn ∧
      ((∃ w, Rep (pending i r.1) k m' w ∧ Filling i v (fileSlot i fbn) (wanted i fbn) r.2 w ∧
        (NDIRECT ≤ fbn → w.slot (.addr i NDIRECT) ≠ 0) ∧
        (fbn < NDIRECT → w.slot (.addr i NDIRECT) = v.slot (.addr i NDIRECT))) ∨
      m'.nsect = FSSIZE ∧ r.2 = FSSIZE ∧ FSSIZE < m'.freeblock))
      (fun _ => FSSIZE < m.freeblock + vacancies v i fbn) m := by
  unfold blockFor vacancies
  rw [wp_ite]
  split
  · next hdirect =>
    rw [wp_bind, fileSlot, wanted, if_pos hdirect, if_pos hdirect]
    refine (wp_fillAddr hm hi hwf hlive (Nat.lt_succ_of_lt hdirect)).imp ?_
    rintro ip m' ⟨hfree, ⟨w, hw, hmap, hother⟩ | hfull⟩
    · refine ⟨hfree, .inl ⟨w, hw, ⟨hmap, fun b _ => hother b⟩, fun hle => ?_, fun _ => ?_⟩⟩
      · exact absurd hdirect (not_lt.mpr hle)
      · exact hother _ fun heq => absurd (Slot.addr.inj heq).2 (Nat.ne_of_gt hdirect)
    · exact ⟨hfree, .inr hfull⟩
  next hdirect =>
  have hj : fbn - NDIRECT < NINDIRECT := by
    have : MAXFILE = NDIRECT + NINDIRECT := rfl
    omega
  rw [wp_bind, fileSlot, wanted, if_neg hdirect, if_neg hdirect]
  refine (wp_fillAddr hm hi hwf hlive (Nat.lt_succ_self NDIRECT)).imp ?_
  rintro ip m' ⟨hfree, ⟨w, hw, hmap, hother⟩ | ⟨hn, hfull, hout⟩⟩
  · have hin := inode_pending hw hi
    have hlive' : ip.type ≠ 0 := by
      rw [← hin, hmap.ext.type_eq, inode_pending hm hi]
      exact hlive
    have hvacant : vacant w (.entry i (fbn - NDIRECT)) = vacant v (.entry i (fbn - NDIRECT)) := by
      rw [vacant, vacant, hother (.entry i (fbn - NDIRECT)) fun h => by cases h]
    have hind : w.slot (.addr i NDIRECT) ≠ 0 := by
      rw [hmap.slot_eq]
      exact hmap.ne_zero
    rw [wp_bind]
    refine (wp_fillEntry hw hi hmap.ext.wf hlive' hj hmap.ne_zero).imp ?_
    rintro x m'' ⟨hfree', ⟨u, hu, hmap'⟩ | hfull⟩
    · refine ⟨by omega, .inl ⟨u, hu, ⟨hmap.indirect hmap'.maps, fun b hd hb => ?_⟩, fun _ => ?_,
        fun hlt => absurd hlt hdirect⟩⟩
      · have hne : b ≠ .addr i NDIRECT := by
          rintro rfl
          exact absurd hd (Nat.lt_irrefl NDIRECT)
        rw [hmap'.other b hd hb, hother b hne]
      · rw [hmap'.maps.ext.slot _ hind]
        exact hind
    · exact ⟨by omega, .inr hfull⟩
  · -- the indirect block would be past the end of the image
    rw [wp_bind, fillEntry, wp_bind, hfull]
    refine wp_rsect hn ?_ fun _ _ => by omega
    intro hsec
    exfalso
    exact lt_irrefl _ hsec

/-! ### What a file takes -/

/-- Inode `i` has the blocks of a file of `z` bytes, and no others. -/
structure Filled (v : View) (i z : ℕ) : Prop where
  data : ∀ bn, v.slot (fileSlot i bn) ≠ 0 ↔ bn * BSIZE < z
  indirect : v.slot (.addr i NDIRECT) ≠ 0 ↔ NDIRECT * BSIZE < z

def cost (z : ℕ) : ℕ := (z + (BSIZE - 1)) / BSIZE + if NDIRECT * BSIZE < z then 1 else 0

theorem cost_mono {y z : ℕ} (h : y ≤ z) : cost y ≤ cost z := by
  have hdiv : (y + (BSIZE - 1)) / BSIZE ≤ (z + (BSIZE - 1)) / BSIZE :=
    Nat.div_le_div_right (Nat.add_le_add_right h _)
  unfold cost
  split <;> split <;> omega

section Step

variable {y z : ℕ} (hz : z < y) (hy : y ≤ (z / BSIZE + 1) * BSIZE)
include hz hy

theorem fileBlock_lt_iff (bn : ℕ) : bn * BSIZE < y ↔ bn ≤ z / BSIZE := by
  have hB : BSIZE = 512 := rfl
  rw [hB] at hy ⊢
  omega

theorem Filled.vacancies_eq (h : Filled v i z) : vacancies v i (z / BSIZE) + cost z = cost y := by
  have hdata := h.data (z / BSIZE)
  have hind := h.indirect
  have hB : BSIZE = 512 := rfl
  have hN : NDIRECT = 12 := rfl
  unfold vacancies cost vacant
  unfold fileSlot at hdata
  rw [hB] at hy
  rw [hB, hN] at hdata hind ⊢
  split
  · next hlt =>
    rw [if_pos hlt] at hdata
    split <;> split <;> split <;> omega
  next hge =>
  rw [if_neg hge] at hdata
  split <;> split <;> split <;> split <;> omega

theorem Filled.step {x : ℕ} {buf : Block} {want : Finset Slot} (h : Filled v i z)
    (hfill : Filling i v (fileSlot i (z / BSIZE)) want x w)
    (hind : NDIRECT ≤ z / BSIZE → w.slot (.addr i NDIRECT) ≠ 0)
    (hdirect : z / BSIZE < NDIRECT → w.slot (.addr i NDIRECT) = v.slot (.addr i NDIRECT)) :
    Filled (w.write x buf) i y := by
  have hx := hfill.maps.slot_eq
  subst hx
  have hslot := slot_write hfill.maps.ext.wf (isData_fileSlot i (z / BSIZE)) buf
  refine ⟨fun bn => ?_, ?_⟩
  · rw [hslot, fileBlock_lt_iff hz hy]
    rcases eq_or_ne bn (z / BSIZE) with rfl | hne
    · exact iff_of_true hfill.maps.ne_zero le_rfl
    rw [hfill.other _ (isData_fileSlot i bn) fun heq => hne (fileSlot_injective heq), h.data]
    have hB : BSIZE = 512 := rfl
    rw [hB] at hne ⊢
    omega
  · rw [hslot, fileBlock_lt_iff hz hy]
    by_cases hge : NDIRECT ≤ z / BSIZE
    · exact iff_of_true (hind hge) hge
    · rw [hdirect (not_le.mp hge), h.indirect]
      refine iff_of_false (fun hlt => hge ?_) hge
      exact (Nat.le_div_iff_mul_le (by decide)).mpr hlt.le

end Step

/-! ### The loop -/

def source (p : List UInt8) : ℕ → UInt8 := fun j => p.getD j 0

theorem source_drop (p : List UInt8) (n j : ℕ) : source (p.drop n) j = source p (n + j) := by
  simp [source, List.getD]

/-- There is no room for `n` bytes more, in a file of `off` bytes or in the image. -/
def Overflows (used off n : ℕ) : Prop :=
  MAXFILE * BSIZE < off + n ∨ FSSIZE + cost off < used + cost (off + n)

/-- After `tot` bytes of `p`. -/
structure Appending (i off : ℕ) (p : List UInt8) (used : ℕ) (v : View) (tot : ℕ) (m : Image)
    (w : View) : Prop where
  wrote : Wrote stdLayout i off p.length (source p) v tot w
  filled : Filled w i (off + tot)
  used_eq : m.freeblock + cost off = used + cost (off + tot)
  le_max : off + tot ≤ MAXFILE * BSIZE

theorem wp_appendLoop (off : ℕ) (p : List UInt8) (used : ℕ) (hi : i < inodeRoom)
    (hlive : (v.inode i).type ≠ 0) :
    ∀ fuel tot din m w, tot ≤ p.length → p.length - tot ≤ fuel → Rep (pending i din) k m w →
      Appending i off p used v tot m w →
      wp (appendLoop fuel din (off + tot) (p.drop tot)) (fun r m' => r.2 = off + p.length ∧
        ∃ u, Rep (pending i r.1) k m' u ∧ Appending i off p used v p.length m' u)
        (fun _ => Overflows used off p.length) m := by
  intro fuel
  induction fuel with
  | zero =>
    intro tot din m w hle hfuel hm hw
    obtain rfl : tot = p.length := by omega
    exact ⟨rfl, w, hm, hw⟩
  | succ fuel ih =>
  intro tot din m w hle hfuel hm hw
  have hlen : (p.drop tot).length = p.length - tot := List.length_drop
  rw [appendLoop, wp_ite]
  split
  · next hpos =>
    have htot : tot < p.length := by omega
    have hB : BSIZE = 512 := rfl
    have hM : MAXFILE = 140 := rfl
    dsimp only
    rw [wp_ite]
    split
    · next hfbn =>
      obtain ⟨hpos', hle', hin⟩ := piece_bounds (off + tot) htot
      have hpiece : min (p.drop tot).length (((off + tot) / BSIZE + 1) * BSIZE - (off + tot)) =
          min (p.length - tot) (BSIZE - (off + tot) % BSIZE) := by
        rw [hlen, hB]
        omega
      have hrest : off + tot - (off + tot) / BSIZE * BSIZE = (off + tot) % BSIZE := by
        rw [hB]
        omega
      set tot' := tot + min (p.length - tot) (BSIZE - (off + tot) % BSIZE) with htot'
      have hend : off + tot' ≤ MAXFILE * BSIZE := by
        rw [hB, hM] at hfbn ⊢
        rw [hB] at hin htot'
        omega
      have hinside : off + tot' ≤ ((off + tot) / BSIZE + 1) * BSIZE := by
        rw [hB] at hin htot' ⊢
        omega
      have hcost := hw.filled.vacancies_eq (by omega : off + tot < off + tot') hinside
      have hmono : cost (off + tot') ≤ cost (off + p.length) := cost_mono (by omega)
      have hused := hw.used_eq
      have hsrc : (fun j => (p.drop tot).getD j 0) = fun j => source p (tot + j) :=
        funext fun j => source_drop p tot j
      have hlive' : din.type ≠ 0 := by
        rw [← inode_pending hm hi, hw.wrote.ext.type_eq]
        exact hlive
      rw [wp_bind]
      refine (wp_blockFor hm hi hw.wrote.ext.wf hlive' hfbn).mono ?_ fun _ hout => ?_
      · rintro ⟨din', x⟩ m' ⟨hfree, ⟨u, hu, hfill, hind, hdirect⟩ | ⟨hn, hfull, hout⟩⟩
        · have hmap := hfill.maps
          obtain ⟨hge, hlt⟩ := hu.slot_bounds (a := fileSlot i ((off + tot) / BSIZE)) hmap.ext.wf
            (by rw [hmap.slot_eq]; exact hmap.ne_zero)
          rw [hmap.slot_eq] at hge hlt
          have hle'' := hu.le
          dsimp only
          rw [hpiece, hrest, hsrc, wp_bind]
          refine wp_rsect hu.nsect (fun hsec => ?_) fun hsec => absurd hsec (by omega)
          rw [wp_bind]
          refine wp_wsect hu.nsect hsec ?_
          rw [List.drop_drop, Nat.add_assoc, ← hu.data hge]
          refine ih _ din' _ _ hle' (by omega) (hu.write hge hlt _)
            ⟨hw.wrote.step htot hmap, ?_, ?_, hend⟩
          · exact hw.filled.step (by omega) hinside hfill hind hdirect
          · change m'.freeblock + cost off = used + cost (off + tot')
            omega
        · -- the block would be past the end of the image
          dsimp only at hfull ⊢
          rw [wp_bind]
          refine wp_rsect hn (fun hsec => absurd hsec (by omega)) fun _ _ => .inr ?_
          omega
      · exact .inr (by omega)
    next hfbn =>
    refine .inl ?_
    rw [hB, hM] at hfbn ⊢
    omega
  next hpos =>
  obtain rfl : tot = p.length := by omega
  exact ⟨rfl, w, hm, hw⟩

/-- What `iappend` has done to a file. -/
structure Appended (i : ℕ) (p : List UInt8) (v w : View) : Prop where
  written : Written stdLayout i (v.inode i).size.toNat p.length (source p) v w
  slot_ne : ∀ a, a.owner ≠ i → w.slot a = v.slot a
  filled : Filled w i (w.inode i).size.toNat
  size_le : (w.inode i).size.toNat ≤ MAXFILE * BSIZE

theorem wp_iappend (hm : Rep settled k m v) (hi : i < inodeRoom) (hwf : WellFormed stdLayout v)
    (hlive : (v.inode i).type ≠ 0) (hfill : Filled v i (v.inode i).size.toNat)
    (hsize : (v.inode i).size.toNat ≤ MAXFILE * BSIZE) (p : List UInt8) :
    wp (iappend i p) (fun _ m' => ∃ w, Rep settled k m' w ∧ Appended i p v w ∧
      m'.freeblock + cost (v.inode i).size.toNat = m.freeblock + cost (w.inode i).size.toNat)
      (fun _ => Overflows m.freeblock (v.inode i).size.toNat p.length) m := by
  have hin := hm.inode_eq hi
  have hpend : m.view (pending i (m.dinode i)) = v := by
    rw [← hm.view]
    ext1
    · funext j
      dsimp only [Image.view, pending]
      rcases eq_or_ne j i with rfl | hne
      · rw [update_self]
        rfl
      · rw [update_of_ne hne]
    · rfl
    · rfl
  have hrep : Rep (pending i (m.dinode i)) k m v :=
    ⟨hpend, hm.nsect, hm.freeinode, hm.ge, hm.le, hm.zero, hm.front⟩
  unfold iappend
  rw [wp_bind]
  refine wp_rinode hm.nsect hi ?_
  rw [wp_bind, ← hin]
  rw [← hin] at hrep
  have hloop := wp_appendLoop (v.inode i).size.toNat p m.freeblock hi hlive p.length 0 (v.inode i)
    m v (Nat.zero_le _) (Nat.sub_le _ 0) hrep ⟨.zero hwf, hfill, rfl, hsize⟩
  rw [Nat.add_zero, List.drop_zero] at hloop
  refine hloop.imp ?_
  rintro ⟨din, off⟩ m' ⟨rfl, u, hu, hw⟩
  have hdin := inode_pending hu hi
  have hwritten := hw.wrote.setSize (Nat.le_add_right _ _) hw.le_max
  have hsize' := hwritten.size_eq
  rw [Nat.max_eq_right (Nat.le_add_right _ _)] at hsize'
  refine (wp_winode hu hi fun j hj => update_of_ne hj ..).imp fun _ m'' hm'' => ?_
  refine ⟨_, ?_, ⟨hwritten, fun a ha => ?_, ?_, ?_⟩, ?_⟩
  · rw [View.setSize, hdin]
    exact hm''.2
  · rw [slot_setSize]
    exact hw.wrote.ext.slot_ne a ha
  · rw [hsize']
    exact ⟨fun bn => by rw [slot_setSize, hw.filled.data], by rw [slot_setSize, hw.filled.indirect]⟩
  · rw [hsize']
    exact hw.le_max
  · rw [hsize', hm''.1]
    exact hw.used_eq

end Xv6.Mkfs
