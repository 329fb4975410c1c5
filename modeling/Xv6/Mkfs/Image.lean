import Xv6.Mkfs.Build

/-!
# The finished image

From the empty image to `balloc`. With room for the inodes, `mkfs` completes exactly on the files
that fit, and what it leaves on the disk is what `Built` says, but for the size of the root
directory, which it rounds up at the end.
-/

namespace Xv6.Mkfs

open Function

open LittleEndian Bitmap Hoare Xv6.Fs Xv6.Names

variable {v : View} {d : Draft} {files : List HostFile} {img : Image}

/-! ### The empty image -/

def formatted : Image := ⟨FSSIZE, update (fun _ => zeroBlock) 1 superBlock, 1, nmeta⟩

theorem wp_format : wp (do
      forUpTo (fun i => wsect i zeroBlock) FSSIZE
      wsect 1 superBlock) (fun _ m => m = formatted) (fun _ => False) start := by
  let I : ℕ → Image → Prop := fun i m => m = ⟨i, fun _ => zeroBlock, 1, nmeta⟩
  have hstep : ∀ i < FSSIZE, ∀ m, I i m →
      wp (wsect i zeroBlock) (fun _ => I (i + 1)) (fun _ => False) m := by
    rintro i hi m rfl
    have hmax : max i (i + 1) = i + 1 := by omega
    have hsame : update (fun _ => zeroBlock) i zeroBlock = fun _ => zeroBlock :=
      update_eq_self i fun _ => zeroBlock
    unfold wsect
    rw [wp_ite, if_neg (by omega), wp_modify]
    dsimp only [I]
    rw [hmax, hsame]
  rw [wp_bind]
  refine (wp_forUpTo (I := I) rfl hstep).imp ?_
  rintro _ m rfl
  exact wp_wsect rfl (by decide) rfl

theorem main_start (files : List HostFile) : main files start = build files formatted := by
  obtain ⟨_, m, hrun, rfl⟩ := wp_ok.mp wp_format
  have hassoc : main files = (do
      forUpTo (fun i => wsect i zeroBlock) FSSIZE
      wsect 1 superBlock) >>= fun _ => build files := by
    rw [main, bind_assoc]
  rw [hassoc, bind_of_ok hrun]

def blank : View := ⟨fun _ => freeInode, fun b => decide (b < nmeta), fun _ => zeroBlock⟩

theorem getDinode_zeroBlock (k : ℕ) : getDinode zeroBlock k = freeInode := by
  have hLE : ∀ len off, getLE zeroBlock off len = 0 := by
    intro len
    induction len with
    | zero => intro off; rfl
    | succ len ih =>
      intro off
      simp [getLE, byteAt, zeroBlock, ih]
  unfold getDinode freeInode getShort
  simp only [hLE]
  rfl

theorem sect_formatted {b : ℕ} (hb : b ≠ 1) : formatted.sect b = zeroBlock := by
  dsimp only [formatted]
  rw [update_of_ne hb]

theorem shown_formatted : Shown formatted ⟨blank, 1, nmeta⟩ := by
  have hmeta : 1 < nmeta := by decide
  refine ⟨⟨?_, rfl, rfl, le_rfl, nmeta_lt.le, fun b hb => sect_formatted ?_, fun b hb => ?_⟩, rfl⟩
  · ext1
    · funext i
      dsimp only [Image.view, blank, settled]
      split
      · have hne : IBLOCK i sb ≠ 1 :=
          ne_of_gt (lt_of_lt_of_le (by decide : 1 < sb.inodestart) (Nat.le_add_left ..))
        rw [Option.getD_none, Image.dinode, sect_formatted hne, getDinode_zeroBlock]
      · rfl
    · rfl
    · funext b
      dsimp only [Image.view, blank]
      split
      · exact sect_formatted (by omega)
      · rfl
  · have hfree : nmeta ≤ b := hb
    omega
  · unfold frontBlock
    split
    · next h1 =>
      rw [h1]
      exact update_self 1 superBlock fun _ => zeroBlock
    · next h1 => exact sect_formatted h1

theorem slot_blank (a : Slot) : blank.slot a = 0 := by
  have haddr : ∀ i k, blank.slot (.addr i k) = 0 := by
    intro i k
    rw [View.slot_addr]
    exact if_pos rfl
  cases a with
  | addr i k => exact haddr i k
  | entry i j =>
    rw [View.slot_entry]
    exact if_pos (.inl (haddr i NDIRECT))

theorem sane_blank : Sane blank where
  wf := by
    refine ⟨⟨fun a b ha => absurd (slot_blank a) ha, fun a ha => absurd (slot_blank a) ha, ?_⟩,
      fun b hb => decide_eq_true hb⟩
    rintro b - ⟨hlo, -⟩ hbit
    exact absurd (of_decide_eq_true hbit) (not_lt.mpr hlo)
  filled i :=
    ⟨fun bn => iff_of_false (fun h => h (slot_blank _)) (Nat.not_lt_zero _),
      iff_of_false (fun h => h (slot_blank _)) (Nat.not_lt_zero _)⟩
  size_le _ := Nat.zero_le _

theorem via_makeRoot : Via Shown (do
      appendEntry Xv6.ROOTINO Xv6.ROOTINO dot
      appendEntry Xv6.ROOTINO Xv6.ROOTINO dotdot) (fun _ => Drafted []) (fun _ => False)
      ⟨addInode blank Xv6.ROOTINO T_DIR, Xv6.ROOTINO + 1, nmeta⟩ := by
  have hfree : blank.inode Xv6.ROOTINO = freeInode := rfl
  have hdot := via_appendEntry (d := ⟨addInode blank Xv6.ROOTINO T_DIR, Xv6.ROOTINO + 1, nmeta⟩)
    (by decide) (sane_blank.addInode hfree) holds_addInode Xv6.ROOTINO dot
  refine Via.bind (hdot.mono (fun _ _ h => h) fun _ hover => ?_) ?_
  · exact absurd hover (by unfold Overflows; decide)
  rintro _ e ⟨hnext₁, hsane₁, hroot₁, hkeep₁, hused₁⟩
  have hused : e.used = nmeta + 1 := hused₁
  have hdotdot := via_appendEntry (by decide) hsane₁ hroot₁ Xv6.ROOTINO dotdot
  refine hdotdot.mono ?_ fun _ hover => ?_
  · rintro _ e' ⟨hnext₂, hsane₂, hroot₂, hkeep₂, hused₂⟩
    refine ⟨⟨hsane₂, hroot₂, fun j f hf => absurd hf nofun, fun i hi => ?_, nofun⟩,
      hnext₂.trans hnext₁, ?_⟩
    · have hne : i ≠ Xv6.ROOTINO := by
        rintro rfl
        exact absurd hi (by decide)
      rw [(hkeep₂ i hne).1, (hkeep₁ i hne).1, inode_addInode_of_ne hne]
      rfl
    · rw [hused] at hused₂
      change e'.used + 1 = nmeta + 1 + 1 at hused₂
      exact Nat.succ.inj hused₂
  · rw [hused] at hover
    exact absurd hover (by unfold Overflows; decide)

/-! ### The end -/

/-- The root directory has the size that `main` gives it at the end. -/
def rounded (v : View) : View :=
  v.setSize Xv6.ROOTINO
    (UInt32.ofNat (((v.inode Xv6.ROOTINO).size.toNat / BSIZE + 1) * BSIZE))

theorem root_lt_inodeRoom : Xv6.ROOTINO < inodeRoom := by decide

theorem via_fixSize {E : Exit → Prop} :
    Via Shown (fixSize Xv6.ROOTINO) (fun _ e => e = { d with view := rounded d.view }) E d := by
  rintro m ⟨hm, hused⟩
  have hin := hm.inode_eq root_lt_inodeRoom
  unfold fixSize
  rw [wp_bind]
  refine wp_rinode hm.nsect root_lt_inodeRoom ?_
  refine (wp_winode hm root_lt_inodeRoom fun _ _ => rfl).imp fun _ m' hm' => ?_
  rw [← hin] at hm'
  exact ⟨{ d with view := rounded d.view }, ⟨hm'.2, hm'.1.trans hused⟩, rfl⟩

theorem getBit_freeMap {used : ℕ} (i : ℕ) (h : used ≤ BPB) :
    getBit (freeMap used) i = decide (i < used) := by
  unfold freeMap
  induction used with
  | zero => simp [getBit, byteAt, zeroBlock]
  | succ n ih =>
  have hB : BPB = 8 * BSIZE := rfl
  rw [List.range_succ, List.foldl_append, List.foldl_cons, List.foldl_nil,
    getBit_setBit (by omega), ih (by omega)]
  by_cases hlt : i < n
  · simp [hlt, Nat.lt_succ_of_lt hlt]
  · have hiff : n = i ↔ i < n + 1 := by omega
    simp [hlt, hiff]

/-- `mkfs` has written an image for `files`. -/
structure Finished (files : List HostFile) (img : Image) (v : View) : Prop where
  built : Built files v
  rep : Rep settled (files.length + 2) img (rounded v)
  used : img.freeblock = usedBy files
  map : img.sect sb.bmapstart = freeMap img.freeblock

theorem Rep.balloc {m : Image} {k : ℕ} (hm : Rep settled k m v) (x : Block) :
    Rep settled k (m.write sb.bmapstart x) v := by
  have hmeta := bmapstart_lt_nmeta
  have hge := hm.ge
  refine ⟨?_, hm.nsect, hm.freeinode, hge, hm.le, fun b hb => ?_, fun b hb => ?_⟩
  · rw [← hm.view]
    ext1
    · funext i
      dsimp only [Image.view]
      split
      · next hi =>
        rw [Image.dinode, Image.dinode, sect_write_of_ne (ne_of_lt (IBLOCK_lt_bmapstart hi))]
      · rfl
    · rfl
    · funext b
      dsimp only [Image.view]
      split
      · exact sect_write_of_ne (by omega)
      · rfl
  · have hfree : m.freeblock ≤ b := hb
    exact (sect_write_of_ne (by omega)).trans (hm.zero b hb)
  · have hfront : sb.inodestart < sb.bmapstart := by decide
    exact (sect_write_of_ne (by omega)).trans (hm.front b hb)

section Build

-- Elaboration would run `build` on the image `formatted` itself.
variable {m₀ : Image} (hshown : Shown m₀ ⟨blank, 1, nmeta⟩)

include hshown

theorem wp_build (hroom : files.length + 2 ≤ inodeRoom) :
    wp (build files) (fun _ img => ∃ v, Finished files img v) (fun _ => ¬ Fits files) m₀ := by
  unfold build
  rw [wp_bind]
  refine (via_ialloc (by decide) _ hshown).imp ?_
  rintro _ m ⟨_, hm, rfl, rfl⟩
  rw [wp_ite, if_neg (by decide), ← bind_assoc, wp_bind]
  refine (via_makeRoot m hm).mono ?_ fun _ h => h.elim
  rintro _ m₁ ⟨d₁, hm₁, hd₁⟩
  rw [wp_bind]
  refine (via_files hroom hd₁ m₁ hm₁).imp ?_
  rintro _ m₂ ⟨d₂, hm₂, hb, hnext, hused⟩
  rw [wp_bind]
  refine (via_fixSize m₂ hm₂).imp ?_
  rintro _ m₃ ⟨_, ⟨hrep, hfree⟩, rfl⟩
  have hlt : m₃.freeblock < BSIZE * 8 := lt_of_le_of_lt hrep.le (by decide)
  rw [wp_bind, wp_get, balloc, wp_ite, if_pos hlt]
  refine wp_wsect hrep.nsect (bmapstart_lt_nmeta.trans nmeta_lt) ⟨d₂.view, hb, ?_, ?_, ?_⟩
  · rw [← hnext]
    exact hrep.balloc _
  · exact hfree.trans hused
  · exact sect_write_self

theorem build_finished (hroom : files.length + 2 ≤ inodeRoom)
    (h : build files m₀ = .ok ((), img)) : ∃ v, Finished files img v :=
  (wp_build hshown hroom).of_ok h

theorem build_returns (hroom : files.length + 2 ≤ inodeRoom) (h : Fits files) :
    ∃ img, build files m₀ = .ok ((), img) := by
  have hspec := (wp_build hshown hroom).mono (fun _ _ hfin => hfin) fun _ hnot => hnot h
  obtain ⟨_, img, hrun, -⟩ := wp_ok.mp hspec
  exact ⟨img, hrun⟩

end Build

theorem build_of_mkfs (h : mkfs files = .ok img) : build files formatted = .ok ((), img) := by
  rw [mkfs, main_start] at h
  cases hrun : build files formatted with
  | error e =>
    rw [hrun] at h
    cases h
  | ok r =>
  rw [hrun] at h
  cases h
  rfl

theorem mkfs_finished (hroom : files.length + 2 ≤ inodeRoom) (h : mkfs files = .ok img) :
    ∃ v, Finished files img v := build_finished shown_formatted hroom (build_of_mkfs h)

theorem mkfs_completes (hroom : files.length + 2 ≤ inodeRoom) (h : Fits files) :
    ∃ img, mkfs files = .ok img := by
  obtain ⟨img, hrun⟩ := build_returns shown_formatted hroom h
  exact ⟨img, by rw [mkfs, main_start, hrun]; rfl⟩

/-! ### The kernel's view -/

/-- The kernel has mounted the image: its log is empty and nothing has been read. -/
def boot (img : Image) : State := ⟨img.sect, fun _ => none⟩

theorem Finished.inode_eq {i : ℕ} (h : Finished files img v) (hi : i < inodeRoom) :
    (boot img).inode stdLayout i = (rounded v).inode i := (h.rep.inode_eq hi).symm

theorem Finished.data_eq {b : ℕ} (h : Finished files img v) (hb : nmeta ≤ b) :
    (boot img).disk b = (rounded v).data b := (h.rep.data hb).symm

theorem inode_rounded_root : (rounded v).inode Xv6.ROOTINO = { v.inode Xv6.ROOTINO with
    size := UInt32.ofNat (((v.inode Xv6.ROOTINO).size.toNat / BSIZE + 1) * BSIZE) } := by
  dsimp only [rounded, View.setSize]
  rw [update_self]

theorem inode_rounded_of_ne {i : ℕ} (hi : i ≠ Xv6.ROOTINO) :
    (rounded v).inode i = v.inode i := update_of_ne hi ..

theorem type_rounded (i : ℕ) : ((rounded v).inode i).type = (v.inode i).type := by
  rcases eq_or_ne i Xv6.ROOTINO with rfl | hne
  · rw [inode_rounded_root]
  · rw [inode_rounded_of_ne hne]

theorem size_rounded_root (hs : Sane v) : ((rounded v).inode Xv6.ROOTINO).size.toNat =
    ((v.inode Xv6.ROOTINO).size.toNat / BSIZE + 1) * BSIZE := by
  have hle := hs.size_le Xv6.ROOTINO
  have hdiv : (v.inode Xv6.ROOTINO).size.toNat / BSIZE ≤ MAXFILE :=
    Nat.div_le_of_le_mul (by rwa [Nat.mul_comm] at hle)
  rw [inode_rounded_root]
  refine UInt32.toNat_ofNat_of_lt' ?_
  calc _ ≤ (MAXFILE + 1) * BSIZE := Nat.mul_le_mul_right _ (Nat.succ_le_succ hdiv)
    _ < 2 ^ 32 := by decide

theorem size_le_rounded (hs : Sane v) (i : ℕ) :
    (v.inode i).size.toNat ≤ ((rounded v).inode i).size.toNat := by
  rcases eq_or_ne i Xv6.ROOTINO with rfl | hne
  · rw [size_rounded_root hs]
    exact (Nat.lt_mul_of_div_lt (Nat.lt_succ_self _) (by decide)).le
  · rw [inode_rounded_of_ne hne]

theorem Finished.view_boot (h : Finished files img v) (hn : files.length + 2 ≤ NINODES) :
    (boot img).view stdLayout = rounded v := by
  have hle := h.rep.le
  ext1
  · funext i
    dsimp only [State.view]
    split
    · next hi => exact h.inode_eq (lt_trans hi (by decide))
    next hi =>
    have hi' : NINODES ≤ i := not_lt.mp hi
    have hroot : Xv6.ROOTINO < NINODES := by decide
    rw [inode_rounded_of_ne (by omega), h.built.free i (by omega)]
  · funext b
    have hbit : (rounded v).bit b = decide (b < img.freeblock) := by
      rw [← h.rep.view]
      rfl
    have hB : BPB = 4096 := rfl
    have hF : FSSIZE = 2000 := rfl
    have hsize : stdLayout.size = 2000 := rfl
    rw [hbit]
    dsimp only [State.view]
    by_cases hb : b < stdLayout.size
    · have hblock : (boot img).disk (BBLOCK b stdLayout.toSuperblock) = freeMap img.freeblock := by
        have hdiv : BBLOCK b stdLayout.toSuperblock = sb.bmapstart := by
          rw [BBLOCK, Nat.div_eq_of_lt (by omega), Nat.zero_add]
          rfl
        rw [hdiv]
        exact h.map
      rw [hblock, Nat.mod_eq_of_lt (by omega), getBit_freeMap b (by omega), decide_eq_true hb,
        Bool.true_and]
    · rw [decide_eq_false hb, decide_eq_false (by omega), Bool.false_and]
  · funext b
    dsimp only [State.view]
    split
    · next hb => exact h.data_eq hb
    next hb =>
    rw [← h.rep.view]
    exact (if_neg hb).symm

end Xv6.Mkfs
