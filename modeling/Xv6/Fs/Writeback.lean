import Xv6.Fs.Blocks
import Xv6.Names.Icache

/-!
# Inodes are written back

`bmap` changes the block addresses of an in-memory inode and leaves it to its caller to write the
inode to disk, which `writei` does only if the file has grown. In a file without holes a new block
is a block at the end, so that is enough.

An entry of the inode cache is used under its lock: by `readi` and `writei`, by the calls that
change the link count or set up a new inode and then call `iupdate`, and by `iput`, which frees an
inode that has neither links nor references. Calls run one after the other. What they do to the
cache is a sequence of the actions below, in an order that is left open here; so are the inode that
`ialloc` finds and the free entry that `iget` recycles. Inode numbers come from directory entries
of a well-formed file system.
-/

namespace Xv6.Fs

open Hoare Function

-- otherwise unification runs the programs down to the bytes of a block
attribute [local irreducible] LittleEndian.getLE

variable {L : Layout} {devsw : Devsw} {i : ℕ} {s s' : State} {α β : Type}

/-! ### Runs -/

/-- The program changes the in-memory copy of no inode but `i`. -/
def Touches (i : ℕ) (p : FsM α) : Prop :=
  ∀ s, wp p (fun _ t => ∀ j, j ≠ i → t.icache j = s.icache j) (fun _ => True) s

theorem Touches.pure (a : α) : Touches i (pure a : FsM α) := fun _ _ _ => rfl

theorem Touches.throw (e : Panic) : Touches i (throw e : FsM α) := fun _ => trivial

theorem Touches.bind {p : FsM α} {f : α → FsM β} (hp : Touches i p) (hf : ∀ a, Touches i (f a)) :
    Touches i (p >>= f) := by
  intro s
  rw [wp_bind]
  refine (hp s).imp fun a t ht => ?_
  exact (hf a t).imp fun b u hu j hj => (hu j hj).trans (ht j hj)

theorem Touches.ite {c : Prop} [Decidable c] {p q : FsM α} (hp : Touches i p) (hq : Touches i q) :
    Touches i (if c then p else q) := by
  split
  · exact hp
  · exact hq

theorem touches_bread (b : ℕ) : Touches i (bread b) := fun _ _ _ => rfl

theorem touches_logWrite (b : ℕ) (x : Block) : Touches i (logWrite b x) := fun _ _ _ => rfl

theorem touches_inode (j : ℕ) : Touches i (inode L j) := fun _ _ _ => rfl

theorem touches_setInode (ip : Inode) : Touches i (setInode i ip) :=
  fun _ _ hj => update_of_ne hj ..

theorem touches_balloc : Touches i (balloc L) := by
  intro s
  unfold balloc
  rw [wp_bind, wp_get]
  cases findFree L s.disk with
  | none => trivial
  | some b => exact fun _ _ => rfl

theorem touches_bfree (b : ℕ) : Touches i (bfree L b) :=
  (touches_bread _).bind fun _ => .ite (.throw _) (touches_logWrite _ _)

theorem touches_iupdate (j : ℕ) : Touches i (iupdate L j) :=
  (touches_bread _).bind fun _ => (touches_inode _).bind fun _ => touches_logWrite _ _

theorem touches_bmapAddr (k : ℕ) : Touches i (bmapAddr L i k) :=
  (touches_inode _).bind fun _ => .ite (touches_balloc.bind fun _ => (touches_inode _).bind fun _ =>
      (touches_setInode _).bind fun _ => .pure _) (.pure _)

theorem touches_bmap (bn : ℕ) : Touches i (bmap L i bn) :=
  .ite (touches_bmapAddr bn) (.ite ((touches_bmapAddr NDIRECT).bind fun _ =>
    (touches_bread _).bind fun _ => .ite
      (touches_balloc.bind fun _ => (touches_logWrite _ _).bind fun _ => .pure _) (.pure _))
    (.throw _))

theorem touches_writeLoop (n : ℕ) (src : ℕ → UInt8) (fuel : ℕ) :
    ∀ tot off, Touches i (writeLoop L i n src fuel tot off) := by
  induction fuel with
  | zero => exact fun _ _ => .pure _
  | succ fuel ih =>
  intro tot off
  rw [writeLoop]
  exact .ite ((touches_bmap _).bind fun _ => (touches_bread _).bind fun _ =>
    (touches_logWrite _ _).bind fun _ => ih _ _) (.pure _)

theorem touches_growSize (n off : ℕ) : Touches i (growSize L i n off) :=
  (touches_inode _).bind fun _ => .ite
    ((touches_setInode _).bind fun _ => touches_iupdate _) (.pure _)

theorem touches_writei (src : ℕ → UInt8) (off n : ℕ) : Touches i (writei L devsw i src off n) := by
  refine (touches_inode _).bind fun ip => .ite (.ite (.pure _) ?_) (.ite (.pure _) (.ite (.pure _)
    ((touches_writeLoop _ _ _ _ _).bind fun _ => (touches_growSize _ _).bind fun _ => .pure _)))
  split
  · exact .pure _
  · exact .pure _

theorem touches_forUpTo {body : ℕ → FsM Unit} (h : ∀ k, Touches i (body k)) (n : ℕ) :
    Touches i (forUpTo body n) := by
  intro s
  exact wp_forUpTo (I := fun _ t => ∀ j, j ≠ i → t.icache j = s.icache j) (fun _ _ => rfl)
    fun k _ t ht => (h k t).imp fun _ u hu j hj => (hu j hj).trans (ht j hj)

theorem touches_itrunc : Touches i (itrunc L i) := by
  have hdirect : Touches i (itruncDirect L i) := touches_forUpTo (fun k =>
    (touches_inode _).bind fun _ => .ite (.pure _)
      ((touches_bfree _).bind fun _ => touches_setInode _)) _
  have hindirect : Touches i (itruncIndirect L i) :=
    (touches_inode _).bind fun _ => .ite (.pure _) ((touches_bread _).bind fun _ =>
      (touches_forUpTo (fun _ => .ite (.pure _) (touches_bfree _)) _).bind fun _ =>
        (touches_bfree _).bind fun _ => touches_setInode _)
  exact hdirect.bind fun _ => hindirect.bind fun _ => (touches_inode _).bind fun _ =>
    (touches_setInode _).bind fun _ => touches_iupdate _

/-! ### Inodes on disk -/

/-- Inode `i` is written to disk. -/
def putInode (L : Layout) (d : Disk) (i : ℕ) (ip : Inode) : Disk :=
  update d (IBLOCK i L.toSuperblock)
    (putDinode (d (IBLOCK i L.toSuperblock)) (i % IPB) ip)

def plain (d : Disk) : State := ⟨d, fun _ => none⟩

theorem dinode_putInode (d : Disk) (ip : Inode) (i j : ℕ) :
    (plain (putInode L d i ip)).dinode L j = if j = i then ip else (plain d).dinode L j := by
  unfold State.dinode plain putInode
  by_cases hblk : IBLOCK j L.toSuperblock = IBLOCK i L.toSuperblock
  · dsimp only
    rw [hblk, update_self]
    by_cases hji : j = i
    · rw [if_pos hji, hji, getDinode_putDinode_self (Nat.mod_lt _ (by decide))]
    have hmod : j % IPB ≠ i % IPB := by
      intro hmod
      unfold IBLOCK at hblk
      apply hji
      have hdiv : j / IPB = i / IPB := Nat.add_right_cancel hblk
      rw [← Nat.div_add_mod j IPB, ← Nat.div_add_mod i IPB, hmod, hdiv]
    rw [if_neg hji, getDinode_putDinode_of_ne hmod]
  · have hji : j ≠ i := by
      rintro rfl
      exact hblk rfl
    dsimp only
    rw [if_neg hji, update_of_ne hblk]

theorem iupdate_clean (s : State) :
    wp (iupdate L i) (fun _ t => t.inode L i = t.dinode L i) (fun _ => True) s := by
  have hdisk := dinode_putInode (L := L) s.disk (s.inode L i) i i
  rw [if_pos rfl] at hdisk
  change (s.icache i).getD ((plain (putInode L s.disk i (s.inode L i))).dinode L i) =
    (plain (putInode L s.disk i (s.inode L i))).dinode L i
  rw [hdisk]
  unfold State.inode
  cases s.icache i <;> rfl

def Clean (L : Layout) (s : State) : Prop := ∀ j < L.ninodes, s.inode L j = s.dinode L j

theorem Clean.view (h : Clean L s) : s.view L = (plain s.disk).view L := by
  ext1
  · funext j
    dsimp only [State.view]
    by_cases hj : j < L.ninodes
    · rw [if_pos hj, if_pos hj, h j hj]
      rfl
    · rw [if_neg hj, if_neg hj]
  · rfl
  · rfl

theorem view_putInode (d : Disk) (ip : Inode) (hi : i < L.ninodes) :
    (plain (putInode L d i ip)).view L =
      { (plain d).view L with inode := update ((plain d).view L).inode i ip } := by
  ext1
  · funext j
    dsimp only [State.view]
    rcases eq_or_ne j i with rfl | hj
    · rw [if_pos hi, update_self]
      exact (dinode_putInode d ip j j).trans (if_pos rfl)
    · rw [update_of_ne hj]
      refine if_congr Iff.rfl ?_ rfl
      exact (dinode_putInode d ip i j).trans (if_neg hj)
  · exact congrArg View.bit (view_iupdate (s := (plain d).cache i ip) hi) ▸ (by
      simp only [State.write, State.cache, State.inode, update_self, Option.getD_some]
      rfl)
  · exact congrArg View.data (view_iupdate (s := (plain d).cache i ip) hi) ▸ (by
      simp only [State.write, State.cache, State.inode, update_self, Option.getD_some]
      rfl)

/-! ### File systems without holes -/

structure Good (L : Layout) (v : View) : Prop where
  wf : WellFormed L v
  noHoles : NoHoles v
  typed : ∀ i, (v.inode i).type = 0 ∨ (v.inode i).type = T_DIR ∨ (v.inode i).type = T_FILE ∨
    (v.inode i).type = T_DEV

variable {v : View}

theorem slot_update_inode {ip : Inode}
    (h : ∀ k, (if ip.type = 0 then 0 else ip.addr k) = v.slot (.addr i k)) :
    View.slot { v with inode := update v.inode i ip } = v.slot := by
  have haddr : ∀ j k, View.slot { v with inode := update v.inode i ip } (.addr j k) =
      v.slot (.addr j k) := by
    intro j k
    rcases eq_or_ne j i with rfl | hj
    · rw [← h k, View.slot_addr]
      simp only [update_self]
    · rw [View.slot_addr, View.slot_addr]
      simp only [update_of_ne hj]
  funext a
  cases a with
  | addr j k => exact haddr j k
  | entry j k =>
  have hind : View.indirect { v with inode := update v.inode i ip } j = v.indirect j :=
    haddr j NDIRECT
  rw [View.slot_entry, View.slot_entry, hind]

theorem Good.update {ip : Inode} (h : Good L v)
    (hslot : ∀ k, (if ip.type = 0 then 0 else ip.addr k) = v.slot (.addr i k))
    (hsize : ip.size = 0 ∨ ip.size = (v.inode i).size ∧ ip.type = (v.inode i).type)
    (htype : ip.type = 0 ∨ ip.type = T_DIR ∨ ip.type = T_FILE ∨ ip.type = T_DEV) :
    Good L { v with inode := update v.inode i ip } := by
  have hs := slot_update_inode hslot
  refine ⟨⟨by rw [hs]; exact h.wf.owned, h.wf.metadata⟩, fun j hj bn hbn => ?_, fun j => ?_⟩
  · rw [hs]
    rcases eq_or_ne j i with rfl | hne
    · simp only [update_self] at hj hbn
      rcases hsize with h0 | ⟨hsz, hty⟩
      · rw [h0] at hbn
        exact absurd hbn (Nat.not_lt_zero _)
      · exact h.noHoles j (hty ▸ hj) bn (hsz ▸ hbn)
    · simp only [update_of_ne hne] at hj hbn
      exact h.noHoles j hj bn hbn
  · rcases eq_or_ne j i with rfl | hne
    · simp only [update_self]
      exact htype
    · simp only [update_of_ne hne]
      exact h.typed j

theorem Good.file_or_dir (h : Good L v) (hlive : (v.inode i).type ≠ 0)
    (hdev : (v.inode i).type ≠ T_DEV) : (v.inode i).type = T_FILE ∨ (v.inode i).type = T_DIR := by
  rcases h.typed i with h0 | h0 | h0 | h0
  · exact absurd h0 hlive
  · exact .inr h0
  · exact .inl h0
  · exact absurd h0 hdev

/-! ### One operation -/

/-- The state in which the holder of the lock of inode `i` works on it. -/
structure Ready (L : Layout) (i : ℕ) (s : State) : Prop where
  lt : i < L.ninodes
  alone : ∀ j, j ≠ i → s.icache j = none
  clean : s.inode L i = s.dinode L i
  good : Good L (s.view L)
  live : (s.inode L i).type ≠ 0

theorem Ready.view_inode (h : Ready L i s) : (s.view L).inode i = s.inode L i :=
  Fs.view_inode h.lt

/-- Afterwards inode `i` is on disk as it is in memory, and the others are as they were. -/
structure Back (L : Layout) (i : ℕ) (s s' : State) : Prop where
  clean : s'.inode L i = s'.dinode L i
  others : ∀ j < L.ninodes, j ≠ i → s'.dinode L j = s.dinode L j
  good : Good L ((plain s'.disk).view L)

theorem clean_of_alone (halone : ∀ j, j ≠ i → s.icache j = none)
    (hclean : s.inode L i = s.dinode L i) : Clean L s := by
  intro j _
  rcases eq_or_ne j i with rfl | hj
  · exact hclean
  · unfold State.inode
    rw [halone j hj]
    rfl

theorem Back.of_view (h : Ready L i s) (htouch : ∀ j, j ≠ i → s'.icache j = s.icache j)
    (hclean : s'.inode L i = s'.dinode L i) (hgood : Good L (s'.view L))
    (hother : ∀ j, j ≠ i → (s'.view L).inode j = (s.view L).inode j) : Back L i s s' := by
  have halone : ∀ j, j ≠ i → s'.icache j = none := fun j hj => (htouch j hj).trans (h.alone j hj)
  have hall := clean_of_alone halone hclean
  refine ⟨hclean, fun j hlt hj => ?_, hall.view ▸ hgood⟩
  have hj' := hother j hj
  rw [Fs.view_inode hlt, Fs.view_inode hlt] at hj'
  rw [← hall j hlt, hj', clean_of_alone h.alone h.clean j hlt]

theorem Back.refl (h : Ready L i s) : Back L i s s :=
  .of_view h (fun _ _ => rfl) h.clean h.good fun _ _ => rfl

variable {off n : ℕ}

theorem readi_same (h : Ready L i s) (hoff : off < 2 ^ 32) (hn : n < 2 ^ 32) :
    wp (readi L devsw i off n) (fun _ t => t = s) (fun _ => True) s := by
  refine wp_bind_of_ok (inode_run s i) ?_
  rw [wp_ite]
  split
  case isTrue hdev =>
    rw [wp_ite]
    split
    · rfl
    · split <;> rfl
  case isFalse hdev =>
  rw [wp_ite]
  split
  case isTrue => rfl
  case isFalse hnot =>
  have hrefused := hnot ∘ (readRefused_iff hoff hn).mp
  obtain ⟨hle, hwrap⟩ := not_or.mp hrefused
  have hmod : (off + n) % 2 ^ 32 = off + n := Nat.mod_eq_of_lt (Nat.not_le.mp hwrap)
  have htype := h.good.file_or_dir (by rw [h.view_inode]; exact h.live)
    (by rw [h.view_inode]; exact hdev)
  dsimp only
  refine wp_bind_of_ok (@readLoop_of_ne_zero L i off _ s h.lt h.good.wf (fun k _ hk => ?_) _ 0
    (Nat.zero_le _) (Nat.sub_le _ 0)) rfl
  refine h.good.noHoles.slot_ne_zero htype ?_
  rw [h.view_inode]
  rw [hmod] at hk
  split at hk <;> omega

theorem back_readi (h : Ready L i s) (hoff : off < 2 ^ 32) (hn : n < 2 ^ 32) :
    wp (readi L devsw i off n) (fun _ t => Back L i s t ∧ t.inode L i = s.inode L i)
      (fun _ => True) s :=
  (readi_same h hoff hn).imp fun _ _ ht => by
    subst ht
    exact ⟨.refl h, rfl⟩

/-! ### `writei` -/

theorem dinode_write_data {b : ℕ} (hb : L.datastart ≤ b) (x : Block) {j : ℕ} (hj : j < L.ninodes) :
    (s.write b x).dinode L j = s.dinode L j := by
  have hne : IBLOCK j L.toSuperblock ≠ b := by
    have h1 := IBLOCK_lt hj
    have h2 := bmapstart_le_datastart (L := L)
    omega
  unfold State.dinode State.write
  dsimp only
  rw [update_of_ne hne]

variable {src : ℕ → UInt8}

theorem writeLoop_in_place (hi : i < L.ninodes)
    (h : ∀ k, off ≤ k → k < off + n → v.slot (fileSlot i (k / BSIZE)) ≠ 0) :
    ∀ fuel tot (s : State), tot ≤ n → n - tot ≤ fuel → Wrote L i off n src v tot (s.view L) →
      wp (writeLoop L i n src fuel tot (off + tot))
        (fun off' t => off' = off + n ∧ t.icache = s.icache ∧ t.dinode L i = s.dinode L i)
        (fun _ => True) s := by
  intro fuel
  induction fuel with
  | zero =>
    intro tot s hle hfuel hw
    obtain rfl : tot = n := by omega
    exact ⟨rfl, rfl, rfl⟩
  | succ fuel ih =>
  intro tot s hle hfuel hw
  rw [writeLoop]
  by_cases htot : tot < n
  · obtain ⟨hpos, hle', -⟩ := piece_bounds (off + tot) htot
    have hthere := h (off + tot) (by omega) (by omega)
    have hne : (s.view L).slot (fileSlot i ((off + tot) / BSIZE)) ≠ 0 := by
      rw [hw.ext.slot _ hthere]
      exact hthere
    have hdata := (hw.ext.wf.bounds hne).1
    have hstep := hw.step htot (.present hw.ext.wf hne)
    have hblk : (s.view L).data ((s.view L).slot (fileSlot i ((off + tot) / BSIZE))) =
        s.disk ((s.view L).slot (fileSlot i ((off + tot) / BSIZE))) := if_pos hdata
    rw [hblk, ← view_update_data hdata] at hstep
    rw [if_pos htot]
    refine wp_bind_of_ok (bmap_of_ne_zero hi hw.ext.wf hne) (wp_bind_of_ok (bread_run s _)
      (wp_bind_of_ok (t := s.write _ _) rfl ?_))
    rw [Nat.add_assoc]
    refine (ih _ _ hle' (by omega) hstep).imp ?_
    rintro _ t ⟨rfl, hcache, hdinode⟩
    exact ⟨rfl, hcache, hdinode.trans (dinode_write_data hdata _ hi)⟩
  · obtain rfl : tot = n := by omega
    rw [if_neg htot]
    exact ⟨rfl, rfl, rfl⟩

theorem writei_clean (h : Ready L i s) (hoff : off < 2 ^ 32) (hn : n < 2 ^ 32) :
    wp (writei L devsw i src off n) (fun _ t => t.inode L i = t.dinode L i) (fun _ => True) s := by
  refine wp_bind_of_ok (inode_run s i) ?_
  rw [wp_ite]
  split
  case isTrue =>
    rw [wp_ite]
    split
    · exact h.clean
    · split <;> exact h.clean
  case isFalse hdev =>
  rw [wp_ite]
  split
  case isTrue => exact h.clean
  case isFalse h₁ =>
  rw [wp_ite]
  split
  case isTrue => exact h.clean
  case isFalse h₂ =>
  have hnot : ¬WriteRefused (s.inode L i).size.toNat off n := fun hc =>
    ((writeRefused_iff hoff hn).mp hc).elim h₁ h₂
  have hmax : off + n ≤ MAXFILE * BSIZE := not_lt.mp fun hc => hnot (.inr (.inr hc))
  have hlive : ((s.view L).inode i).type ≠ 0 := by
    rw [h.view_inode]
    exact h.live
  have hzero : Wrote L i off n src (s.view L) 0 (s.view L) := .zero h.good.wf
  rw [wp_bind]
  by_cases hgrow : n > 0 ∧ off + n > (s.inode L i).size.toNat
  · have hloop := via_writeLoop h.lt hlive hmax n 0 (s.view L) (Nat.zero_le n)
      (Nat.sub_le n 0) hzero s rfl
    refine hloop.mono ?_ fun _ _ => trivial
    rintro _ t ⟨w, hview, rfl, hw⟩
    have hsize : (t.inode L i).size = (s.inode L i).size := by
      rw [← Fs.view_inode h.lt, ← h.view_inode, hview]
      exact hw.ext.size_eq
    rw [wp_bind]
    refine wp_bind_of_ok (inode_run t i) ?_
    rw [if_pos (by rw [hsize]; exact hgrow)]
    exact wp_bind_of_ok (t := t.cache i _) rfl ((iupdate_clean (t.cache i _)).imp fun _ _ hu => hu)
  have hthere : ∀ k, off ≤ k → k < off + n →
      (s.view L).slot (fileSlot i (k / BSIZE)) ≠ 0 := fun k hk hk' => by
    refine h.good.noHoles.slot_ne_zero (h.good.file_or_dir hlive
      (by rw [h.view_inode]; exact hdev)) ?_
    rw [h.view_inode]
    omega
  have hloop := writeLoop_in_place h.lt hthere n 0 s (Nat.zero_le n) (Nat.sub_le n 0) hzero
  refine hloop.imp ?_
  rintro _ t ⟨rfl, hcache, hdinode⟩
  have hinode : t.inode L i = s.inode L i := by
    rw [h.clean]
    unfold State.inode
    rw [hcache, hdinode]
    exact h.clean
  rw [wp_bind]
  refine wp_bind_of_ok (inode_run t i) ?_
  rw [if_neg (by rw [hinode]; exact hgrow)]
  exact hinode.trans (h.clean.trans hdinode.symm)

theorem writei_good (h : Ready L i s) (hoff : off < 2 ^ 32) (hn : n < 2 ^ 32) :
    wp (writei L devsw i src off n) (fun _ t => Good L (t.view L) ∧
      (∀ j, j ≠ i → (t.view L).inode j = (s.view L).inode j) ∧
      (t.inode L i).type = (s.inode L i).type) (fun _ => True) s := by
  have hsame : Good L (s.view L) ∧ (∀ j, j ≠ i → (s.view L).inode j = (s.view L).inode j) ∧
      (s.inode L i).type = (s.inode L i).type := ⟨h.good, fun _ _ => rfl, rfl⟩
  by_cases hdev : (s.inode L i).type = T_DEV
  · refine wp_bind_of_ok (inode_run s i) ?_
    rw [if_pos hdev, wp_ite]
    split
    · exact hsame
    · split <;> exact hsame
  by_cases hrefused : WriteRefused (s.inode L i).size.toNat off n
  · rw [wp, writei_refused hdev hoff hn hrefused]
    exact hsame
  have hview := h.view_inode
  have hle : off ≤ (s.inode L i).size.toNat := not_lt.mp fun hc => hrefused (.inl hc)
  have hvia := via_writei devsw src h.lt h.good.wf (by rw [hview]; exact h.live)
    (by rw [hview]; exact hdev) hoff hn (by rw [hview]; exact hrefused)
  refine (hvia s rfl).mono ?_ fun _ _ => trivial
  rintro _ t ⟨w, hw, -, hwr, -⟩
  obtain rfl : t.view L = w := hw
  have htype : ((t.view L).inode i).type = ((s.view L).inode i).type := by
    rw [hwr.inode_self]
  refine ⟨⟨hwr.wf, h.good.noHoles.written hwr (by rw [hview]; exact hle), fun j => ?_⟩,
    hwr.inode_ne, ?_⟩
  · rcases eq_or_ne j i with rfl | hj
    · rw [htype]
      exact h.good.typed j
    · rw [hwr.inode_ne j hj]
      exact h.good.typed j
  · rw [Fs.view_inode h.lt, hview] at htype
    exact htype

theorem back_writei (h : Ready L i s) (hoff : off < 2 ^ 32) (hn : n < 2 ^ 32) :
    wp (writei L devsw i src off n)
      (fun _ t => Back L i s t ∧ (t.inode L i).type = (s.inode L i).type) (fun _ => True) s := by
  refine ((touches_writei src off n s).and ((writei_clean h hoff hn).and
    (writei_good h hoff hn))).mono ?_ fun _ _ => trivial
  rintro _ t ⟨htouch, hclean, hgood, hother, htype⟩
  exact ⟨.of_view h htouch hclean hgood hother, htype⟩

/-! ### Changing fields -/

/-- Fields of the inode are assigned to, and `iupdate` writes it to disk. -/
def assign (L : Layout) (i : ℕ) (f : Inode → Inode) : FsM Unit := do
  let ip ← inode L i
  setInode i (f ip)
  iupdate L i

theorem wp_assign {f : Inode → Inode} (hi : i < L.ninodes) (hgood : Good L (s.view L))
    (hslot : ∀ k, (if (f (s.inode L i)).type = 0 then 0 else (f (s.inode L i)).addr k) =
      (s.view L).slot (.addr i k))
    (hsize : (f (s.inode L i)).size = 0 ∨ (f (s.inode L i)).size = (s.inode L i).size ∧
      (f (s.inode L i)).type = (s.inode L i).type)
    (htype : (f (s.inode L i)).type = 0 ∨ (f (s.inode L i)).type = T_DIR ∨
      (f (s.inode L i)).type = T_FILE ∨ (f (s.inode L i)).type = T_DEV) :
    wp (assign L i f) (fun _ t => (∀ j, j ≠ i → t.icache j = s.icache j) ∧
      t.inode L i = t.dinode L i ∧ t.inode L i = f (s.inode L i) ∧ Good L (t.view L) ∧
      ∀ j, j ≠ i → (t.view L).inode j = (s.view L).inode j) (fun _ => True) s := by
  have hview := view_setInode (s := s) hi (f (s.inode L i))
  have hnew : Good L ((s.cache i (f (s.inode L i))).view L) := by
    rw [hview]
    exact hgood.update hslot (by rw [Fs.view_inode hi]; exact hsize) htype
  have hself : ((s.cache i (f (s.inode L i))).view L).inode i = f (s.inode L i) := by
    rw [hview]
    exact update_self ..
  have hother : ∀ j, j ≠ i →
      ((s.cache i (f (s.inode L i))).view L).inode j = (s.view L).inode j := fun j hj => by
    rw [hview]
    exact update_of_ne hj ..
  have hupdate := (iupdate_clean (L := L) (i := i) (s.cache i (f (s.inode L i)))).and
    (via_iupdate (R := fun _ w => w = (s.cache i (f (s.inode L i))).view L) (E := fun _ => True) hi
      rfl _ rfl)
  have htouch : Touches i (assign L i f) :=
    (touches_inode _).bind fun _ => (touches_setInode _).bind fun _ => touches_iupdate _
  have hrun : wp (assign L i f) (fun _ t => t.inode L i = t.dinode L i ∧
      ∃ w, Views L t w ∧ w = (s.cache i (f (s.inode L i))).view L) (fun _ => True) s :=
    wp_bind_of_ok (inode_run s i) (wp_bind_of_ok (t := s.cache i (f (s.inode L i))) rfl
      (hupdate.mono (fun _ _ ht => ht) fun _ _ => trivial))
  refine ((htouch s).and hrun).mono ?_ fun _ _ => trivial
  rintro _ t ⟨ht, hclean, w, hw, heq⟩
  have hvt : t.view L = (s.cache i (f (s.inode L i))).view L := Eq.trans hw heq
  refine ⟨ht, hclean, ?_, hvt ▸ hnew, fun j hj => ?_⟩
  · rw [← Fs.view_inode hi, hvt]
    exact hself
  · rw [hvt]
    exact hother j hj

theorem back_assign (h : Ready L i s) (major minor nlink : Int16) :
    wp (assign L i fun ip => { ip with major := major, minor := minor, nlink := nlink })
      (fun _ t => Back L i s t ∧ (t.inode L i).type = (s.inode L i).type) (fun _ => True) s := by
  have hview := h.view_inode
  refine (wp_assign h.lt h.good (fun k => ?_) (.inr ⟨rfl, rfl⟩) ?_).imp ?_
  · rw [View.slot_addr, hview]
    rfl
  · have htyped := h.good.typed i
    rw [hview] at htyped
    exact htyped
  · rintro _ t ⟨htouch, hclean, heq, hgood, hother⟩
    exact ⟨.of_view h htouch hclean hgood hother, by rw [heq]⟩

/-! ### `iput` -/

/-- What `iput` does with an inode that has no links and no other references. -/
def iputFree (L : Layout) (i : ℕ) : FsM Unit := do
  itrunc L i
  assign L i fun ip => { ip with type := 0 }

theorem slot_of_inode_ne {w : View} (hne : ∀ j, j ≠ i → w.inode j = v.inode j)
    (hdata : w.data = v.data) {a : Slot} (ha : a.owner ≠ i) : w.slot a = v.slot a := by
  cases a with
  | addr j k => rw [View.slot_addr, View.slot_addr, hne j ha]
  | entry j k =>
  have hind : w.indirect j = v.indirect j := by
    unfold View.indirect
    rw [hne j ha]
  rw [View.slot_entry, View.slot_entry, hind, hdata]

theorem back_iputFree (h : Ready L i s) :
    wp (iputFree L i) (fun _ t => Back L i s t) (fun _ => True) s := by
  have hview := h.view_inode
  have htrunc := (touches_itrunc (L := L) (i := i) s).and
    (via_itrunc (E := fun _ => True) h.lt h.good.wf (by rw [hview]; exact h.live) s rfl)
  unfold iputFree
  rw [wp_bind]
  refine htrunc.mono ?_ fun _ _ => trivial
  rintro _ t ⟨htouch, w, hw, hwf, hne, hself, hdata⟩
  obtain rfl : t.view L = w := hw
  have hgood : Good L (t.view L) := by
    refine ⟨hwf, fun j hj bn hbn => ?_, fun j => ?_⟩
    · rcases eq_or_ne j i with rfl | hji
      · rw [hself] at hbn
        exact absurd hbn (Nat.not_lt_zero _)
      · rw [hne j hji] at hj hbn
        rw [slot_of_inode_ne hne hdata (by rw [owner_fileSlot]; exact hji)]
        exact h.good.noHoles j hj bn hbn
    · rcases eq_or_ne j i with rfl | hj
      · rw [hself]
        exact h.good.typed j
      · rw [hne j hj]
        exact h.good.typed j
  -- the truncated inode has no blocks, and so does the free one
  have hinode : t.inode L i = { (s.view L).inode i with size := 0, addrs := fun _ => 0 } := by
    rw [← Fs.view_inode h.lt]
    exact hself
  refine (wp_assign h.lt hgood (fun k => ?_) (.inl (by rw [hinode])) (.inl rfl)).imp ?_
  · rw [if_pos rfl, View.slot_addr, hself]
    unfold Inode.addr
    split
    · rfl
    · split <;> rfl
  · rintro _ u ⟨htouch', hclean, -, hgood', hother⟩
    exact .of_view h (fun j hj => (htouch' j hj).trans (htouch j hj)) hclean hgood'
      fun j hj => (hother j hj).trans (hne j hj)

/-! ### `ialloc` -/

theorem good_ialloc {d : Disk} {type : Int16} (hi : i < L.ninodes)
    (hgood : Good L ((plain d).view L)) (hfree : ((plain d).dinode L i).type = 0)
    (htype : type = T_DIR ∨ type = T_FILE ∨ type = T_DEV) :
    Good L ((plain (putInode L d i ⟨type, 0, 0, 0, 0, fun _ => 0⟩)).view L) := by
  have hinode : ((plain d).view L).inode i = (plain d).dinode L i := Fs.view_inode hi
  rw [view_putInode d _ hi]
  refine hgood.update (fun k => ?_) (.inl rfl) (.inr htype)
  rw [View.slot_addr, hinode, if_pos hfree]
  split
  · rfl
  · unfold Inode.addr
    split <;> rfl

/-! ### The inode cache -/

namespace Writeback

open Xv6.Names (NINODE)

/-- `struct inode` -/
structure Entry where
  inum : ℕ
  ref : ℕ
  locked : Bool
  valid : Bool
  dip : Inode

/-- The blocks as `bread` sees them, and `icache`. -/
structure State where
  disk : Disk
  entry : Fin NINODE → Entry

inductive Action where
  | iget (inum : ℕ) (e : Fin NINODE)
  | idup (e : Fin NINODE)
  | ilock (e : Fin NINODE)
  | iunlock (e : Fin NINODE)
  | readi (e : Fin NINODE) (off n : ℕ)
  | writei (e : Fin NINODE) (src : ℕ → UInt8) (off n : ℕ)
  /-- Set these fields, then `iupdate`. -/
  | update (e : Fin NINODE) (major minor nlink : Int16)
  | ialloc (type : Int16) (inum : ℕ)
  | iput (e : Fin NINODE)

section Step

variable (L : Layout) (devsw : Devsw) (s : State)

def State.setEntry (e : Fin NINODE) (x : Entry) : State :=
  { s with entry := update s.entry e x }

/-- What a function works on that is called with entry `e`. -/
def State.load (e : Fin NINODE) : Fs.State :=
  (plain s.disk).cache (s.entry e).inum (s.entry e).dip

/-- A function is called with entry `e`; a panic stops everything. -/
def State.run {α : Type} (e : Fin NINODE) (p : FsM α) : Option State :=
  match p (s.load e) with
  | .ok (_, t) => some { (s.setEntry e { s.entry e with
      dip := t.inode L (s.entry e).inum }) with disk := t.disk }
  | .error _ => none

/-- Find the inode, or recycle the free entry `e`. -/
def iget (inum : ℕ) (e : Fin NINODE) : Option State :=
  match (List.finRange NINODE).find? fun e => 0 < (s.entry e).ref ∧ (s.entry e).inum = inum with
  | some e => some (s.setEntry e { s.entry e with ref := (s.entry e).ref + 1 })
  | none =>
    if (s.entry e).ref = 0 then
      some (s.setEntry e { s.entry e with inum := inum, ref := 1, valid := false })
    else none

/-- The fields after `ilock` has read the inode from disk if necessary. -/
def ilockEntry (e : Fin NINODE) : Entry :=
  if (s.entry e).valid then { s.entry e with locked := true }
  else { s.entry e with
    locked := true, valid := true, dip := (plain s.disk).dinode L (s.entry e).inum }

/-- Lock the inode. `ilock: no type` is a panic. -/
def ilock (e : Fin NINODE) : Option State :=
  if (s.entry e).ref < 1 ∨ (s.entry e).locked then none
  else if (ilockEntry L s e).dip.type = 0 then none
  else some (s.setEntry e (ilockEntry L s e))

def iunlock (e : Fin NINODE) : Option State :=
  if (s.entry e).locked = false ∨ (s.entry e).ref < 1 then none
  else some (s.setEntry e { s.entry e with locked := false })

/-- Drop a reference: the last one to an inode without links frees it. -/
def iput (e : Fin NINODE) : Option State :=
  if (s.entry e).ref < 1 ∨ (s.entry e).locked then none
  else
    (if (s.entry e).valid ∧ (s.entry e).dip.nlink = 0 ∧ (s.entry e).ref = 1 then
      (s.run L e (iputFree L (s.entry e).inum)).map fun s =>
        s.setEntry e { s.entry e with valid := false }
    else some s).map fun s => s.setEntry e { s.entry e with ref := (s.entry e).ref - 1 }

/-- Allocate the free inode `inum` on disk. -/
def ialloc (type : Int16) (inum : ℕ) : Option State :=
  if ((plain s.disk).dinode L inum).type = 0 then
    some { s with disk := putInode L s.disk inum ⟨type, 0, 0, 0, 0, fun _ => 0⟩ }
  else none

def step : Action → Option State
  | .iget inum e => iget s inum e
  | .idup e =>
    if (s.entry e).ref < 1 then none
    else some (s.setEntry e { s.entry e with ref := (s.entry e).ref + 1 })
  | .ilock e => ilock L s e
  | .iunlock e => iunlock s e
  | .readi e off n =>
    if (s.entry e).locked then s.run L e (readi L devsw (s.entry e).inum off n) else none
  | .writei e src off n =>
    if (s.entry e).locked then s.run L e (writei L devsw (s.entry e).inum src off n) else none
  | .update e major minor nlink =>
    if (s.entry e).locked then s.run L e (assign L (s.entry e).inum fun ip =>
      { ip with major := major, minor := minor, nlink := nlink }) else none
  | .ialloc type inum => ialloc L s type inum
  | .iput e => iput L s e

end Step

/-- Inode numbers are in range, offsets and counts are `uint`, and `create` makes directories,
files and devices. -/
def Allowed (L : Layout) : Action → Prop
  | .iget inum _ => inum < L.ninodes
  | .readi _ off n => off < 2 ^ 32 ∧ n < 2 ^ 32
  | .writei _ _ off n => off < 2 ^ 32 ∧ n < 2 ^ 32
  | .ialloc type inum => (type = T_DIR ∨ type = T_FILE ∨ type = T_DEV) ∧ inum < L.ninodes
  | _ => True

/-- A well-formed image without holes, and nothing cached. -/
structure Init (L : Layout) (s : State) : Prop where
  good : Good L ((plain s.disk).view L)
  empty : ∀ e, (s.entry e).ref = 0 ∧ (s.entry e).locked = false

/-! ### The invariant -/

structure Inv (L : Layout) (s : State) : Prop where
  good : Good L ((plain s.disk).view L)
  clean : ∀ e, 0 < (s.entry e).ref → (s.entry e).valid = true →
    (s.entry e).dip = (plain s.disk).dinode L (s.entry e).inum ∧ (s.entry e).dip.type ≠ 0
  range : ∀ e, 0 < (s.entry e).ref → (s.entry e).inum < L.ninodes
  unique : ∀ e e', 0 < (s.entry e).ref → 0 < (s.entry e').ref →
    (s.entry e).inum = (s.entry e').inum → e = e'
  locked : ∀ e, (s.entry e).locked = true → 0 < (s.entry e).ref ∧ (s.entry e).valid = true

variable {s s' : State} {e e' : Fin NINODE} {x : Entry}

theorem entry_setEntry_self (s : State) (e : Fin NINODE) (x : Entry) :
    (s.setEntry e x).entry e = x := update_self ..

theorem entry_setEntry_of_ne (s : State) (x : Entry) (hne : e' ≠ e) :
    (s.setEntry e x).entry e' = s.entry e' := update_of_ne hne ..

theorem Inv.change (h : Inv L s) {d : Disk} (hgood : Good L ((plain d).view L))
    (hothers : ∀ e', e' ≠ e → 0 < (s.entry e').ref → (s.entry e').valid = true →
      (plain d).dinode L (s.entry e').inum = (plain s.disk).dinode L (s.entry e').inum)
    (hclean : 0 < x.ref → x.valid = true → x.dip = (plain d).dinode L x.inum ∧ x.dip.type ≠ 0)
    (hrange : 0 < x.ref → x.inum < L.ninodes)
    (hunique : ∀ e', e' ≠ e → 0 < x.ref → 0 < (s.entry e').ref → x.inum ≠ (s.entry e').inum)
    (hlocked : x.locked = true → 0 < x.ref ∧ x.valid = true) :
    Inv L { s.setEntry e x with disk := d } := by
  have hself : ({ s.setEntry e x with disk := d } : State).entry e = x := entry_setEntry_self s e x
  have hne : ∀ e', e' ≠ e → ({ s.setEntry e x with disk := d } : State).entry e' = s.entry e' :=
    fun e' he => entry_setEntry_of_ne s x he
  refine ⟨hgood, fun e' hr hv => ?_, fun e' hr => ?_, fun e₁ e₂ h₁ h₂ hn => ?_, fun e' hl => ?_⟩
  · rcases eq_or_ne e' e with rfl | he
    · rw [hself] at hr hv ⊢
      exact hclean hr hv
    · rw [hne e' he] at hr hv ⊢
      obtain ⟨hdip, hlive⟩ := h.clean e' hr hv
      exact ⟨hdip.trans (hothers e' he hr hv).symm, hlive⟩
  · rcases eq_or_ne e' e with rfl | he
    · rw [hself] at hr ⊢
      exact hrange hr
    · rw [hne e' he] at hr ⊢
      exact h.range e' hr
  · rcases eq_or_ne e₁ e with he₁ | he₁ <;> rcases eq_or_ne e₂ e with he₂ | he₂
    · exact he₁.trans he₂.symm
    · subst he₁
      rw [hself] at h₁ hn
      rw [hne e₂ he₂] at h₂ hn
      exact absurd hn (hunique e₂ he₂ h₁ h₂)
    · subst he₂
      rw [hself] at h₂ hn
      rw [hne e₁ he₁] at h₁ hn
      exact absurd hn.symm (hunique e₁ he₁ h₂ h₁)
    · rw [hne e₁ he₁] at h₁ hn
      rw [hne e₂ he₂] at h₂ hn
      exact h.unique e₁ e₂ h₁ h₂ hn
  · rcases eq_or_ne e' e with rfl | he
    · rw [hself] at hl ⊢
      exact hlocked hl
    · rw [hne e' he] at hl ⊢
      exact h.locked e' hl

theorem Inv.setEntry (h : Inv L s) (hclean : 0 < x.ref → x.valid = true →
      x.dip = (plain s.disk).dinode L x.inum ∧ x.dip.type ≠ 0)
    (hrange : 0 < x.ref → x.inum < L.ninodes)
    (hunique : ∀ e', e' ≠ e → 0 < x.ref → 0 < (s.entry e').ref → x.inum ≠ (s.entry e').inum)
    (hlocked : x.locked = true → 0 < x.ref ∧ x.valid = true) : Inv L (s.setEntry e x) :=
  h.change h.good (fun _ _ _ _ => rfl) hclean hrange hunique hlocked

theorem Inv.inum_ne (h : Inv L s) (he : 0 < (s.entry e).ref) (hne : e' ≠ e)
    (he' : 0 < (s.entry e').ref) : (s.entry e).inum ≠ (s.entry e').inum :=
  fun hc => hne (h.unique e e' he he' hc).symm

theorem Inv.ready (h : Inv L s) (hr : 0 < (s.entry e).ref) (hv : (s.entry e).valid = true) :
    Ready L (s.entry e).inum (s.load e) := by
  obtain ⟨hdip, hlive⟩ := h.clean e hr hv
  have hinode : (s.load e).inode L (s.entry e).inum = (s.entry e).dip := by
    unfold State.load State.inode Fs.State.cache
    simp only [update_self, Option.getD_some]
  have halone : ∀ j, j ≠ (s.entry e).inum → (s.load e).icache j = none :=
    fun j hj => update_of_ne hj ..
  have hclean : (s.load e).inode L (s.entry e).inum = (s.load e).dinode L (s.entry e).inum :=
    hinode.trans hdip
  refine ⟨h.range e hr, halone, hclean, ?_, by rw [hinode]; exact hlive⟩
  rw [(clean_of_alone halone hclean).view]
  exact h.good

/-! ### Actions keep the invariant -/

theorem Inv.others (h : Inv L s) (hr : 0 < (s.entry e).ref) {t : Fs.State}
    (hb : Back L (s.entry e).inum (s.load e) t) (hne : e' ≠ e) (hr' : 0 < (s.entry e').ref) :
    (plain t.disk).dinode L (s.entry e').inum = (plain s.disk).dinode L (s.entry e').inum :=
  hb.others _ (h.range e' hr') (h.inum_ne hr hne hr').symm

theorem Inv.run {α : Type} {p : FsM α} (h : Inv L s) (hl : (s.entry e).locked = true)
    (hp : wp p (fun _ t => Back L (s.entry e).inum (s.load e) t ∧
      (t.inode L (s.entry e).inum).type = ((s.load e).inode L (s.entry e).inum).type)
      (fun _ => True) (s.load e)) (hs : s.run L e p = some s') : Inv L s' := by
  obtain ⟨hr, hv⟩ := h.locked e hl
  unfold State.run at hs
  split at hs
  case h_2 => cases hs
  case h_1 t hok =>
  cases hs
  obtain ⟨hb, htype⟩ := hp.of_ok hok
  refine h.change hb.good (fun e' hne hr' _ => h.others hr hb hne hr')
    (fun _ _ => ⟨hb.clean, ?_⟩) (fun _ => h.range e hr)
    (fun e' hne _ hr' => h.inum_ne hr hne hr') fun _ => ⟨hr, hv⟩
  change (t.inode L (s.entry e).inum).type ≠ 0
  rw [htype]
  exact (h.ready hr hv).live

theorem Inv.iget (h : Inv L s) {inum : ℕ} (hi : inum < L.ninodes)
    (hs : iget s inum e = some s') : Inv L s' := by
  unfold Writeback.iget at hs
  split at hs
  case h_1 e₁ hfind =>
    have hpos : 0 < (s.entry e₁).ref ∧ (s.entry e₁).inum = inum := by
      simpa using List.find?_some hfind
    cases hs
    exact h.setEntry (fun _ hv => h.clean e₁ hpos.1 hv) (fun _ => h.range e₁ hpos.1)
      (fun e' hne _ hr' => h.inum_ne hpos.1 hne hr') fun hl =>
        ⟨Nat.succ_pos _, (h.locked e₁ hl).2⟩
  case h_2 hfind =>
  split at hs
  case isFalse => cases hs
  case isTrue h0 =>
  cases hs
  refine h.setEntry (fun _ => nofun) (fun _ => hi) (fun e' _ _ hr' hc => ?_) fun hl => ?_
  · have hnot := List.find?_eq_none.mp hfind e' (List.mem_finRange e')
    simp only [decide_eq_true_eq] at hnot
    exact hnot ⟨hr', hc.symm⟩
  · exact absurd h0 (Nat.ne_of_gt (h.locked e hl).1)

theorem Inv.ilock (h : Inv L s) (hs : ilock L s e = some s') : Inv L s' := by
  unfold Writeback.ilock at hs
  split at hs
  case isTrue => cases hs
  case isFalse hok =>
  have hr : 0 < (s.entry e).ref := by
    have := not_or.mp hok
    omega
  split at hs
  case isTrue => cases hs
  case isFalse htype =>
  cases hs
  unfold ilockEntry at htype ⊢
  split
  case isTrue hv =>
    exact h.setEntry (fun _ hv' => h.clean e hr hv') (fun _ => h.range e hr)
      (fun e' hne _ hr' => h.inum_ne hr hne hr') fun _ => ⟨hr, hv⟩
  case isFalse hv =>
  rw [if_neg hv] at htype
  exact h.setEntry (fun _ _ => ⟨rfl, htype⟩) (fun _ => h.range e hr)
    (fun e' hne _ hr' => h.inum_ne hr hne hr') fun _ => ⟨hr, rfl⟩

theorem Inv.iunlock (h : Inv L s) (hs : iunlock s e = some s') : Inv L s' := by
  unfold Writeback.iunlock at hs
  split at hs
  case isTrue => cases hs
  case isFalse hok =>
  have hr : 0 < (s.entry e).ref := by
    have := not_or.mp hok
    omega
  cases hs
  exact h.setEntry (fun _ hv => h.clean e hr hv) (fun _ => h.range e hr)
    (fun e' hne _ hr' => h.inum_ne hr hne hr') nofun

theorem Inv.drop (h : Inv L s) (hl : (s.entry e).locked = false) :
    Inv L (s.setEntry e { s.entry e with ref := (s.entry e).ref - 1 }) := by
  have hpos : 0 < (s.entry e).ref - 1 → 0 < (s.entry e).ref := fun hr => by omega
  exact h.setEntry (fun hr hv => h.clean e (hpos hr) hv) (fun hr => h.range e (hpos hr))
    (fun e' hne hr hr' => h.inum_ne (hpos hr) hne hr') fun hc => nomatch hl.symm.trans hc

theorem Inv.iput (h : Inv L s) (hs : iput L s e = some s') : Inv L s' := by
  unfold Writeback.iput at hs
  split at hs
  case isTrue => cases hs
  case isFalse hok =>
  obtain ⟨hr, hl⟩ := not_or.mp hok
  replace hr : 0 < (s.entry e).ref := by omega
  replace hl : (s.entry e).locked = false := Bool.eq_false_iff.mpr hl
  obtain ⟨s₁, hs₁, rfl⟩ := Option.map_eq_some_iff.mp hs
  split at hs₁
  case isFalse =>
    cases hs₁
    exact h.drop hl
  case isTrue hfree =>
  obtain ⟨s₂, hs₂, rfl⟩ := Option.map_eq_some_iff.mp hs₁
  unfold State.run at hs₂
  split at hs₂
  case h_2 => cases hs₂
  case h_1 t hrun =>
  cases hs₂
  have hb := (back_iputFree (h.ready hr hfree.1)).of_ok hrun
  refine Inv.drop ?_ ?_
  · have hinv := h.change (x := { s.entry e with
      dip := t.inode L (s.entry e).inum, valid := false }) hb.good
      (fun e' hne hr' _ => h.others hr hb hne hr') (fun _ => nofun) (fun _ => h.range e hr)
      (fun e' hne _ hr' => h.inum_ne hr hne hr') fun hc => nomatch hl.symm.trans hc
    simpa only [State.setEntry, update_self, update_idem] using hinv
  · simp only [State.setEntry, update_self]
    exact hl

theorem Inv.ialloc (h : Inv L s) {type : Int16} {inum : ℕ}
    (htype : type = T_DIR ∨ type = T_FILE ∨ type = T_DEV) (hi : inum < L.ninodes)
    (hs : ialloc L s type inum = some s') : Inv L s' := by
  unfold Writeback.ialloc at hs
  split at hs
  case isFalse => cases hs
  case isTrue hfree =>
  cases hs
  refine ⟨good_ialloc hi h.good hfree htype, fun e hr hv => ?_, h.range, h.unique, h.locked⟩
  obtain ⟨hdip, hlive⟩ := h.clean e hr hv
  -- a valid entry is not of a free inode
  have hne : (s.entry e).inum ≠ inum := by
    rintro rfl
    rw [hdip] at hlive
    exact hlive hfree
  refine ⟨hdip.trans ?_, hlive⟩
  rw [dinode_putInode, if_neg hne]

theorem Inv.step {a : Action} (h : Inv L s) (hok : Allowed L a)
    (hs : step L devsw s a = some s') : Inv L s' := by
  cases a with
  | iget inum e => exact h.iget hok hs
  | idup e =>
    rw [Writeback.step] at hs
    split at hs
    case isTrue => cases hs
    case isFalse hr =>
    replace hr : 0 < (s.entry e).ref := by omega
    cases hs
    exact h.setEntry (fun _ hv => h.clean e hr hv) (fun _ => h.range e hr)
      (fun e' hne _ hr' => h.inum_ne hr hne hr') fun hl => ⟨Nat.succ_pos _, (h.locked e hl).2⟩
  | ilock e => exact h.ilock hs
  | iunlock e => exact h.iunlock hs
  | readi e off n =>
    rw [Writeback.step] at hs
    split at hs
    case isFalse => cases hs
    case isTrue hl =>
    obtain ⟨hr, hv⟩ := h.locked e hl
    refine h.run hl ((back_readi (h.ready hr hv) hok.1 hok.2).imp ?_) hs
    rintro _ t ⟨hb, heq⟩
    exact ⟨hb, by rw [heq]⟩
  | writei e src off n =>
    rw [Writeback.step] at hs
    split at hs
    case isFalse => cases hs
    case isTrue hl =>
      obtain ⟨hr, hv⟩ := h.locked e hl
      exact h.run hl (back_writei (h.ready hr hv) hok.1 hok.2) hs
  | update e major minor nlink =>
    rw [Writeback.step] at hs
    split at hs
    case isFalse => cases hs
    case isTrue hl =>
      obtain ⟨hr, hv⟩ := h.locked e hl
      exact h.run hl (back_assign (h.ready hr hv) major minor nlink) hs
  | ialloc type inum => exact h.ialloc hok.1 hok.2 hs
  | iput e => exact h.iput hs

theorem Init.inv (h : Init L s) : Inv L s := by
  have hnot : ∀ e, ¬0 < (s.entry e).ref := fun e => by
    rw [(h.empty e).1]
    exact Nat.lt_irrefl 0
  exact ⟨h.good, fun e hr => absurd hr (hnot e), fun e hr => absurd hr (hnot e),
    fun e _ hr => absurd hr (hnot e), fun e hl => nomatch (h.empty e).2.symm.trans hl⟩

/-- **The inode cache is write-through.** From a well-formed image without holes, whatever calls do:
an inode in the cache that is in use, valid and not locked has the fields of the inode on disk. An
entry that is used is locked, and then it is valid as well; and locking an entry that is not valid
reads it. -/
theorem write_through
    (h : Run.Reachable (step L devsw) (fun _ a => Allowed L a) (Init L) s) (e : Fin NINODE) :
    (0 < (s.entry e).ref → (s.entry e).valid = true → (s.entry e).locked = false →
      (s.entry e).dip = (plain s.disk).dinode L (s.entry e).inum) ∧
    ((s.entry e).locked = true → (s.entry e).valid = true ∧
      (s.entry e).dip = (plain s.disk).dinode L (s.entry e).inum) ∧
    ∀ s', (s.entry e).valid = false → step L devsw s (.ilock e) = some s' →
      (s'.entry e).valid = true ∧ (s'.entry e).dip = (plain s.disk).dinode L (s.entry e).inum := by
  have hinv : Inv L s := h.invariant (fun _ hs => Init.inv hs) fun _ _ _ hi hok hs => hi.step hok hs
  refine ⟨fun hr hv _ => (hinv.clean e hr hv).1, fun hl => ?_, fun s' hv hs => ?_⟩
  · obtain ⟨hr, hv⟩ := hinv.locked e hl
    exact ⟨hv, (hinv.clean e hr hv).1⟩
  rw [Writeback.step, Writeback.ilock] at hs
  split at hs
  case isTrue => cases hs
  case isFalse =>
  split at hs
  case isTrue => cases hs
  case isFalse =>
  cases hs
  rw [entry_setEntry_self, ilockEntry, if_neg (by rw [hv]; nofun)]
  exact ⟨rfl, rfl⟩

instance (L : Layout) (a : Action) : Decidable (Allowed L a) := by
  unfold Allowed
  split <;> infer_instance

/-- The image of `bareFs` with the root directory on disk, and nothing cached. -/
def bareImage : State where
  disk := putInode stdLayout bareFs.disk 1 ⟨T_DIR, 0, 0, 1, 0, fun _ => 0⟩
  entry _ := ⟨0, 0, false, false, freeInode⟩

theorem init_bareImage : Init stdLayout bareImage := by
  have hroot : 1 < stdLayout.ninodes := by decide
  have hview : (plain bareImage.disk).view stdLayout = bareFs.view stdLayout := by
    refine (view_putInode bareFs.disk _ hroot).trans ?_
    ext1
    · funext j
      rcases eq_or_ne j 1 with rfl | hj
      · dsimp only
        rw [update_self]
        exact inode_bareFs_one.symm
      have hcache : bareFs.icache j = none := if_neg hj
      dsimp only
      rw [update_of_ne hj]
      dsimp only [Fs.State.view, Fs.State.inode]
      rw [hcache]
      rfl
    · rfl
    · rfl
  refine ⟨?_, fun _ => ⟨rfl, rfl⟩⟩
  rw [hview]
  refine ⟨wellFormed_bareFs, noHoles_bareFs, fun j => ?_⟩
  rcases eq_or_ne j 1 with rfl | hj
  · rw [inode_bareFs_one]
    exact .inr (.inl rfl)
  · exact .inl (inode_bareFs_of_ne hj)

/-- Three bytes are written to the root directory, and it gets another link. -/
theorem write_through_root :
    ∃ s : State, (0 < (s.entry 0).ref ∧ (s.entry 0).valid = true ∧ (s.entry 0).locked = false ∧
      (s.entry 0).dip.size = 3 ∧ (s.entry 0).dip.nlink = 2) ∧
      (s.entry 0).dip = (plain s.disk).dinode stdLayout (s.entry 0).inum := by
  have hstart : Run.Reachable (step stdLayout noDevices) (fun _ a => Allowed stdLayout a)
      (Init stdLayout) bareImage := .start init_bareImage
  obtain ⟨s, hs, hq⟩ := hstart.exists_of_exec
    [.iget 1 0, .ilock 0, .writei 0 (fun _ => 97) 0 3, .update 0 0 0 2, .iunlock 0]
    (fun s : State => 0 < (s.entry 0).ref ∧ (s.entry 0).valid = true ∧ (s.entry 0).locked = false ∧
      (s.entry 0).dip.size = 3 ∧ (s.entry 0).dip.nlink = 2) (by decide +kernel)
  have hq := of_decide_eq_true hq
  exact ⟨s, hq, (write_through hs 0).1 hq.1 hq.2.1 hq.2.2.1⟩

end Writeback

end Xv6.Fs
