import Mathlib.Algebra.Order.BigOperators.Group.Finset
import Xv6.Fs.Offset

/-!
# `filewrite`

`filewrite` cuts a request into chunks of at most `chunkMax` bytes and hands them to `writei` one by
one. `writei` takes all of a chunk or nothing, but a chunk that is refused leaves the earlier ones
in the file. And `writei` passes on what a device driver returns, which has to be the count or
negative.
-/

namespace Xv6.Fs

open LittleEndian Hoare Splice Function

/-- A `struct file` whose type is `FD_INODE`. -/
structure OpenFile where
  inum : ℕ
  off : ℕ
  writable : Bool

/-- How `filewrite` ends. -/
inductive Ended where
  | ret (r : ℤ)
  /-- `panic("ilock: no type")`. -/
  | noType
  /-- `panic("short filewrite")`. -/
  | shortFilewrite
  deriving DecidableEq

section Functions

variable (L : Layout) (devsw : Devsw)

/-- Read the inode from disk if necessary. `false` is `panic("ilock: no type")`. -/
def ilock (i : ℕ) : FsM Bool := do
  let s ← get
  match s.icache i with
  | some _ => return true
  | none => do
    let ip := s.dinode L i
    setInode i ip
    return ip.type ≠ 0

/-- The loop of `filewrite`, at byte `i` of the request: how it ends, and `f->off`. The first
number bounds the rounds. -/
def filewriteLoop (inum : ℕ) (addr : ℕ → UInt8) (n : Int32) : ℕ → ℕ → ℕ → FsM (Ended × ℕ)
  | 0, i, off => return (.ret (if i = n.toInt then n.toInt else -1), off)
  | rounds + 1, i, off =>
    if (i : ℤ) < n.toInt then do
      let n1 := min (n.toInt.toNat - i) chunkMax
      let valid ← ilock L inum
      if valid = false then return (.noType, off)
      else do
        let r ← writei L devsw inum (fun k => addr (i + k)) off n1
        let off := if 0 < r then (off + r.toNat) % 2 ^ 32 else off
        if r < 0 then return (.ret (if i = n.toInt then n.toInt else -1), off)
        else if r ≠ n1 then return (.shortFilewrite, off)
        else filewriteLoop inum addr n rounds (i + r.toNat) off
    else return (.ret (if i = n.toInt then n.toInt else -1), off)

/-- Write to file `f`. -/
def filewrite (f : OpenFile) (addr : ℕ → UInt8) (n : Int32) : FsM (Ended × ℕ) :=
  if f.writable = false then return (.ret (-1), f.off)
  else filewriteLoop L devsw f.inum addr n n.toInt.toNat 0 f.off

end Functions

/-! ### The drivers -/

def CONSOLE : ℕ := 1

def NULL : ℕ := 3

def HELLO : ℕ := 7

def consolewrite (_buf : ℕ → UInt8) (n : ℕ) : ℤ := n

def nullwrite (_dst : ℕ → UInt8) (n : ℕ) : ℤ := n

def hellowrite (_buf : ℕ → UInt8) (_n : ℕ) : ℤ := 0

/-- `devsw[]` after `main` has called `consoleinit`, `helloinit`, `zeroinit`, `nullinit` and
`ticksinit`; those of `ZERO` and `TICKS` have no write function. -/
def mainDevsw (read : ℕ → Option (ℕ → ℤ × List UInt8)) : Devsw where
  read := read
  write m :=
    if m = CONSOLE then some consolewrite
    else if m = NULL then some nullwrite
    else if m = HELLO then some hellowrite
    else none

/-! ### What `writei` returns

No function below `writei` assigns to the type of an inode, nor to its device number. -/

section Short

theorem inode_of_cached {L : Layout} {i : ℕ} {s : State} {ip : Inode} (h : s.icache i = some ip) :
    s.inode L i = ip := by
  rw [State.inode, h, Option.getD_some]

theorem inode_of_not_cached {L : Layout} {i : ℕ} {s : State} (h : s.icache i = none) :
    s.inode L i = s.dinode L i := by
  rw [State.inode, h, Option.getD_none]

/-- Inode `i` is in memory with this type and major number. -/
def Labelled (i : ℕ) (s : State) (l : Int16 × Int16) : Prop :=
  ∃ ip, s.icache i = some ip ∧ (ip.type, ip.major) = l

/-- The program keeps the type and major number of inode `i`. -/
def Keeps {α : Type} (i : ℕ) (p : FsM α) : Prop :=
  ∀ l, Via (Labelled i) p (fun _ l' => l = l') (fun _ => True) l

variable {L : Layout} {i j : ℕ} {α β : Type}

theorem Keeps.bind {p : FsM α} {f : α → FsM β} (hp : Keeps i p) (hf : ∀ a, Keeps i (f a)) :
    Keeps i (p >>= f) := by
  intro l
  refine Via.bind (hp l) ?_
  rintro a _ rfl
  exact hf a l

theorem Keeps.pure (a : α) : Keeps i (pure a) := fun _ => Via.pure rfl

theorem Keeps.ite {c : Prop} [Decidable c] {p q : FsM α} (hp : Keeps i p) (hq : Keeps i q) :
    Keeps i (if c then p else q) := fun l => Via.ite (fun _ => hp l) fun _ => hq l

theorem Keeps.throw (e : Panic) : Keeps i (throw e : FsM α) := fun _ => Via.throw trivial

theorem keeps_bread (b : ℕ) : Keeps i (bread b) := fun l _ hs => ⟨l, hs, rfl⟩

theorem keeps_logWrite (b : ℕ) (x : Block) : Keeps i (logWrite b x) := fun l _ hs => ⟨l, hs, rfl⟩

theorem keeps_balloc : Keeps i (balloc L) := by
  intro l s hs
  unfold balloc
  rw [wp_bind, wp_get]
  cases findFree L s.disk with
  | none => trivial
  | some b => exact ⟨l, hs, rfl⟩

theorem keeps_modify {g : Inode → Inode} (hg : ∀ ip, ((g ip).type, (g ip).major) =
    (ip.type, ip.major)) : Keeps i (inode L i >>= fun ip => setInode i (g ip)) := by
  rintro l s ⟨ip, hip, rfl⟩
  have hread : s.inode L i = ip := inode_of_cached hip
  refine ⟨(ip.type, ip.major), ⟨g ip, ?_, hg ip⟩, rfl⟩
  change (s.cache i (g (s.inode L i))).icache i = some (g ip)
  rw [hread]
  exact update_self ..

theorem keeps_inode : Keeps i (inode L i) := fun l _ hs => ⟨l, hs, rfl⟩

theorem keeps_iupdate : Keeps i (iupdate L i) :=
  (keeps_bread _).bind fun _ => keeps_inode.bind fun _ => keeps_logWrite _ _

theorem keeps_bmapAddr (k : ℕ) : Keeps i (bmapAddr L i k) := by
  refine keeps_inode.bind fun ip => Keeps.ite ?_ (.pure _)
  refine keeps_balloc.bind fun addr => ?_
  have h := (keeps_modify (L := L) (i := i) (g := fun ip => ip.setAddr k addr)
    fun _ => rfl).bind fun _ => Keeps.pure addr
  rwa [bind_assoc] at h

theorem keeps_bmapEntry (addr j : ℕ) : Keeps i (bmapEntry L addr j) := by
  unfold bmapEntry
  refine (keeps_bread _).bind fun bp => Keeps.ite ?_ (.pure _)
  exact keeps_balloc.bind fun _ => (keeps_logWrite _ _).bind fun _ => .pure _

theorem keeps_bmap (bn : ℕ) : Keeps i (bmap L i bn) := by
  unfold bmap
  refine Keeps.ite (keeps_bmapAddr bn) (Keeps.ite ?_ (.throw _))
  exact (keeps_bmapAddr _).bind fun addr => keeps_bmapEntry addr _

theorem keeps_writeLoop {n : ℕ} {src : ℕ → UInt8} :
    ∀ fuel tot off, Keeps i (writeLoop L i n src fuel tot off) := by
  intro fuel
  induction fuel with
  | zero => exact fun _ off => .pure off
  | succ fuel ih =>
  intro tot off
  rw [writeLoop]
  refine Keeps.ite ?_ (.pure off)
  exact (keeps_bmap _).bind fun _ => (keeps_bread _).bind fun _ =>
    (keeps_logWrite _ _).bind fun _ => ih _ _

theorem keeps_growSize (n off : ℕ) : Keeps i (growSize L i n off) := by
  rintro l s ⟨ip, hip, rfl⟩
  have hread : s.inode L i = ip := inode_of_cached hip
  unfold growSize
  rw [wp_bind]
  change wp (if n > 0 ∧ off > (s.inode L i).size.toNat then _ else _) _ _ _
  rw [hread]
  split
  · rw [wp_bind]
    refine keeps_iupdate (ip.type, ip.major) _ ⟨{ ip with size := UInt32.ofNat off }, ?_, rfl⟩
    exact update_self ..
  · exact ⟨_, ⟨ip, hip, rfl⟩, rfl⟩

/-- The label of a `hello` device. -/
def IsHello (l : Int16 × Int16) : Prop := l.1 = T_DEV ∧ l.2.toInt = HELLO

variable {read : ℕ → Option (ℕ → ℤ × List UInt8)} {l : Int16 × Int16}

theorem write_mainDevsw {m n : ℕ} {src : ℕ → UInt8} {write : (ℕ → UInt8) → ℕ → ℤ}
    (h : (mainDevsw read).write m = some write) :
    (m = HELLO → write src n = 0) ∧ (m ≠ HELLO → write src n = n) := by
  have hne : HELLO ≠ CONSOLE ∧ HELLO ≠ NULL := by decide
  dsimp only [mainDevsw] at h
  split_ifs at h with h₁ h₂ h₃ <;> cases h
  · exact ⟨fun hm => absurd (hm ▸ h₁) hne.1, fun _ => rfl⟩
  · exact ⟨fun hm => absurd (hm ▸ h₂) hne.2, fun _ => rfl⟩
  · exact ⟨fun _ => rfl, fun hm => absurd h₃ hm⟩

theorem via_writei_label (src : ℕ → UInt8) (off n : ℕ) :
    Via (Labelled i) (writei L (mainDevsw read) i src off n)
      (fun r l' => l = l' ∧ (IsHello l → r = 0) ∧ (¬ IsHello l → r = n ∨ r = -1))
      (fun _ => ¬ IsHello l) l := by
  rintro s ⟨ip, hip, rfl⟩
  have hread : s.inode L i = ip := inode_of_cached hip
  have hlab : Labelled i s (ip.type, ip.major) := ⟨ip, hip, rfl⟩
  refine wp_bind_of_ok (inode_run s i) ?_
  rw [hread]
  by_cases hdev : ip.type = T_DEV
  · rw [if_pos hdev]
    split
    case isTrue hrange =>
      refine ⟨_, hlab, rfl, fun hh => ?_, fun _ => .inr rfl⟩
      -- 7 is the number of a device
      have hmajor : ip.major.toInt = 7 := hh.2
      have hD : NDEV = 10 := rfl
      rw [Int16.lt_iff_toInt_lt] at hrange
      have h0 : (0 : Int16).toInt = 0 := rfl
      omega
    case isFalse hrange =>
    have hpos : 0 ≤ ip.major.toInt := by
      have h0 : (0 : Int16).toInt = 0 := rfl
      rw [Int16.lt_iff_toInt_lt] at hrange
      omega
    have hm : ip.major.toInt.toNat = HELLO ↔ IsHello (ip.type, ip.major) := by
      have hH : HELLO = 7 := rfl
      simp only [IsHello, hdev, true_and, hH]
      omega
    split
    case h_1 hnone =>
      refine ⟨_, hlab, rfl, fun hh => ?_, fun _ => .inr rfl⟩
      rw [hm.mpr hh] at hnone
      cases hnone
    case h_2 write hwrite =>
      obtain ⟨h₁, h₂⟩ := @write_mainDevsw read _ n src write hwrite
      exact ⟨_, hlab, rfl, fun hh => h₁ (hm.mpr hh), fun hh => .inl (h₂ (hh ∘ hm.mp))⟩
  · have hnot : ¬ IsHello (ip.type, ip.major) := fun hh => hdev hh.1
    have hother : ∀ {r : ℤ}, r = n ∨ r = -1 → (IsHello (ip.type, ip.major) → r = 0) ∧
          (¬ IsHello (ip.type, ip.major) → r = n ∨ r = -1) :=
      fun hr => ⟨fun hh => absurd hh hnot, fun _ => hr⟩
    rw [if_neg hdev]
    split
    · exact ⟨_, hlab, rfl, hother (.inr rfl)⟩
    split
    · exact ⟨_, hlab, rfl, hother (.inr rfl)⟩
    refine Via.bind (((keeps_writeLoop n 0 off) _).mono (fun _ _ h => h) fun _ _ => hnot)
      (R := fun _ l' => (ip.type, ip.major) = l') ?_ s hlab
    rintro off' _ rfl
    refine Via.bind (((keeps_growSize n off') _).mono (fun _ _ h => h) fun _ _ => hnot) ?_
    rintro _ _ rfl
    exact Via.pure ⟨rfl, hother (.inl rfl)⟩

theorem ilock_run (s : State) : ∃ t, Labelled i t ((s.inode L i).type, (s.inode L i).major) ∧
    (ilock L i s = .ok (true, t) ∨ (s.inode L i).type = 0 ∧ ilock L i s = .ok (false, t)) := by
  have hget : (get : FsM State) s = .ok (s, s) := rfl
  cases hip : s.icache i with
  | some ip =>
    have hread : s.inode L i = ip := inode_of_cached hip
    refine ⟨s, ⟨ip, hip, by rw [hread]⟩, .inl ?_⟩
    rw [ilock, bind_of_ok hget, hip]
    rfl
  | none =>
  have hread : s.inode L i = s.dinode L i := inode_of_not_cached hip
  have hrun : ilock L i s = .ok (decide ((s.dinode L i).type ≠ 0), s.cache i (s.dinode L i)) := by
    rw [ilock, bind_of_ok hget, hip]
    rfl
  refine ⟨s.cache i (s.dinode L i), ⟨s.dinode L i, update_self .., by rw [hread]⟩, ?_⟩
  rw [hrun, hread]
  by_cases h0 : (s.dinode L i).type = 0
  · exact .inr ⟨h0, by rw [decide_eq_false (not_not_intro h0)]⟩
  · exact .inl (by rw [decide_eq_true h0])

theorem wp_filewriteLoop_short {inum : ℕ} {addr : ℕ → UInt8} {n : Int32} :
    ∀ rounds i off s, ((s.inode L inum).type, (s.inode L inum).major) = l →
      n.toInt.toNat ≤ i + rounds → wp (filewriteLoop L (mainDevsw read) inum addr n rounds i off)
        (fun o _ => o.1 = .shortFilewrite ↔ IsHello l ∧ (i : ℤ) < n.toInt)
        (fun _ => ¬ IsHello l) s := by
  intro rounds
  induction rounds with
  | zero =>
    intro i off s _ hrounds
    refine iff_of_false (fun h => by cases h) ?_
    rintro ⟨-, hlt⟩
    omega
  | succ rounds ih =>
  intro i off s hl hrounds
  rw [filewriteLoop]
  split
  case isFalse hlt => exact iff_of_false (fun h => by cases h) fun h => hlt h.2
  case isTrue hlt =>
  obtain ⟨t, ht, hrun | ⟨h0, hrun⟩⟩ := ilock_run (L := L) (i := inum) s
  · rw [hl] at ht
    refine wp_bind_of_ok hrun ?_
    rw [if_neg (by decide), wp_bind]
    refine (via_writei_label _ off _ t ht).imp ?_
    rintro r u ⟨_, ⟨ip, hip, hlab⟩, rfl, hhello, hother⟩
    have hn1 : 0 < min (n.toInt.toNat - i) chunkMax := by
      have hmax : chunkMax = 1536 := rfl
      omega
    by_cases hh : IsHello l
    · -- the driver returns 0
      rw [hhello hh, if_neg (by decide), if_pos (by omega)]
      exact iff_of_true rfl ⟨hh, hlt⟩
    have hno : ¬ (IsHello l ∧ (i : ℤ) < n.toInt) := fun h => hh h.1
    rcases hother hh with rfl | rfl
    · rw [if_neg (by omega), if_neg (by simp)]
      have hseen : ((u.inode L inum).type, (u.inode L inum).major) = l := by
        rw [inode_of_cached hip]
        exact hlab
      refine (ih _ _ u hseen (by omega)).imp fun o _ ho => ?_
      rw [ho]
      exact iff_of_false (fun h => hh h.1) hno
    · rw [if_pos (by decide)]
      exact iff_of_false (fun h => by cases h) hno
  · -- a free inode is not a device
    have hh : ¬ IsHello l := by
      rw [← hl]
      intro hh
      have htype : (s.inode L inum).type = T_DEV := hh.1
      rw [h0] at htype
      exact absurd htype (by decide)
    refine wp_bind_of_ok hrun ?_
    rw [if_pos rfl]
    exact iff_of_false (fun h => by cases h) fun h => hh h.1

/-- **The panic of a short write.** With the drivers that `main` registers, `filewrite` reaches
`panic("short filewrite")` exactly for a positive count on a writable file of the `hello` device,
whose write function returns 0. No assumption on the file system is needed, on the offset or on
the count. -/
theorem short_filewrite_iff (L : Layout) (read : ℕ → Option (ℕ → ℤ × List UInt8)) (f : OpenFile)
    (addr : ℕ → UInt8) (n : Int32) (s : State) :
    (∃ off s', filewrite L (mainDevsw read) f addr n s = .ok ((.shortFilewrite, off), s')) ↔
      f.writable = true ∧
        ((s.inode L f.inum).type = T_DEV ∧ (s.inode L f.inum).major.toInt = HELLO) ∧
        0 < n.toInt := by
  have hloop := @wp_filewriteLoop_short L read _ f.inum addr n n.toInt.toNat 0 f.off s rfl
    (by omega)
  rw [filewrite]
  constructor
  · rintro ⟨off, s', hrun⟩
    split at hrun
    case isTrue => cases hrun
    case isFalse hw =>
      obtain ⟨hh, hn⟩ := (hloop.of_ok hrun).mp rfl
      exact ⟨Bool.not_eq_false _ ▸ hw, hh, hn⟩
  · rintro ⟨hw, hh, hn⟩
    obtain ⟨⟨o, off⟩, s', hrun, ho⟩ := wp_ok.mp (hloop.mono (fun _ _ h => h) fun _ h => h hh)
    obtain rfl : o = .shortFilewrite := ho.mpr ⟨hh, hn⟩
    refine ⟨off, s', ?_⟩
    rw [if_neg (by rw [hw]; decide), hrun]

def helloFs : State := bareFs.cache 2 ⟨T_DEV, 7, 0, 1, 0, fun _ => 0⟩

theorem hello_write_panics : ∃ off s',
    filewrite stdLayout (mainDevsw fun _ => none) ⟨2, 0, true⟩ (fun _ => 65) 1 helloFs =
      .ok ((.shortFilewrite, off), s') :=
  ⟨0, helloFs, rfl⟩

end Short

/-! ### Chunks of a regular file -/

section Chunks

variable {L : Layout} {i : ℕ} {v w u : View} {devsw : Devsw} {off n m j : ℕ} {addr : ℕ → UInt8}

theorem Written.append (h : Written L i off j addr v w)
    (h' : Written L i (off + j) m (fun k => addr (j + k)) w u) :
    Written L i off (j + m) addr v u where
  wf := h'.wf
  inode_ne k hk := (h'.inode_ne k hk).trans (h.inode_ne k hk)
  inode_self := by
    rw [h'.inode_self, h.inode_self]
  size_eq := by
    rw [h'.size_eq, h.size_eq]
    omega
  byte_self k := by
    rw [h'.byte_self, h.byte_self]
    by_cases hlast : off + j ≤ k ∧ k < off + j + m
    · rw [if_pos hlast, if_pos (by omega)]
      congr 1
      omega
    · rw [if_neg hlast]
      exact if_congr (by omega) rfl rfl
  byte_ne k hk b := (h'.byte_ne k hk b).trans (h.byte_ne k hk b)
  slot a ha := by
    have hmid := h.slot a ha
    rw [h'.slot a (hmid ▸ ha), hmid]
  filled k h₁ h₂ := by
    by_cases hk : k < off + j
    · have hmid := h.filled k h₁ hk
      rw [h'.slot _ hmid]
      exact hmid
    · exact h'.filled k (by omega) (by omega)

theorem Written.refl (addr : ℕ → UInt8) (hwf : WellFormed L v)
    (hoff : off ≤ (v.inode i).size.toNat) : Written L i off 0 addr v v where
  wf := hwf
  inode_ne _ _ := rfl
  inode_self := rfl
  size_eq := by omega
  byte_self k := by rw [if_neg (by omega)]
  byte_ne _ _ _ := rfl
  slot _ _ := rfl
  filled k h₁ h₂ := absurd h₂ (by omega)

theorem Written.type_eq (h : Written L i off n addr v w) : (w.inode i).type = (v.inode i).type := by
  rw [h.inode_self]

/-- Slots that could be filled fitted before: each empty one took a block that was free. -/
theorem fits_of_filled {W : Finset Slot} (hv : WellFormed L v) (hw : WellFormed L w)
    (hslot : ∀ a, v.slot a ≠ 0 → w.slot a = v.slot a) (h : ∀ a ∈ W, w.slot a ≠ 0) :
    Fits L W v := by
  refine Finset.card_le_card_of_injOn w.slot (fun a ha => ?_) fun a ha b _ hab =>
    hw.owned.inj a b (h a (Finset.mem_filter.mp ha).1) hab
  obtain ⟨ha, hzero⟩ := Finset.mem_filter.mp ha
  have hbounds := hw.bounds (h a ha)
  refine Finset.mem_filter.mpr
    ⟨Finset.mem_range.mpr hbounds.2, Bool.eq_false_iff.mpr fun hbit => ?_⟩
  obtain ⟨b, hb⟩ := hv.owned.complete _ (h a ha) hbounds hbit
  have hne : v.slot b ≠ 0 := hb ▸ h a ha
  have hab : a = b := hw.owned.inj a b (h a ha) (hb.symm.trans (hslot b hne).symm)
  exact hne (hab ▸ hzero)

theorem Written.fits (h : Written L i off n addr v w) (hwf : WellFormed L v) (hn : 0 < n) :
    Fits L (wantedBytes i off n) v := by
  have hB : BSIZE = 512 := rfl
  refine fits_of_filled hwf h.wf h.slot fun a ha => ?_
  obtain ⟨bn, hbn, ha⟩ := Finset.mem_biUnion.mp ha
  rw [Finset.mem_Ico, hB] at hbn
  have hfile := h.filled (max off (bn * 512)) (by omega) (by omega)
  rw [show max off (bn * 512) / BSIZE = bn by rw [hB]; omega] at hfile
  unfold wanted at ha
  unfold fileSlot at hfile
  split at ha
  case isTrue hd =>
    rw [if_pos hd] at hfile
    rwa [Finset.mem_singleton.mp ha]
  case isFalse hd =>
    rw [if_neg hd] at hfile
    rcases Finset.mem_insert.mp ha with rfl | ha
    · exact fun hc => hfile (if_pos (.inl hc))
    · rwa [Finset.mem_singleton.mp ha]

theorem via_ilock {E : Panic → Prop} (hi : i < L.ninodes) (hlive : (v.inode i).type ≠ 0) :
    Via (Views L) (ilock L i) (fun b w => b = true ∧ w = v) E v := by
  rintro s rfl
  rw [view_inode hi] at hlive
  unfold ilock
  rw [wp_bind, wp_get]
  cases hip : s.icache i with
  | some ip => exact ⟨_, rfl, rfl, rfl⟩
  | none =>
  have hread : s.inode L i = s.dinode L i := inode_of_not_cached hip
  refine ⟨(s.cache i (s.dinode L i)).view L, rfl, decide_eq_true (hread ▸ hlive), ?_⟩
  rw [view_setInode hi, ← hread, ← view_inode hi, update_eq_self]

theorem wantedBytes_subset (h : j + m ≤ n) : wantedBytes i (off + j) m ⊆ wantedBytes i off n := by
  refine Finset.biUnion_subset_biUnion_of_subset_left _ (Finset.Ico_subset_Ico ?_ ?_)
  · exact Nat.div_le_div_right (by omega)
  · exact Nat.div_le_div_right (by omega)

/-- The slots that a request of `n` bytes may fill before it is refused. -/
def reachedSlots (i off n : ℕ) : Finset Slot :=
  wantedBytes i off (min n (MAXFILE * BSIZE - off))

/-- There are too few blocks for a request whose first chunk is not refused. -/
def Full (L : Layout) (i off n : ℕ) (v : View) : Prop :=
  ¬ Fits L (reachedSlots i off n) v ∧ 0 < n ∧ off + min n chunkMax ≤ MAXFILE * BSIZE

theorem not_full (h : off + n ≤ MAXFILE * BSIZE ∧ (n = 0 ∨ Fits L (wantedBytes i off n) v) ∨
    MAXFILE * BSIZE < off + min n chunkMax) : ¬ Full L i off n v := by
  rintro ⟨hfull, hpos, hle⟩
  rcases h with ⟨hroom, hzero | hfits⟩ | hlarge
  · omega
  · refine hfull ?_
    rwa [reachedSlots, min_eq_left (by omega)]
  · omega

/-- After `j` bytes of a request of `n`, between two chunks. -/
structure Stage (L : Layout) (i off n : ℕ) (addr : ℕ → UInt8) (v : View) (j : ℕ) (w : View) :
    Prop where
  le : j ≤ n
  written : Written L i off j addr v w
  first : j = 0 ∨ min n chunkMax ≤ j ∧ off + j ≤ MAXFILE * BSIZE
  fits : Fits L (reachedSlots i off n) v → Fits L (reachedSlots i off n) w

theorem Stage.via_writei (hi : i < L.ninodes) (htype : (v.inode i).type = T_FILE)
    (hoff : off < 2 ^ 32) (h : Stage L i off n addr v j w) (hj : j < n) :
    Via (Views L) (writei L devsw i (fun k => addr (j + k)) (off + j) (min (n - j) chunkMax))
      (fun r u => (r = -1 ∧ u = w ∧ MAXFILE * BSIZE < off + j + min (n - j) chunkMax) ∨
        (r = (min (n - j) chunkMax : ℕ) ∧ Stage L i off n addr v (j + min (n - j) chunkMax) u))
      (fun _ => Full L i off n v) w := by
  have hC : chunkMax = 1536 := rfl
  have hM : MAXFILE * BSIZE = 71680 := rfl
  have hlive : (w.inode i).type ≠ 0 ∧ (w.inode i).type ≠ T_DEV :=
    live_of_file (h.written.type_eq.trans htype)
  have hsize := h.written.size_eq
  have hfirst := h.first
  set n1 := min (n - j) chunkMax with hn1
  by_cases href : WriteRefused (w.inode i).size.toNat (off + j) n1
  · have hlarge : MAXFILE * BSIZE < off + j + n1 := by
      rcases href with hr | hr | hr
      · omega
      · omega
      · exact hr
    refine (via_writei_refused devsw _ hi hlive.2 (by omega) (by omega) href).mono ?_ fun _ h => h
    rintro r u ⟨hr, hu⟩
    exact .inl ⟨hr, hu, hlarge⟩
  have hroom : off + j + n1 ≤ MAXFILE * BSIZE := not_lt.mp fun hc => href (.inr (.inr hc))
  have hsub : wantedBytes i (off + j) n1 ⊆ reachedSlots i off n :=
    wantedBytes_subset (by omega)
  refine (Fs.via_writei devsw (fun k => addr (j + k)) hi h.written.wf hlive.1 hlive.2
    (by omega) (by omega) href).mono ?_ fun e he =>
    ⟨fun hf => he.2 _ hsub (h.fits hf), by omega, by omega⟩
  rintro r u ⟨hr, hnew, hfits⟩
  refine .inr ⟨hr, ?_, h.written.append hnew, .inr ⟨?_, ?_⟩, fun hf => ?_⟩
  · omega
  · omega
  · omega
  · exact hfits _ hsub (h.fits hf)

/-- How a request ends that does not run out of blocks: with all of it written, or before a chunk
that ends past the largest file. -/
structure Finished (L : Layout) (i off n : ℕ) (addr : ℕ → UInt8) (v : View) (o : Ended × ℕ)
    (w : View) (j : ℕ) : Prop where
  stage : Stage L i off n addr v j w
  off_eq : o.2 = off + j
  ended : j = n ∧ o.1 = .ret n ∨
    j < n ∧ o.1 = .ret (-1) ∧ MAXFILE * BSIZE < off + j + min (n - j) chunkMax

theorem via_filewriteLoop (hi : i < L.ninodes) (htype : (v.inode i).type = T_FILE)
    (hoff : off < 2 ^ 32) {c : Int32} (hc : c.toInt = n) :
    ∀ rounds j w, Stage L i off n addr v j w → n ≤ j + rounds →
      Via (Views L) (filewriteLoop L devsw i addr c rounds j (off + j))
        (fun o u => ∃ k, Finished L i off n addr v o u k)
        (fun _ => Full L i off n v) w := by
  have hM : MAXFILE * BSIZE = 71680 := rfl
  have hC : chunkMax = 1536 := rfl
  intro rounds
  induction rounds with
  | zero =>
    intro j w h hrounds
    have hend : j = n := by
      have := h.le
      omega
    rw [filewriteLoop, hc, hend, if_pos rfl]
    exact Via.pure ⟨n, hend ▸ h, rfl, .inl ⟨rfl, rfl⟩⟩
  | succ rounds ih =>
  intro j w h hrounds
  have hle := h.le
  rw [filewriteLoop, hc]
  refine Via.ite (fun hlt => ?_) fun hge => ?_
  · have hj : j < n := by omega
    have hlive := (live_of_file (h.written.type_eq.trans htype)).1
    rw [Int.toNat_natCast]
    refine Via.bind (via_ilock hi hlive) ?_
    rintro _ _ ⟨rfl, rfl⟩
    rw [if_neg (by decide)]
    refine Via.bind (h.via_writei hi htype hoff hj) ?_
    rintro r u (⟨rfl, rfl, hlarge⟩ | ⟨rfl, hnext⟩)
    · rw [if_pos (by decide), if_neg (by omega)]
      exact Via.pure ⟨j, h, rfl, .inr ⟨hj, rfl, hlarge⟩⟩
    have hroom := hnext.first
    have hmod : (off + j + min (n - j) chunkMax) % 2 ^ 32 =
        off + (j + min (n - j) chunkMax) := by omega
    rw [if_neg (by omega), if_neg (by simp), if_pos (by omega), Int.toNat_natCast, hmod]
    exact ih _ u hnext (by omega)
  · have hend : j = n := by omega
    rw [hend, if_pos rfl]
    exact Via.pure ⟨n, hend ▸ h, rfl, .inl ⟨rfl, rfl⟩⟩

theorem via_filewrite (devsw : Devsw) (addr : ℕ → UInt8) {f : OpenFile}
    (hi : f.inum < L.ninodes) (hwf : WellFormed L v)
    (htype : (v.inode f.inum).type = T_FILE) (hw : f.writable = true)
    (hoff : f.off ≤ (v.inode f.inum).size.toNat) {c : Int32} (hc : c.toInt = n) :
    Via (Views L) (filewrite L devsw f addr c)
      (fun o u => ∃ k, Finished L f.inum f.off n addr v o u k)
      (fun _ => Full L f.inum f.off n v) v := by
  have hlt := UInt32.toNat_lt (v.inode f.inum).size
  rw [filewrite, if_neg (by rw [hw]; decide), hc, Int.toNat_natCast]
  exact via_filewriteLoop hi htype (hoff.trans_lt hlt) hc n 0 v
    ⟨Nat.zero_le n, .refl addr hwf hoff, .inl rfl, fun h => h⟩ (Nat.le_add_left n 0)

end Chunks

/-! ### All or nothing -/

/-- The request is carried out, as by one call of `writei`, or it leaves no trace. -/
def AllOrNothing (L : Layout) (devsw : Devsw) (f : OpenFile) (addr : ℕ → UInt8) (n : Int32)
    (s : State) : Prop :=
  ∃ r off s', filewrite L devsw f addr n s = .ok ((.ret r, off), s') ∧
    (r = n.toInt ∧ off = f.off + n.toInt.toNat ∧
        (s'.view L).contents f.inum =
          splice ((s.view L).contents f.inum) f.off ((List.range n.toInt.toNat).map addr) ∧
        (∀ r₁ s₁, writei L devsw f.inum addr f.off n.toInt.toNat s = .ok (r₁, s₁) →
          (s'.view L).contents f.inum = (s₁.view L).contents f.inum) ∨
      r = -1 ∧ off = f.off ∧ (s'.view L).contents f.inum = (s.view L).contents f.inum ∧
        ((s'.view L).inode f.inum).size = ((s.view L).inode f.inum).size)

section Requests

variable {L : Layout} {devsw : Devsw} {f : OpenFile} {addr : ℕ → UInt8} {n : Int32} {s : State}

theorem contents_writei {off m : ℕ} {i : ℕ} {r : ℤ} {s₁ : State} (hi : i < L.ninodes)
    (hwf : WellFormed L (s.view L)) (htype : ((s.view L).inode i).type = T_FILE)
    (hoff : off ≤ ((s.view L).inode i).size.toNat) (hm : m < 2 ^ 32)
    (hroom : m = 0 ∨ off + m ≤ MAXFILE * BSIZE)
    (hrun : writei L devsw i addr off m s = .ok (r, s₁)) :
    (s₁.view L).contents i = splice ((s.view L).contents i) off ((List.range m).map addr) := by
  have hlt := UInt32.toNat_lt ((s.view L).inode i).size
  obtain ⟨hlive, hdev⟩ := live_of_file htype
  by_cases href : WriteRefused ((s.view L).inode i).size.toNat off m
  · -- only a request for no byte at all, at an offset past the largest file
    have hM : MAXFILE * BSIZE = 71680 := rfl
    have hzero : m = 0 := by
      rcases href with hr | hr | hr <;> omega
    obtain ⟨_, rfl, -, hsame⟩ := (via_writei_refused devsw addr
      (E := fun _ => True) hi hdev (by omega) hm href s rfl).of_ok hrun
    rw [hsame, hzero]
    exact (Written.refl addr hwf hoff).contents_eq hoff
  · obtain ⟨_, rfl, -, hwritten, -⟩ :=
      (via_writei devsw addr hi hwf hlive hdev (by omega) hm href s rfl).of_ok hrun
    exact hwritten.contents_eq hoff

/-- **A write is all or nothing, but for one case.** On a writable regular file of a well-formed
file system, at an offset not beyond the size and for every count, `filewrite` returns if there are
blocks enough for what it reaches. It is all or nothing exactly if the request ends within the
largest file and there are blocks enough for it, or if its first chunk already ends past the
largest file. Otherwise the file system runs out of blocks, or the chunks before the one that is
refused stay written, with the offset past them. -/
theorem all_or_nothing_iff (hi : f.inum < L.ninodes) (hwf : WellFormed L (s.view L))
    (htype : ((s.view L).inode f.inum).type = T_FILE) (hw : f.writable = true)
    (hoff : f.off ≤ ((s.view L).inode f.inum).size.toNat) (hn : 0 ≤ n.toInt) :
    (Fits L (reachedSlots f.inum f.off n.toInt.toNat) (s.view L) →
      ∃ o s', filewrite L devsw f addr n s = .ok (o, s')) ∧ (AllOrNothing L devsw f addr n s ↔
      f.off + n.toInt.toNat ≤ MAXFILE * BSIZE ∧
          (n = 0 ∨ Fits L (wantedBytes f.inum f.off n.toInt.toNat) (s.view L)) ∨
        MAXFILE * BSIZE < f.off + min n.toInt.toNat chunkMax) := by
  have hc : n.toInt = (n.toInt.toNat : ℕ) := by omega
  have hlt : n.toInt < 2 ^ 31 := n.toInt_lt
  have hC : chunkMax = 1536 := rfl
  have hn0 : n = 0 ↔ n.toInt.toNat = 0 := by
    rw [← Int32.toInt_inj, Int32.toInt_zero]
    omega
  have hvia := via_filewrite devsw addr hi hwf htype hw hoff hc
  rw [hn0]
  set c := n.toInt.toNat with hcdef
  refine ⟨fun hfits => ?_, fun h => ?_, fun hcond => ?_⟩
  · obtain ⟨o, s', -, hrun, -⟩ :=
      (hvia.mono (fun _ _ h => h) fun _ h => h.1 hfits).exists_ok rfl
    exact ⟨o, s', hrun⟩
  · obtain ⟨r, off, s', hrun, h⟩ := h
    obtain ⟨_, rfl, j, hfin⟩ := (hvia s rfl).of_ok hrun
    have hfirst := hfin.stage.first
    rcases hfin.ended with ⟨hj, hret⟩ | ⟨hj, hret, hlarge⟩
    · rw [hj] at hfirst
      rcases Nat.eq_zero_or_pos c with hzero | hpos
      · omega
      · exact .inl ⟨by omega, .inr ((hj ▸ hfin.stage.written).fits hwf hpos)⟩
    -- a negative count is not the request's, so that the offset has not moved
    cases hret
    have hoffeq : off = f.off + j := hfin.off_eq
    rcases h with ⟨hr, -⟩ | ⟨-, hsame, -, -⟩
    · omega
    · have hzero : j = 0 := by omega
      subst hzero
      exact .inr hlarge
  obtain ⟨⟨o, off⟩, s', _, hrun, rfl, j, hfin⟩ :=
    (hvia.mono (fun _ _ h => h) fun _ => not_full hcond).exists_ok rfl
  have hfirst := hfin.stage.first
  have hoffeq : off = f.off + j := hfin.off_eq
  have hcontents := hfin.stage.written.contents_eq hoff
  rcases hfin.ended with ⟨hj, hret⟩ | ⟨hj, hret, hlarge⟩
  · obtain rfl : o = .ret (c : ℤ) := hret
    rw [hj] at hoffeq hcontents
    refine ⟨c, off, s', hrun, .inl ⟨hc.symm, hoffeq, hcontents, fun r₁ s₁ hone => ?_⟩⟩
    rw [hcontents]
    exact (contents_writei hi hwf htype hoff (by omega) (by omega) hone).symm
  obtain rfl : o = .ret (-1) := hret
  have hzero : j = 0 := by omega
  subst hzero
  have hsize := hfin.stage.written.size_eq
  refine ⟨-1, off, s', hrun, .inr ⟨rfl, hoffeq, ?_, UInt32.toNat_inj.mp (by omega)⟩⟩
  rw [hcontents]
  exact ((Written.refl addr hwf hoff).contents_eq hoff).symm

theorem fits_bareFile {W : Finset Slot} (hW : W.card ≤ 1941) :
    Fits stdLayout W (bareFile.view stdLayout) := by
  have hslot : (bareFile.view stdLayout).slot = (bareFs.view stdLayout).slot :=
    funext fun a => (slot_bareFile a).trans (slot_bareFs a).symm
  have hbit : (bareFile.view stdLayout).bit = (bareFs.view stdLayout).bit := rfl
  exact (fits_bareFs hW).of_eq hslot hbit

theorem card_wantedBytes_le (i off n : ℕ) :
    (wantedBytes i off n).card ≤ ((off + n + BSIZE - 1) / BSIZE - off / BSIZE) * 2 := by
  rw [← Nat.card_Ico]
  refine Finset.card_biUnion_le_card_mul _ _ 2 fun bn _ => ?_
  unfold wanted
  split
  · exact Nat.le_succ_of_le (Finset.card_singleton _).le
  · exact Finset.card_le_two

/-- Three bytes in an empty file. -/
theorem all_or_nothing_three :
    AllOrNothing stdLayout noDevices ⟨1, 0, true⟩ (fun _ => 7) 3 bareFile := by
  have hfits : Fits stdLayout (reachedSlots 1 0 3) (bareFile.view stdLayout) :=
    fits_bareFile ((card_wantedBytes_le ..).trans (by decide))
  have h := @all_or_nothing_iff stdLayout noDevices ⟨1, 0, true⟩ (fun _ => 7) 3 bareFile
    (by decide) wellFormed_bareFile rfl rfl (Nat.zero_le _) (by decide)
  exact h.2.mpr (.inl ⟨by decide, .inr hfits⟩)

/-- A request of 144 blocks for an empty file, which can have 140, is refused after a part of it
has been written. -/
theorem filewrite_leaves_part : ∃ off s',
    filewrite stdLayout noDevices ⟨1, 0, true⟩ (fun _ => 7) 73728 bareFile =
      .ok ((.ret (-1), off), s') ∧ chunkMax ≤ off ∧ (bareFile.view stdLayout).contents 1 = [] ∧
    ((s'.view stdLayout).contents 1).length = off ∧
    ¬ AllOrNothing stdLayout noDevices ⟨1, 0, true⟩ (fun _ => 7) 73728 bareFile := by
  have hM : MAXFILE * BSIZE = 71680 := rfl
  have hC : chunkMax = 1536 := rfl
  have hfits : Fits stdLayout (reachedSlots 1 0 73728) (bareFile.view stdLayout) :=
    fits_bareFile ((card_wantedBytes_le ..).trans (by decide))
  have hvia := via_filewrite (L := stdLayout) (v := bareFile.view stdLayout) (n := 73728)
    noDevices (fun _ => 7) (f := ⟨1, 0, true⟩) (by decide) wellFormed_bareFile rfl rfl
    (Nat.zero_le _) (c := 73728) (by decide)
  obtain ⟨⟨o, off⟩, s', _, hrun, rfl, j, hfin⟩ :=
    (hvia.mono (fun _ _ h => h) fun _ h => h.1 hfits).exists_ok rfl
  have hfirst := hfin.stage.first
  have hoff : off = 0 + j := hfin.off_eq
  dsimp only at hfirst
  rcases hfin.ended with ⟨rfl, -⟩ | ⟨hj, hret, hlarge⟩
  · omega
  dsimp only at hlarge
  obtain rfl : o = .ret (-1) := hret
  have hle : chunkMax ≤ off := by omega
  refine ⟨off, s', hrun, hle, rfl, ?_, ?_⟩
  · rw [length_contents, hfin.stage.written.size_eq, hoff]
    exact Nat.zero_max _
  rintro ⟨r, off', s'', hrun', h⟩
  rw [hrun] at hrun'
  cases hrun'
  rcases h with ⟨hr, -⟩ | ⟨-, hzero, -⟩
  · exact absurd hr (by decide)
  · dsimp only at hzero
    omega

end Requests

end Xv6.Fs
