import Xv6.Fs.Offset

/-!
# Blocks logged by a write

The functions of `Fs.Ops` that `writei` calls, with a record of the block numbers that are passed to
`log_write`, which a panic leaves behind too. Without the record they are the functions of `Fs.Ops`.

A write fills slots: those of the blocks that it stores to, and that of the indirect block. Each
block that it logs is in one of them, is the bitmap block for one that was empty, or is the block of
the inode. On a file system without holes the block at the offset is missing only if the write
starts there, so that a chunk of `filewrite` stays within the reservation of `begin_op`.
-/

namespace Xv6.Fs

open LittleEndian Bitmap Hoare Function Finset

/-- Programs with a record of the block numbers passed to `log_write`. -/
abbrev LogM : Type → Type := StateT (State × Finset ℕ) (Except (Panic × Finset ℕ))

namespace Logged

/-- A part of a program that does not call `log_write`. -/
def quiet {α : Type} (p : FsM α) : LogM α := fun s =>
  match p s.1 with
  | .ok (a, t) => .ok (a, t, s.2)
  | .error e => .error (e, s.2)

/-- `log_write(bp)`. -/
def logWrite (b : ℕ) (data : Block) : LogM Unit := modify fun s => (s.1.write b data, insert b s.2)

/-! ### The functions of `Fs.Ops`, with the record -/

section Functions

variable (L : Layout)

def bzero (b : ℕ) : LogM Unit := logWrite b zeroBlock

def balloc : LogM ℕ := do
  let s ← quiet get
  match findFree L s.disk with
  | some b => do
    let bp ← quiet (bread (BBLOCK b L.toSuperblock))
    logWrite (BBLOCK b L.toSuperblock) (setBit bp (b % BPB))
    bzero b
    return b
  | none => quiet (throw .outOfBlocks)

def iupdate (i : ℕ) : LogM Unit := do
  let bp ← quiet (bread (IBLOCK i L.toSuperblock))
  let ip ← quiet (inode L i)
  logWrite (IBLOCK i L.toSuperblock) (putDinode bp (i % IPB) ip)

def bmapAddr (i k : ℕ) : LogM ℕ := do
  let ip ← quiet (inode L i)
  if ip.addr k = 0 then do
    let addr ← balloc L
    let ip ← quiet (inode L i)
    quiet (setInode i (ip.setAddr k addr))
    return addr
  else return ip.addr k

def bmapEntry (addr j : ℕ) : LogM ℕ := do
  let bp ← quiet (bread addr)
  if getWord bp j = 0 then do
    let b ← balloc L
    logWrite addr (setWord bp j b)
    return b
  else return getWord bp j

def bmap (i bn : ℕ) : LogM ℕ :=
  if bn < NDIRECT then bmapAddr L i bn
  else if bn - NDIRECT < NINDIRECT then do
    let addr ← bmapAddr L i NDIRECT
    bmapEntry L addr (bn - NDIRECT)
  else quiet (throw .bmapOutOfRange)

def writeLoop (i n : ℕ) (src : ℕ → UInt8) : ℕ → ℕ → ℕ → LogM ℕ
  | 0, _, off => return off
  | fuel + 1, tot, off =>
    if tot < n then do
      let addr ← bmap L i (off / BSIZE)
      let bp ← quiet (bread addr)
      let m := min (n - tot) (BSIZE - off % BSIZE)
      logWrite addr (blit bp (off % BSIZE) m fun j => src (tot + j))
      writeLoop i n src fuel (tot + m) (off + m)
    else return off

def growSize (i n off : ℕ) : LogM Unit := do
  let ip ← quiet (inode L i)
  if n > 0 ∧ off > ip.size.toNat then do
    quiet (setInode i { ip with size := UInt32.ofNat off })
    iupdate L i
  else pure ()

variable (devsw : Devsw)

def writei (i : ℕ) (src : ℕ → UInt8) (off n : ℕ) : LogM ℤ := do
  let ip ← quiet (inode L i)
  if ip.type = T_DEV then
    if ip.major < 0 ∨ ip.major.toInt ≥ NDEV then return -1
    else match devsw.write ip.major.toInt.toNat with
      | none => return -1
      | some write => return write src n
  else if off > ip.size.toNat ∨ (off + n) % 2 ^ 32 < off then return -1
  else if (off + n) % 2 ^ 32 > MAXFILE * BSIZE then return -1
  else do
    let off ← writeLoop L i n src n 0 off
    growSize L i n off
    return n

end Functions

/-! ### Forgetting the record -/

variable {α β : Type}

def forget : Except (Panic × Finset ℕ) (α × State × Finset ℕ) → Except Panic (α × State)
  | .ok (a, s, _) => .ok (a, s)
  | .error (e, _) => .error e

def record : Except (Panic × Finset ℕ) (α × State × Finset ℕ) → Finset ℕ
  | .ok (_, _, l) => l
  | .error (_, l) => l

/-- Without the record, `p` is `q`. -/
def Erases (p : LogM α) (q : FsM α) : Prop := ∀ s l, forget (p (s, l)) = q s

theorem Erases.quiet (q : FsM α) : Erases (quiet q) q := by
  intro s l
  unfold Logged.quiet
  dsimp only
  split
  · next h => exact h.symm
  · next h => exact h.symm

theorem Erases.pure (a : α) : Erases (pure a) (pure a) := fun _ _ => rfl

theorem Erases.logWrite (b : ℕ) (x : Block) : Erases (logWrite b x) (Fs.logWrite b x) :=
  fun _ _ => rfl

theorem Erases.bind {p : LogM α} {q : FsM α} {f : α → LogM β} {g : α → FsM β} (hp : Erases p q)
    (hf : ∀ a, Erases (f a) (g a)) : Erases (p >>= f) (q >>= g) := by
  intro s l
  have hps := hp s l
  change forget (p (s, l) >>= fun x => f x.1 x.2) = (q s >>= fun x => g x.1 x.2)
  rw [← hps]
  cases p (s, l) with
  | ok x => exact hf x.1 x.2.1 x.2.2
  | error e => rfl

theorem Erases.ite {c : Prop} [Decidable c] {p p' : LogM α} {q q' : FsM α} (h : Erases p q)
    (h' : Erases p' q') : Erases (if c then p else p') (if c then q else q') := by
  split
  · exact h
  · exact h'

section Erasing

variable {L : Layout} {i : ℕ}

theorem erases_balloc : Erases (balloc L) (Fs.balloc L) := by
  refine (Erases.quiet get).bind fun s => ?_
  cases findFree L s.disk with
  | some b =>
    exact (Erases.quiet _).bind fun _ => (Erases.logWrite _ _).bind fun _ =>
      (Erases.logWrite _ _).bind fun _ => .pure b
  | none => exact .quiet _

theorem erases_iupdate : Erases (iupdate L i) (Fs.iupdate L i) :=
  (Erases.quiet _).bind fun _ => (Erases.quiet _).bind fun _ => .logWrite _ _

theorem erases_bmapAddr (k : ℕ) : Erases (bmapAddr L i k) (Fs.bmapAddr L i k) := by
  refine (Erases.quiet _).bind fun ip => Erases.ite ?_ (.pure _)
  exact erases_balloc.bind fun _ => (Erases.quiet _).bind fun _ => (Erases.quiet _).bind fun _ =>
    .pure _

theorem erases_bmapEntry (addr j : ℕ) : Erases (bmapEntry L addr j) (Fs.bmapEntry L addr j) := by
  refine (Erases.quiet _).bind fun bp => Erases.ite ?_ (.pure _)
  exact erases_balloc.bind fun _ => (Erases.logWrite _ _).bind fun _ => .pure _

theorem erases_bmap (bn : ℕ) : Erases (bmap L i bn) (Fs.bmap L i bn) := by
  refine Erases.ite (erases_bmapAddr bn) (Erases.ite ?_ (.quiet _))
  exact (erases_bmapAddr NDIRECT).bind fun _ => erases_bmapEntry _ _

theorem erases_writeLoop {n : ℕ} {src : ℕ → UInt8} :
    ∀ fuel tot off, Erases (writeLoop L i n src fuel tot off) (Fs.writeLoop L i n src fuel tot off)
  | 0, _, off => .pure off
  | fuel + 1, tot, off => by
    refine Erases.ite ?_ (.pure off)
    exact (erases_bmap _).bind fun _ => (Erases.quiet _).bind fun _ =>
      (Erases.logWrite _ _).bind fun _ => erases_writeLoop fuel _ _

theorem erases_growSize (n off : ℕ) : Erases (growSize L i n off) (Fs.growSize L i n off) := by
  refine (Erases.quiet _).bind fun ip => Erases.ite ?_ (.pure _)
  exact (Erases.quiet _).bind fun _ => erases_iupdate

theorem forget_writei (devsw : Devsw) (src : ℕ → UInt8) (off n : ℕ) (s : State) (l : Finset ℕ) :
    forget (writei L devsw i src off n (s, l)) = Fs.writei L devsw i src off n s := by
  revert s l
  refine (Erases.quiet (inode L i)).bind fun ip => Erases.ite ?_ (Erases.ite (.pure _)
    (Erases.ite (.pure _) ?_))
  · refine Erases.ite (.pure _) ?_
    cases devsw.write ip.major.toInt.toNat with
    | none => exact .pure _
    | some write => exact .pure _
  · exact (erases_writeLoop n 0 off).bind fun _ => (erases_growSize n _).bind fun _ => .pure _

end Erasing

end Logged

/-! ### Slots and logged blocks -/

section Counting

variable {L : Layout} {i : ℕ} {W : Finset Slot} {v w u : View} {l : Finset ℕ} {a : Slot} {b : ℕ}

/-- The blocks in the slots `W`. -/
def View.blocks (v : View) (W : Finset Slot) : Finset ℕ := (W.image v.slot).erase 0

/-- From `v` to `w`, every block logged is in one of the slots `W`, or counted for one of them that
was empty and has been filled. -/
def Accounts (W : Finset Slot) (v w : View) (l : Finset ℕ) : Prop :=
  ∃ M : Finset ℕ, l ⊆ w.blocks W ∪ M ∧ M.card + (w.missing W).card ≤ (v.missing W).card

theorem View.mem_blocks (ha : a ∈ W) (hne : v.slot a ≠ 0) : v.slot a ∈ v.blocks W :=
  mem_erase.mpr ⟨hne, mem_image_of_mem _ ha⟩

theorem View.card_blocks_le (v : View) (W : Finset Slot) : (v.blocks W).card ≤ W.card :=
  (card_erase_le).trans card_image_le

theorem Accounts.refl (W : Finset Slot) (v : View) : Accounts W v v ∅ :=
  ⟨∅, empty_subset _, by rw [card_empty, Nat.zero_add]⟩

theorem Accounts.of_slot_eq (h : Accounts W v w l) (hslot : u.slot = w.slot) :
    Accounts W v u l := by
  obtain ⟨M, hsub, hcard⟩ := h
  refine ⟨M, ?_, ?_⟩
  · rwa [View.blocks, hslot]
  · rwa [View.missing, hslot]

theorem Accounts.log (h : Accounts W v w l) (ha : a ∈ W) (hne : w.slot a ≠ 0) :
    Accounts W v w (insert (w.slot a) l) := by
  obtain ⟨M, hsub, hcard⟩ := h
  exact ⟨M, insert_subset (mem_union_left _ (View.mem_blocks ha hne)) hsub, hcard⟩

theorem Accounts.take (h : Accounts W v w l) (ha : a ∈ W) (hempty : w.slot a = 0) (hb : b ≠ 0)
    (hslot : u.slot = update w.slot a b) (m : ℕ) : Accounts W v u (insert b (insert m l)) := by
  obtain ⟨M, hsub, hcard⟩ := h
  have hself : u.slot a = b := by rw [hslot, update_self]
  have hmissing : u.missing W = (w.missing W).erase a := by
    ext c
    by_cases hc : c = a
    · simp [View.missing, hslot, hc, hb]
    · simp [View.missing, hslot, hc]
  have hmem : a ∈ w.missing W := by simp [View.missing, ha, hempty]
  have hblocks : w.blocks W ⊆ u.blocks W := by
    intro c hc
    obtain ⟨hc₀, hc⟩ := mem_erase.mp hc
    obtain ⟨x, hx, rfl⟩ := mem_image.mp hc
    have hxa : x ≠ a := fun hxa => hc₀ (hxa ▸ hempty)
    have hsame : u.slot x = w.slot x := by rw [hslot, update_of_ne hxa]
    rw [← hsame]
    exact View.mem_blocks hx (hsame ▸ hc₀)
  refine ⟨insert m M, ?_, ?_⟩
  · refine insert_subset (mem_union_left _ ?_) (insert_subset ?_ ?_)
    · rw [← hself]
      exact View.mem_blocks ha (hself ▸ hb)
    · exact mem_union_right _ (mem_insert_self m M)
    · exact hsub.trans (union_subset_union hblocks (subset_insert m M))
  · have hpos := card_pos.mpr ⟨a, hmem⟩
    have hle := card_insert_le m M
    rw [hmissing, card_erase_of_mem hmem]
    omega

/-- The record is at most as large as `W` and its empty slots together. -/
def Bounded (W : Finset Slot) (v : View) (l : Finset ℕ) : Prop :=
  l.card ≤ W.card + (v.missing W).card

theorem Accounts.bounded (h : Accounts W v w l) : Bounded W v l := by
  obtain ⟨M, hsub, hcard⟩ := h
  have hunion := card_union_le (w.blocks W) M
  have hblocks := View.card_blocks_le w W
  have hle := card_le_card hsub
  unfold Bounded
  omega

end Counting

/-! ### What the functions log -/

namespace Logged

-- otherwise unification runs the programs down to the bytes of a block
attribute [local irreducible] getLE

/-- What the state shows is the view, and this is the record. -/
def Traced (L : Layout) (s : State × Finset ℕ) (t : View × Finset ℕ) : Prop :=
  s.1.view L = t.1 ∧ s.2 = t.2

section Specs

variable {L : Layout} {i : ℕ} {W : Finset Slot} {v w : View} {l : Finset ℕ}
  {E : Panic × Finset ℕ → Prop}

theorem via_quiet {α : Type} {q : FsM α} {R : α → View × Finset ℕ → Prop}
    (h : Via (Views L) q (fun a u => R a (u, l)) (fun e => E (e, l)) w) :
    Via (Traced L) (quiet q) R E (w, l) := by
  rintro ⟨s, _⟩ ⟨hs, rfl⟩
  have hspec := h s hs
  unfold wp quiet at *
  cases hrun : q s with
  | ok x =>
    rw [hrun] at hspec
    obtain ⟨u, hu, hR⟩ := hspec
    exact ⟨(u, _), ⟨hu, rfl⟩, hR⟩
  | error e =>
    rw [hrun] at hspec
    exact hspec

theorem via_inode {R : Inode → View × Finset ℕ → Prop} (hi : i < L.ninodes)
    (h : R (w.inode i) (w, l)) : Via (Traced L) (quiet (inode L i)) R E (w, l) :=
  via_quiet (Fs.via_inode hi h)

variable {R : Unit → View × Finset ℕ → Prop}

theorem via_setInode {ip : Inode} (hi : i < L.ninodes)
    (h : R () ({ w with inode := update w.inode i ip }, l)) :
    Via (Traced L) (quiet (setInode i ip)) R E (w, l) :=
  via_quiet (Fs.via_setInode hi h)

theorem via_bread {b : ℕ} {R : Block → View × Finset ℕ → Prop} (hb : L.datastart ≤ b)
    (h : R (w.data b) (w, l)) : Via (Traced L) (quiet (bread b)) R E (w, l) :=
  via_quiet (Fs.via_bread hb h)

theorem via_logWrite {b : ℕ} {x : Block}
    (hb : L.datastart ≤ b) (h : R () (w.write b x, insert b l)) :
    Via (Traced L) (logWrite b x) R E (w, l) := by
  rintro ⟨s, _⟩ ⟨hs, rfl⟩
  dsimp only at hs
  subst hs
  rw [← view_update_data hb] at h
  exact ⟨_, ⟨rfl, rfl⟩, h⟩

theorem via_iupdate (hi : i < L.ninodes) (h : R () (w, insert (IBLOCK i L.toSuperblock) l)) :
    Via (Traced L) (iupdate L i) R E (w, l) := by
  rintro ⟨s, _⟩ ⟨hs, rfl⟩
  dsimp only at hs
  subst hs
  rw [← view_iupdate hi] at h
  exact ⟨_, ⟨rfl, rfl⟩, h⟩

theorem balloc_run (s : State) (l : Finset ℕ) : balloc L (s, l) =
    match Fs.balloc L s with
    | .ok (b, t) => .ok (b, t, insert b (insert (BBLOCK b L.toSuperblock) l))
    | .error e => .error (e, l) := by
  have hget : quiet (get : FsM State) (s, l) = .ok (s, s, l) := rfl
  have hget' : (get : FsM State) s = .ok (s, s) := rfl
  rw [balloc, bind_of_ok hget, Fs.balloc, bind_of_ok hget']
  cases findFree L s.disk with
  | some b => rfl
  | none => rfl

theorem via_balloc_slot {a : Slot} {R : ℕ → View × Finset ℕ → Prop} (hwf : WellFormed L w)
    (hempty : w.slot a = 0)
    (h : ∀ b, Fresh L w b → R b (w.alloc b, insert b (insert (BBLOCK b L.toSuperblock) l)))
    (hE : ∀ e, E (e, l)) : Via (Traced L) (balloc L) R E (w, l) := by
  rintro ⟨s, _⟩ ⟨hs, rfl⟩
  have hspec := Fs.via_balloc_slot (R := fun b u => Fresh L w b ∧ w.alloc b = u) hwf hempty
    (fun b hb => ⟨hb, rfl⟩) s hs
  unfold wp at hspec ⊢
  rw [balloc_run]
  cases hb : Fs.balloc L s with
  | ok x =>
    rw [hb] at hspec
    obtain ⟨u, hu, hfresh, rfl⟩ := hspec
    exact ⟨(w.alloc x.1, _), ⟨hu, rfl⟩, h x.1 hfresh⟩
  | error e => exact hE e

theorem via_balloc_bind {a : Slot} {α : Type} {k : ℕ → LogM α} {R : α → View × Finset ℕ → Prop}
    (hwf : WellFormed L w) (hempty : w.slot a = 0) (hk : ∀ b, Fresh L w b →
      Via (Traced L) (k b) R E (w.alloc b, insert b (insert (BBLOCK b L.toSuperblock) l)))
    (hE : ∀ e, E (e, l)) : Via (Traced L) (balloc L >>= k) R E (w, l) := by
  refine Via.bind (via_balloc_slot (R := fun b t => Fresh L w b ∧
    (w.alloc b, insert b (insert (BBLOCK b L.toSuperblock) l)) = t) hwf hempty
    (fun b hb => ⟨hb, rfl⟩) hE) ?_
  rintro b _ ⟨hb, rfl⟩
  exact hk b hb

theorem via_bmapAddr {k : ℕ} (hi : i < L.ninodes) (hwf : WellFormed L w)
    (hlive : (w.inode i).type ≠ 0) (hk : k < NDIRECT + 1) (hW : .addr i k ∈ W)
    (hacc : Accounts W v w l) : Via (Traced L) (bmapAddr L i k)
      (fun c t => Maps L i w (.addr i k) {.addr i k} c t.1 ∧ Accounts W v t.1 t.2)
      (fun e => Bounded W v e.2) (w, l) := by
  have hslot : w.slot (.addr i k) = (w.inode i).addr k := if_neg hlive
  refine Via.bind_eq (via_inode hi ⟨rfl, rfl⟩) ?_
  refine Via.ite (fun h0 => ?_) fun h0 => ?_
  · rw [← hslot] at h0
    refine via_balloc_bind hwf h0 (fun b hb => ?_) fun _ => hacc.bounded
    refine Via.bind_eq (via_inode (R := fun ip t => ip = w.inode i ∧
      (w.alloc b, insert b (insert (BBLOCK b L.toSuperblock) l)) = t) hi ⟨rfl, rfl⟩) ?_
    refine Via.seq (u := (w.takeAddr i k b, insert b (insert (BBLOCK b L.toSuperblock) l)))
      (via_setInode hi rfl) ?_
    have hnew := slot_takeAddr hwf hlive hk h0 hb
    exact Via.pure ⟨.takeAddr hwf hlive hk h0 hb, hacc.take hW h0 hb.ne_zero hnew _⟩
  · rw [← hslot] at h0 ⊢
    exact Via.pure ⟨.present hwf h0, hacc⟩

theorem via_bmapEntry {j : ℕ} (hwf : WellFormed L w) (hind : w.indirect i ≠ 0)
    (hj : j < NINDIRECT) (hWi : .addr i NDIRECT ∈ W) (hW : .entry i j ∈ W)
    (hacc : Accounts W v w l) : Via (Traced L) (bmapEntry L (w.indirect i) j)
      (fun c t => Maps L i w (.entry i j) {.entry i j} c t.1 ∧ Accounts W v t.1 t.2)
      (fun e => Bounded W v e.2) (w, l) := by
  have hdata : L.datastart ≤ w.indirect i := (hwf.bounds (a := .addr i NDIRECT) hind).1
  have hslot : w.slot (.entry i j) = getWord (w.data (w.indirect i)) j := by
    rw [View.slot_entry, if_neg (by omega)]
  refine Via.bind_eq (via_bread hdata ⟨rfl, rfl⟩) ?_
  refine Via.ite (fun h0 => ?_) fun h0 => ?_
  · rw [← hslot] at h0
    refine via_balloc_bind hwf h0 (fun b hb => ?_) fun _ => hacc.bounded
    refine Via.seq (u :=
      (w.takeEntry i j b, insert (w.indirect i) (insert b (insert (BBLOCK b L.toSuperblock) l))))
      (via_logWrite hdata rfl) ?_
    have hnew := slot_takeEntry hwf hind hj hb
    have hsame : (w.takeEntry i j b).slot (.addr i NDIRECT) = w.indirect i := by
      have hne : Slot.addr i NDIRECT ≠ Slot.entry i j := nofun
      rw [hnew, update_of_ne hne]
      rfl
    have htake := hacc.take hW h0 hb.ne_zero hnew (BBLOCK b L.toSuperblock)
    have hlog := htake.log hWi (hsame ▸ hind)
    rw [hsame] at hlog
    exact Via.pure ⟨.takeEntry hwf hind hj h0 hb, hlog⟩
  · rw [← hslot] at h0 ⊢
    exact Via.pure ⟨.present hwf h0, hacc⟩

theorem via_bmap {bn : ℕ} (hi : i < L.ninodes) (hwf : WellFormed L w)
    (hlive : (w.inode i).type ≠ 0) (hbn : bn < MAXFILE) (hW : wanted i bn ⊆ W)
    (hacc : Accounts W v w l) : Via (Traced L) (bmap L i bn)
      (fun c t => Maps L i w (fileSlot i bn) (wanted i bn) c t.1 ∧ Accounts W v t.1 t.2)
      (fun e => Bounded W v e.2) (w, l) := by
  unfold bmap
  by_cases hdirect : bn < NDIRECT
  · simp only [hdirect, if_true, fileSlot, wanted] at hW ⊢
    exact via_bmapAddr hi hwf hlive (Nat.lt_succ_of_lt hdirect) (hW (mem_singleton_self _)) hacc
  have hj : bn - NDIRECT < NINDIRECT := by
    have : MAXFILE = NDIRECT + NINDIRECT := rfl
    omega
  simp only [hdirect, if_false, hj, if_true, fileSlot, wanted] at hW ⊢
  have hWi : Slot.addr i NDIRECT ∈ W := hW (by simp)
  refine Via.bind (via_bmapAddr hi hwf hlive (Nat.lt_succ_self NDIRECT) hWi hacc) ?_
  rintro addr ⟨u, l'⟩ ⟨hu, hacc'⟩
  dsimp only at hu hacc'
  have hind : u.indirect i = addr := hu.slot_eq
  have hmaps := via_bmapEntry (i := i) hu.ext.wf (hind ▸ hu.ne_zero) hj hWi (hW (by simp)) hacc'
  rw [hind] at hmaps
  exact hmaps.mono (fun c t ht => ⟨hu.indirect ht.1, ht.2⟩) fun _ he => he

theorem mem_wanted (i bn : ℕ) : fileSlot i bn ∈ wanted i bn := by
  unfold fileSlot wanted
  split <;> simp

theorem via_writeLoop {off n : ℕ} {src : ℕ → UInt8} (hi : i < L.ninodes)
    (hlive : (v.inode i).type ≠ 0) (hmax : off + n ≤ MAXFILE * BSIZE) :
    ∀ fuel tot w l, tot ≤ n → n - tot ≤ fuel → Wrote L i off n src v tot w →
      Accounts (wantedBytes i off n) v w l →
      Via (Traced L) (writeLoop L i n src fuel tot (off + tot))
        (fun _ t => Bounded (wantedBytes i off n) v t.2)
        (fun e => Bounded (wantedBytes i off n) v e.2) (w, l) := by
  intro fuel
  induction fuel with
  | zero =>
    intro tot w l hle hfuel hw hacc
    exact Via.pure hacc.bounded
  | succ fuel ih =>
  intro tot w l hle hfuel hw hacc
  rw [writeLoop]
  refine Via.ite (fun htot => ?_) fun htot => Via.pure hacc.bounded
  obtain ⟨hpos, hle', -⟩ := piece_bounds (off + tot) htot
  have hbn : (off + tot) / BSIZE < MAXFILE :=
    Nat.div_lt_of_lt_mul (by rw [Nat.mul_comm]; omega)
  have hlive' : (w.inode i).type ≠ 0 := by
    rw [hw.ext.type_eq]
    exact hlive
  have hW : wanted i ((off + tot) / BSIZE) ⊆ wantedBytes i off n :=
    wanted_subset (by omega) (by omega)
  refine Via.bind (via_bmap hi hw.ext.wf hlive' hbn hW hacc) ?_
  rintro c ⟨u, l'⟩ ⟨hmap, hacc'⟩
  dsimp only at hmap hacc'
  have hne := hmap.ne_zero
  have hslot := hmap.slot_eq
  have hdata : L.datastart ≤ c := by
    rw [← hslot] at hne ⊢
    exact (hmap.ext.wf.bounds hne).1
  refine Via.bind_eq (via_bread hdata ⟨rfl, rfl⟩) ?_
  refine Via.seq (u := (u.write c _, insert c l')) (via_logWrite hdata rfl) ?_
  rw [Nat.add_assoc]
  refine ih _ _ _ hle' (by omega) (hw.step htot hmap) ?_
  -- the block stored to is in its slot
  have hlog := hacc'.log (hW (mem_wanted i _)) (hslot ▸ hne)
  rw [hslot] at hlog
  refine hlog.of_slot_eq ?_
  rw [← hslot, slot_write hmap.ext.wf (isData_fileSlot i _)]

theorem via_growSize {off n : ℕ} (hi : i < L.ninodes) : Via (Traced L) (growSize L i n off)
      (fun _ t => t.2 ⊆ insert (IBLOCK i L.toSuperblock) l) E (w, l) := by
  refine Via.bind_eq (via_inode hi ⟨rfl, rfl⟩) ?_
  refine Via.ite (fun _ => ?_) fun _ => Via.pure (subset_insert _ l)
  refine Via.bind (via_setInode (R := fun _ t => t.2 = l) hi rfl) ?_
  rintro _ ⟨u, _⟩ rfl
  exact via_iupdate hi (Finset.Subset.refl _)

theorem via_writei (devsw : Devsw) {off n : ℕ} (src : ℕ → UInt8) (hi : i < L.ninodes)
    (hwf : WellFormed L v) (hlive : (v.inode i).type ≠ 0) (hdev : (v.inode i).type ≠ T_DEV)
    (hoff : off < 2 ^ 32) (hn : n < 2 ^ 32) : Via (Traced L) (writei L devsw i src off n)
      (fun _ t => t.2.card ≤
        (wantedBytes i off n).card + (v.missing (wantedBytes i off n)).card + 1)
      (fun e => e.2.card ≤
        (wantedBytes i off n).card + (v.missing (wantedBytes i off n)).card + 1) (v, ∅) := by
  refine Via.bind_eq (via_inode hi ⟨rfl, rfl⟩) ?_
  rw [if_neg hdev]
  refine Via.ite (fun _ => Via.pure (Nat.zero_le _)) fun h₁ => ?_
  refine Via.ite (fun _ => Via.pure (Nat.zero_le _)) fun h₂ => ?_
  have hgo : ¬ WriteRefused (v.inode i).size.toNat off n := fun h =>
    ((writeRefused_iff hoff hn).mp h).elim h₁ h₂
  have hmax : off + n ≤ MAXFILE * BSIZE := not_lt.mp fun hc => hgo (.inr (.inr hc))
  refine Via.bind ((via_writeLoop hi hlive hmax n 0 v ∅ (Nat.zero_le n) (Nat.sub_le n 0)
    (.zero hwf) (.refl _ v)).mono (fun _ _ h => h) fun _ he => Nat.le_succ_of_le he) ?_
  rintro off' ⟨w, l⟩ hbound
  refine Via.bind (via_growSize hi) ?_
  rintro _ ⟨u, l'⟩ hsub
  refine Via.pure ((card_le_card hsub).trans ((card_insert_le _ _).trans ?_))
  exact Nat.succ_le_succ hbound

theorem record_of_via {α : Type} {p : LogM α} {P : Finset ℕ → Prop} {s : State}
    (h : Via (Traced L) p (fun _ t => P t.2) (fun e => P e.2) (v, l)) (hs : s.view L = v) :
    P (record (p (s, l))) := by
  have hwp := h (s, l) ⟨hs, rfl⟩
  cases hrun : p (s, l) with
  | ok x =>
    obtain ⟨t, ht, hP⟩ := hwp.of_ok hrun
    rw [← ht.2] at hP
    exact hP
  | error e => exact hwp.of_error hrun

theorem record_writei_of_dev (devsw : Devsw) (src : ℕ → UInt8) (off n : ℕ) {s : State}
    (hdev : (s.inode L i).type = T_DEV) : record (writei L devsw i src off n (s, ∅)) = ∅ := by
  have hrun : quiet (inode L i) (s, ∅) = .ok (s.inode L i, s, ∅) := rfl
  rw [writei, bind_of_ok hrun, if_pos hdev]
  split
  · rfl
  · cases devsw.write (s.inode L i).major.toInt.toNat with
    | none => rfl
    | some write => rfl

end Specs

end Logged

/-! ### Counting slots -/

section Reservation

variable {L : Layout} {i : ℕ} {s : State} {off n : ℕ}

theorem wantedBytes_subset_insert (i off n : ℕ) : wantedBytes i off n ⊆ insert (.addr i NDIRECT)
      ((Finset.Ico (off / BSIZE) ((off + n + BSIZE - 1) / BSIZE)).image (fileSlot i)) := by
  intro a ha
  obtain ⟨bn, hbn, hmem⟩ := mem_biUnion.mp ha
  have hfile := mem_image_of_mem (fileSlot i) hbn
  rw [mem_insert]
  unfold wanted at hmem
  split at hmem
  · next hd =>
    rw [fileSlot, if_pos hd] at hfile
    rw [mem_singleton.mp hmem]
    exact .inr hfile
  next hd =>
  rw [fileSlot, if_neg hd] at hfile
  rcases mem_insert.mp hmem with h | h
  · exact .inl h
  · rw [mem_singleton.mp h]
    exact .inr hfile

theorem card_insert_image_le (a : Slot) (lo hi : ℕ) :
    (insert a ((Finset.Ico lo hi).image (fileSlot i))).card ≤ hi - lo + 1 := by
  refine (card_insert_le _ _).trans (Nat.succ_le_succ ?_)
  rw [← Nat.card_Ico]
  exact card_image_le

theorem missing_subset {v : View} (hholes : NoHoles v)
    (htype : (v.inode i).type = T_FILE ∨ (v.inode i).type = T_DIR)
    (hoff : off ≤ (v.inode i).size.toNat) : v.missing (wantedBytes i off n) ⊆
      insert (.addr i NDIRECT) ((Finset.Ico ((off + BSIZE - 1) / BSIZE)
        ((off + n + BSIZE - 1) / BSIZE)).image (fileSlot i)) := by
  intro a ha
  obtain ⟨hmem, hempty⟩ := mem_filter.mp ha
  rcases mem_insert.mp (wantedBytes_subset_insert i off n hmem) with h | h
  · exact mem_insert.mpr (.inl h)
  obtain ⟨bn, hbn, rfl⟩ := mem_image.mp h
  obtain ⟨hlo, hhi⟩ := mem_Ico.mp hbn
  refine mem_insert_of_mem (mem_image_of_mem _ (mem_Ico.mpr ⟨?_, hhi⟩))
  by_contra hlt
  refine hholes i htype bn ?_ hempty
  have hB : BSIZE = 512 := rfl
  rw [hB] at hlo hlt ⊢
  omega

/-- **A chunk of `filewrite` fits its reservation.** On every disk layout and every well-formed file
system without holes, for every file, directory or device, every offset not beyond the size and
every count up to the chunk size, the blocks that `writei` passes to `log_write` are at most
`MAXOPBLOCKS`, whether it returns or runs out of blocks. -/
theorem chunk_fits_reservation (devsw : Devsw) (src : ℕ → UInt8) (hi : i < L.ninodes)
    (hwf : WellFormed L (s.view L)) (hholes : NoHoles (s.view L))
    (htype : (s.inode L i).type = T_FILE ∨ (s.inode L i).type = T_DIR ∨ (s.inode L i).type = T_DEV)
    (hoff : off ≤ (s.inode L i).size.toNat) (hn : n ≤ chunkMax) :
    (Logged.record (Logged.writei L devsw i src off n (s, ∅))).card ≤ MAXOPBLOCKS := by
  have hinode := view_inode (s := s) hi
  have hC : chunkMax = 1536 := rfl
  have hM : MAXOPBLOCKS = 10 := rfl
  by_cases hdev : (s.inode L i).type = T_DEV
  · rw [Logged.record_writei_of_dev devsw src off n hdev]
    exact Nat.zero_le _
  have htype' : ((s.view L).inode i).type = T_FILE ∨ ((s.view L).inode i).type = T_DIR := by
    rw [hinode]
    exact htype.imp_right fun h => h.resolve_right hdev
  have hlive : ((s.view L).inode i).type ≠ 0 := by
    rcases htype' with h | h <;> rw [h] <;> decide
  rw [← hinode] at hdev hoff
  have hspec := Logged.via_writei devsw src hi hwf hlive hdev
    (hoff.trans_lt (UInt32.toNat_lt _)) (n := n) (by omega)
  have hbound := Logged.record_of_via (P := fun l => l.card ≤ (wantedBytes i off n).card +
    ((s.view L).missing (wantedBytes i off n)).card + 1) hspec rfl
  have hslots := (card_le_card (wantedBytes_subset_insert i off n)).trans (card_insert_image_le ..)
  have hempty := (card_le_card (missing_subset (n := n) hholes htype' hoff)).trans
    (card_insert_image_le ..)
  have hB : BSIZE = 512 := rfl
  rw [hB] at hslots hempty
  omega

theorem chunk_fits_reservation_bare : 1536 ≤ chunkMax ∧
    (Logged.record (Logged.writei stdLayout noDevices 1 (fun _ => 7) 0 1536
      (bareFs, ∅))).card ≤ MAXOPBLOCKS :=
  ⟨Nat.le_refl _, chunk_fits_reservation noDevices (fun _ => 7) (by decide) wellFormed_bareFs
    noHoles_bareFs (.inr (.inl rfl)) (Nat.zero_le _) (Nat.le_refl _)⟩

end Reservation

end Xv6.Fs
