import Xv6.Fs.Contents
import Xv6.Names.Dirent

/-!
# Reading

What the kernel does to a disk that it only reads: the super block, the blocks of a file, and
entries of a directory. `bmap` allocates where it finds no address, so reading leaves the disk alone
only where there are no holes.

`iget` is left out: an inode is its number.
-/

namespace Xv6.Fs

open LittleEndian Hoare Splice Xv6.Names

def readsb (s : State) : Superblock where
  size := getWord (s.disk 1) 0
  ninodes := getWord (s.disk 1) 2
  nlog := getWord (s.disk 1) 3
  logstart := getWord (s.disk 1) 4
  inodestart := getWord (s.disk 1) 5
  bmapstart := getWord (s.disk 1) 6

section

variable (L : Layout)

/-- The address of block `bn` of inode `i`, zero if there is none. -/
def State.blockAddr (s : State) (i bn : ℕ) : ℕ :=
  if bn < NDIRECT then (s.inode L i).addr bn
  else if bn - NDIRECT < NINDIRECT then
    if (s.inode L i).addr NDIRECT = 0 then 0
    else getWord (s.disk ((s.inode L i).addr NDIRECT)) (bn - NDIRECT)
  else 0

/-- The panics of `dirlookup`. -/
inductive DirPanic where
  | fs (e : Panic)
  /-- `panic("dirlookup not DIR")`. -/
  | notDir
  /-- `panic("dirlookup read")`. -/
  | read
  deriving DecidableEq

def call {α : Type} (p : FsM α) : StateT State (Except DirPanic) α := fun s =>
  match p s with
  | .ok r => .ok r
  | .error e => .error (.fs e)

variable (devsw : Devsw)

/-- The loop of `dirlookup`. -/
def dirlookupLoop (dp : ℕ) (name : List UInt8) :
    ℕ → ℕ → StateT State (Except DirPanic) (Option (ℕ × ℕ))
  | 0, _ => return none
  | fuel + 1, off => do
    let ip ← call (inode L dp)
    if off < ip.size.toNat then do
      let (r, b) ← call (readi L devsw dp off DESIZE)
      if r ≠ DESIZE then throw .read
      else
        let de := Dirent.decode b
        if de.inum = 0 then dirlookupLoop dp name fuel (off + DESIZE)
        else if namecmp name de.name = 0 then return some (de.inum, off)
        else dirlookupLoop dp name fuel (off + DESIZE)
    else return none

/-- Look for a directory entry in a directory: the inode, and the byte offset of the entry. -/
def dirlookup (dp : ℕ) (name : List UInt8) :
    StateT State (Except DirPanic) (Option (ℕ × ℕ)) := do
  let ip ← call (inode L dp)
  if ip.type ≠ T_DIR then throw .notDir
  else dirlookupLoop L devsw dp name (ip.size.toNat + 1) 0

end

variable {L : Layout} {devsw : Devsw} {s : State} {i : ℕ}

/-! ### Files without holes -/

theorem bmapAddr_run {k : ℕ} (h : (s.inode L i).addr k ≠ 0) :
    bmapAddr L i k s = .ok ((s.inode L i).addr k, s) := by
  rw [bmapAddr, bind_of_ok (inode_run s i), if_neg h]
  rfl

theorem bmap_of_blockAddr {bn : ℕ} (h : s.blockAddr L i bn ≠ 0) :
    bmap L i bn s = .ok (s.blockAddr L i bn, s) := by
  unfold bmap
  unfold State.blockAddr at h ⊢
  by_cases hdirect : bn < NDIRECT
  · rw [if_pos hdirect] at h
    rw [if_pos hdirect, if_pos hdirect, bmapAddr_run h]
  rw [if_neg hdirect] at h
  rw [if_neg hdirect, if_neg hdirect]
  by_cases hj : bn - NDIRECT < NINDIRECT
  · rw [if_pos hj] at h
    rw [if_pos hj, if_pos hj]
    by_cases hind : (s.inode L i).addr NDIRECT = 0
    · exact absurd (if_pos hind) h
    rw [if_neg hind] at h
    rw [if_neg hind, bind_of_ok (bmapAddr_run hind), bmapEntry, bind_of_ok (bread_run s _),
      if_neg h]
    rfl
  · exact absurd (if_neg hj) h

theorem readLoop_of_blockAddr (n : ℕ) : ∀ fuel tot off : ℕ,
    (∀ k, off ≤ k → k < off + (n - tot) → s.blockAddr L i (k / BSIZE) ≠ 0) →
      ∃ dst, readLoop L i n fuel tot off s = .ok (dst, s) := by
  intro fuel
  induction fuel with
  | zero => exact fun _ _ _ => ⟨[], rfl⟩
  | succ fuel ih =>
  intro tot off h
  rw [readLoop]
  by_cases htot : tot < n
  · obtain ⟨hpos, hle, -⟩ := piece_bounds off htot
    set m := min (n - tot) (BSIZE - off % BSIZE)
    obtain ⟨dst, hdst⟩ := ih (tot + m) (off + m) fun k hk hlt => h k (by omega) (by omega)
    rw [if_pos htot, bind_of_ok (bmap_of_blockAddr (h off le_rfl (by omega))),
      bind_of_ok (bread_run s _), bind_of_ok hdst]
    exact ⟨_, rfl⟩
  · rw [if_neg htot]
    exact ⟨[], rfl⟩

theorem readi_of_blockAddr {off n : ℕ} (hoff : off < 2 ^ 32) (hn : n < 2 ^ 32)
    (h : ∀ bn, bn * BSIZE < (s.inode L i).size.toNat → s.blockAddr L i bn ≠ 0) :
    ∃ r, readi L devsw i off n s = .ok (r, s) := by
  rw [readi, bind_of_ok (inode_run s i)]
  split
  · split
    · exact ⟨_, rfl⟩
    · cases devsw.read (s.inode L i).major.toInt.toNat with
      | none => exact ⟨_, rfl⟩
      | some read => exact ⟨_, rfl⟩
  split
  · exact ⟨_, rfl⟩
  next hok =>
  dsimp only
  set count := if (off + n) % 2 ^ 32 > (s.inode L i).size.toNat
    then (s.inode L i).size.toNat - off else n with hcount
  have hle : off + count ≤ (s.inode L i).size.toNat := by
    split at hcount <;> omega
  obtain ⟨dst, hdst⟩ := readLoop_of_blockAddr count count 0 off fun k _ hlt =>
    h (k / BSIZE) (lt_of_le_of_lt (Nat.div_mul_le_self k BSIZE) (by omega))
  rw [bind_of_ok hdst]
  exact ⟨_, rfl⟩

/-! ### Directories -/

theorem call_of_ok {α : Type} {p : FsM α} {r : α × State} (h : p s = .ok r) : call p s = .ok r := by
  rw [call, h]

variable {dp : ℕ} {data name : List UInt8}

/-- `dirlookup` can read entry `k`. -/
def CanRead (L : Layout) (devsw : Devsw) (s : State) (dp : ℕ) (data : List UInt8) (k : ℕ) : Prop :=
  DESIZE * k < (s.inode L dp).size.toNat ∧
    readi L devsw dp (DESIZE * k) DESIZE s = .ok ((DESIZE, slice data (DESIZE * k) DESIZE), s)

theorem dirlookupLoop_of_matches {e : ℕ} (hread : ∀ k ≤ e, CanRead L devsw s dp data k)
    (hbefore : ∀ k < e, ¬ Matches data name k) (he : Matches data name e) :
    ∀ fuel k, k ≤ e → e < fuel + k → dirlookupLoop L devsw dp name fuel (DESIZE * k) s =
      .ok (some ((entry data e).inum, DESIZE * e), s) := by
  intro fuel
  induction fuel with
  | zero => exact fun k hk hlt => absurd hlt (by omega)
  | succ fuel ih =>
  intro k hk hlt
  obtain ⟨hsize, hrun⟩ := hread k hk
  rw [dirlookupLoop, bind_of_ok (call_of_ok (inode_run s dp)), if_pos hsize,
    bind_of_ok (call_of_ok hrun)]
  dsimp only
  rw [if_neg (not_not.mpr rfl)]
  change (if (entry data k).inum = 0 then _ else if namecmp name (entry data k).name = 0 then _
    else _ : StateT State (Except DirPanic) _) s = _
  have hnext : k ≠ e → dirlookupLoop L devsw dp name fuel (DESIZE * k + DESIZE) s =
      .ok (some ((entry data e).inum, DESIZE * e), s) :=
    fun hne => ih (k + 1) (by omega) (by omega)
  by_cases hzero : (entry data k).inum = 0
  · rw [if_pos hzero]
    refine hnext ?_
    rintro rfl
    exact he.1 hzero
  rw [if_neg hzero]
  by_cases hname : namecmp name (entry data k).name = 0
  · obtain rfl : k = e := by
      by_contra hne
      exact hbefore k (by omega) ⟨hzero, hname⟩
    rw [if_pos hname]
    rfl
  · rw [if_neg hname]
    refine hnext ?_
    rintro rfl
    exact hname he.2

theorem dirlookup_of_matches {e : ℕ} (htype : (s.inode L dp).type = T_DIR)
    (hread : ∀ k ≤ e, CanRead L devsw s dp data k) (hbefore : ∀ k < e, ¬ Matches data name k)
    (he : Matches data name e) :
    dirlookup L devsw dp name s = .ok (some ((entry data e).inum, DESIZE * e), s) := by
  have hfuel : e < (s.inode L dp).size.toNat :=
    lt_of_le_of_lt (Nat.le_mul_of_pos_left e (by decide)) (hread e le_rfl).1
  rw [dirlookup, bind_of_ok (call_of_ok (inode_run s dp)), if_neg (not_not.mpr htype)]
  exact dirlookupLoop_of_matches hread hbefore he _ 0 (Nat.zero_le e) (Nat.lt_succ_of_lt hfuel)

end Xv6.Fs
