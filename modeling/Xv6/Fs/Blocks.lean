import Xv6.Fs.Contents
import Xv6.Fs.Itrunc
import Xv6.Lib.Run

/-!
# Block ownership over whole runs

The operations that allocate and free blocks, one after another on any inodes. Each keeps the file
system well formed: the slots of allocated inodes own exactly the marked data blocks, one slot each.
So a block that is freed is marked, and `bfree` never finds it free.
-/

namespace Xv6.Fs

open Hoare Run

inductive Op where
  | bmap (i bn : ℕ)
  | writei (i : ℕ) (src : ℕ → UInt8) (off n : ℕ)
  | itrunc (i : ℕ)

namespace Op

def inum : Op → ℕ
  | .bmap i _ => i
  | .writei i _ _ _ => i
  | .itrunc i => i

/-- `off` and `n` are `uint`s. -/
def InRange : Op → Prop
  | .bmap _ _ => True
  | .writei _ _ off n => off < 2 ^ 32 ∧ n < 2 ^ 32
  | .itrunc _ => True

def run (L : Layout) (devsw : Devsw) : Op → FsM Unit
  | .bmap i bn => do
    let _ ← Fs.bmap L i bn
  | .writei i src off n => do
    let _ ← Fs.writei L devsw i src off n
  | .itrunc i => Fs.itrunc L i

/-- `ilock` hands out allocated inodes only. -/
def Allowed (L : Layout) (s : State) (op : Op) : Prop :=
  op.inum < L.ninodes ∧ (s.inode L op.inum).type ≠ 0 ∧ op.InRange

end Op

def step (L : Layout) (devsw : Devsw) (s : State) (op : Op) : Option State :=
  match op.run L devsw s with
  | .ok (_, s') => some s'
  | .error _ => none

variable {L : Layout} {devsw : Devsw} {v : View}

theorem via_bmap_wellFormed {i bn : ℕ} (hi : i < L.ninodes) (hwf : WellFormed L v)
    (hlive : (v.inode i).type ≠ 0) :
    Via (Views L) (bmap L i bn) (fun _ w => WellFormed L w) (· ≠ .freeingFreeBlock) v := by
  by_cases hbn : bn < MAXFILE
  · refine (via_bmap hi hwf hlive hbn).mono (fun _ _ h => h.ext.wf) fun e he => ?_
    rw [he.1]
    decide
  · have hM : MAXFILE = NDIRECT + NINDIRECT := rfl
    rw [bmap, if_neg (by omega), if_neg (by omega)]
    exact Via.throw (by decide)

theorem via_writei_wellFormed {i off n : ℕ} {src : ℕ → UInt8} (hi : i < L.ninodes)
    (hwf : WellFormed L v) (hlive : (v.inode i).type ≠ 0) (hoff : off < 2 ^ 32) (hn : n < 2 ^ 32) :
    Via (Views L) (writei L devsw i src off n) (fun _ w => WellFormed L w)
      (· ≠ .freeingFreeBlock) v := by
  by_cases hdev : (v.inode i).type = T_DEV
  · refine Via.bind_eq (via_inode hi ⟨rfl, rfl⟩) ?_
    rw [if_pos hdev]
    refine Via.ite (fun _ => Via.pure hwf) fun _ => ?_
    split
    · exact Via.pure hwf
    · exact Via.pure hwf
  by_cases h : WriteRefused (v.inode i).size.toNat off n
  · refine (via_writei_refused devsw src hi hdev hoff hn h).mono ?_ fun _ h => h
    rintro _ _ ⟨-, rfl⟩
    exact hwf
  refine (via_writei devsw src hi hwf hlive hdev hoff hn h).mono (fun _ _ h => h.2.1.wf) ?_
  intro e he
  rw [he.1]
  decide

theorem via_run {op : Op} (hi : op.inum < L.ninodes) (hwf : WellFormed L v)
    (hlive : (v.inode op.inum).type ≠ 0) (hrange : op.InRange) :
    Via (Views L) (op.run L devsw) (fun _ w => WellFormed L w) (· ≠ .freeingFreeBlock) v := by
  cases op with
  | bmap i bn =>
    exact Via.bind (via_bmap_wellFormed hi hwf hlive) fun _ _ hw => Via.pure hw
  | writei i src off n =>
    refine Via.bind (via_writei_wellFormed hi hwf hlive hrange.1 hrange.2) fun _ _ hw => ?_
    exact Via.pure hw
  | itrunc i => exact (via_itrunc hi hwf hlive).mono (fun _ _ h => h.1) fun _ h => h

theorem wp_run {s : State} {op : Op} (hwf : WellFormed L (s.view L)) (hop : op.Allowed L s) :
    wp (op.run L devsw) (fun _ s' => WellFormed L (s'.view L)) (· ≠ .freeingFreeBlock) s := by
  obtain ⟨hi, hlive, hrange⟩ := hop
  rw [← view_inode hi] at hlive
  refine (via_run hi hwf hlive hrange s rfl).imp ?_
  rintro _ s' ⟨_, rfl, hw⟩
  exact hw

/-- **Every block has one owner**, in every run: starting from a well-formed file system, after any
sequence of `bmap`, `writei` and `itrunc` on allocated inodes the file system is well formed, and no
such call reaches `panic("freeing free block")`. -/
theorem blocks_owned (devsw : Devsw) {s : State}
    (h : Reachable (step L devsw) (fun s op => op.Allowed L s)
      (fun s => WellFormed L (s.view L)) s) : WellFormed L (s.view L) ∧
      ∀ op : Op, op.Allowed L s → op.run L devsw s ≠ .error .freeingFreeBlock := by
  have hwf : WellFormed L (s.view L) := by
    refine h.invariant (I := fun s => WellFormed L (s.view L)) (fun _ h₀ => h₀) ?_
    intro t op t' ht hop hstep
    unfold step at hstep
    split at hstep
    case h_1 u hrun =>
      cases hstep
      exact (wp_run ht hop).of_ok hrun
    case h_2 => cases hstep
  exact ⟨hwf, fun op hop herr => (wp_run hwf hop).of_error herr rfl⟩

/-- The first block of the root directory is allocated, and can be freed again. -/
theorem blocks_owned_bareFs : ∃ s,
    step stdLayout noDevices bareFs (.bmap 1 0) = some s ∧ WellFormed stdLayout (s.view stdLayout) ∧
      Op.run stdLayout noDevices (.itrunc 1) s ≠ .error .freeingFreeBlock := by
  have hcard : (wanted 1 0).card ≤ 1941 := by decide
  have hroot : (1 : ℕ) < stdLayout.ninodes := by decide
  have hlive : ((bareFs.view stdLayout).inode 1).type ≠ 0 := by
    rw [inode_bareFs_one]
    decide
  have hzero : 0 < MAXFILE := by decide
  have hbmap := (via_bmap hroot wellFormed_bareFs hlive hzero).mono (fun _ _ h => h)
    fun e he => he.2 _ (Finset.Subset.refl _) (fits_bareFs hcard)
  obtain ⟨b, s, _, hrun, rfl, hmaps⟩ := hbmap.exists_ok rfl
  have hstep : step stdLayout noDevices bareFs (.bmap 1 0) = some s := by
    rw [step, Op.run, bind_of_ok hrun]
    rfl
  have hstart : (Op.bmap 1 0).Allowed stdLayout bareFs := ⟨hroot, hlive, trivial⟩
  have hallowed : (Op.itrunc 1).Allowed stdLayout s := by
    have htype : (s.inode stdLayout 1).type = T_DIR := by
      rw [← view_inode hroot, hmaps.ext.type_eq, inode_bareFs_one]
    refine ⟨hroot, ?_, trivial⟩
    rw [Op.inum, htype]
    decide
  obtain ⟨hwf, hsafe⟩ := blocks_owned (L := stdLayout) noDevices (s := s)
    (.step (.start wellFormed_bareFs) hstart hstep)
  exact ⟨s, hstep, hwf, hsafe _ hallowed⟩

end Xv6.Fs
