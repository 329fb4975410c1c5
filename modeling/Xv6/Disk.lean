import Xv6.Lib.LittleEndian

/-!
# Constants, blocks and the disk layout

The constants of `param.h` and `fs.h`, a disk block as an array of bytes, and the superblock with
the macros that locate an inode and a bitmap bit.

A disk is a total map from block numbers to blocks. What a kernel function sees of it is what
`bread` returns, so the layers above the log work on the map of current block contents, and only
`Log.Recovery` distinguishes what is on the medium from what is in the buffer cache.
-/

namespace Xv6

open LittleEndian

/-! ### `param.h` and `fs.h` -/

def BSIZE : ℕ := 512

def MAXOPBLOCKS : ℕ := 10

def LOGSIZE : ℕ := MAXOPBLOCKS * 3

def NDIRECT : ℕ := 12

/-- Block addresses in an indirect block: `BSIZE / sizeof(uint)`. -/
def NINDIRECT : ℕ := BSIZE / 4

def MAXFILE : ℕ := NDIRECT + NINDIRECT

def BPB : ℕ := BSIZE * 8

def IPB : ℕ := BSIZE / 64

def ROOTINO : ℕ := 1

/-! ### Blocks -/

abbrev Block : Type := Fin BSIZE → UInt8

abbrev Disk : Type := ℕ → Block

def zeroBlock : Block := fun _ => 0

/-- `((uint*)data)[i]`. -/
def getWord (b : Block) (i : ℕ) : ℕ := getLE b (4 * i) 4

/-- `((uint*)data)[i] = v`. -/
def setWord (b : Block) (i v : ℕ) : Block := setLE b (4 * i) 4 v

theorem getWord_setWord_self {b : Block} {i v : ℕ} (hi : i < NINDIRECT) (hv : v < 2 ^ 32) :
    getWord (setWord b i v) i = v := by
  have hin : 4 * i + 4 ≤ BSIZE := by
    have : NINDIRECT = 128 := rfl
    have : BSIZE = 512 := rfl
    omega
  rw [getWord, setWord, getLE_setLE_self hin]
  exact Nat.mod_eq_of_lt hv

theorem getWord_setWord_of_ne {b : Block} {i j v : ℕ} (h : j ≠ i) :
    getWord (setWord b i v) j = getWord b j :=
  getLE_setLE_of_disjoint (by omega)

/-! ### The superblock -/

/-- The layout `mkfs` writes to block 1. -/
structure Superblock where
  size : ℕ
  ninodes : ℕ
  nlog : ℕ
  logstart : ℕ
  inodestart : ℕ
  bmapstart : ℕ
  deriving DecidableEq, Repr

/-- Block containing inode `i`. -/
def IBLOCK (i : ℕ) (sb : Superblock) : ℕ := i / IPB + sb.inodestart

/-- Block of free map containing bit for block `b`. -/
def BBLOCK (b : ℕ) (sb : Superblock) : ℕ := b / BPB + sb.bmapstart

/-- The superblock that `mkfs` computes for an image of `size` blocks with `ninodes` inodes and a
log of `nlog` blocks. -/
def mkfsSuperblock (size ninodes nlog : ℕ) : Superblock where
  size := size
  ninodes := ninodes
  nlog := nlog
  logstart := 2
  inodestart := 2 + nlog
  bmapstart := 2 + nlog + (ninodes / IPB + 1)

/-- `FSSIZE`, `NINODES` and `nlog = LOGSIZE`: the image the makefile builds. -/
def stdSuperblock : Superblock := mkfsSuperblock 2000 200 LOGSIZE

/-- A superblock whose regions follow one another: inode blocks, free map, data. `balloc` counts
blocks in an `int`, a whole free-map block at a time. -/
structure Layout extends Superblock where
  inodes_le : inodestart + (ninodes / IPB + 1) ≤ bmapstart
  bmap_le : bmapstart + (size / BPB + 1) ≤ size
  size_le : size + BPB ≤ 2 ^ 31

/-- The first data block: `nmeta`. -/
def Layout.datastart (L : Layout) : ℕ := L.bmapstart + (L.size / BPB + 1)

def stdLayout : Layout where
  toSuperblock := stdSuperblock
  inodes_le := by decide
  bmap_le := by decide
  size_le := by decide

end Xv6
