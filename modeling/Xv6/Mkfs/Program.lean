import Xv6.Fs.Contents
import Xv6.Names.Dirent

/-!
# `mkfs`

The host program that builds a file system image: it zeroes the image, writes the super block, makes
a root directory, appends every host file under its name, and marks the blocks it has used.

Blocks and inodes are handed out in order, by counting. The image file has as many sectors as have
been written; reading past its end fails. Every failure ends the program.

The arguments are files that `open` could open. A host file comes in pieces, as `read` returns them.
On a host with little-endian byte order `xshort` and `xint` do nothing.
-/

namespace Xv6.Mkfs

open LittleEndian Bitmap Hoare Xv6.Fs Xv6.Names

def FSSIZE : ℕ := 2000

def NINODES : ℕ := 200

def nbitmap : ℕ := FSSIZE / (BSIZE * 8) + 1

def ninodeblocks : ℕ := NINODES / IPB + 1

def nmeta : ℕ := 2 + LOGSIZE + ninodeblocks + nbitmap

def sb : Superblock where
  size := FSSIZE
  ninodes := NINODES
  nlog := LOGSIZE
  logstart := 2
  inodestart := 2 + LOGSIZE
  bmapstart := 2 + LOGSIZE + ninodeblocks

structure Image where
  nsect : ℕ
  sect : Disk
  freeinode : ℕ
  freeblock : ℕ

/-- Why `mkfs` ends early. -/
inductive Exit where
  | sector
  /-- `perror("read")`. -/
  | read
  | assert
  deriving DecidableEq

/-- Parts of `mkfs`. -/
abbrev MM : Type → Type := StateT Image (Except Exit)

/-- An argument of `mkfs`: a name, and what `read` returns. -/
structure HostFile where
  name : List UInt8
  pieces : List (List UInt8)
  name_ne : ∀ c ∈ name, c ≠ 0
  piece_le : ∀ p ∈ pieces, p.length ≤ BSIZE

def HostFile.bytes (f : HostFile) : List UInt8 := f.pieces.flatten

def HostFile.fsName (f : HostFile) : List UInt8 :=
  if f.name.headD 0 = 95 then f.name.tail else f.name

/-! ### Sectors and inodes -/

def wsect (sec : ℕ) (buf : Block) : MM Unit := do
  if sec > FSSIZE then throw .sector
  else modify fun m =>
    { m with nsect := max m.nsect (sec + 1), sect := Function.update m.sect sec buf }

def rsect (sec : ℕ) : MM Block := do
  if sec > FSSIZE then throw .sector
  else do
    let m ← get
    if m.nsect ≤ sec then throw .read else return m.sect sec

def winode (inum : ℕ) (ip : Inode) : MM Unit := do
  let bn := IBLOCK inum sb
  let buf ← rsect bn
  wsect bn (putDinode buf (inum % IPB) ip)

def rinode (inum : ℕ) : MM Inode := do
  let buf ← rsect (IBLOCK inum sb)
  return getDinode buf (inum % IPB)

def newInode (type : Int16) : Inode := ⟨type, 0, 0, 1, 0, fun _ => 0⟩

def ialloc (type : Int16) : MM ℕ := do
  let m ← get
  let inum := m.freeinode
  set { m with freeinode := m.freeinode + 1 }
  winode inum (newInode type)
  return inum

def freeMap (used : ℕ) : Block := (List.range used).foldl setBit zeroBlock

def balloc (used : ℕ) : MM Unit := do
  if used < BSIZE * 8 then wsect sb.bmapstart (freeMap used) else throw .assert

/-! ### Appending -/

/-- `freeblock++`. -/
def takeBlock : MM ℕ := do
  let m ← get
  set { m with freeblock := m.freeblock + 1 }
  return m.freeblock

/-- `if(xint(din.addrs[k]) == 0) din.addrs[k] = xint(freeblock++);` -/
def fillAddr (din : Inode) (k : ℕ) : MM Inode := do
  if din.addr k = 0 then do
    let b ← takeBlock
    return din.setAddr k b
  else return din

/-- The same for entry `j` of the indirect block: its value. -/
def fillEntry (din : Inode) (j : ℕ) : MM ℕ := do
  let indirect ← rsect (din.addr NDIRECT)
  if getWord indirect j = 0 then do
    let b ← takeBlock
    let indirect := setWord indirect j b
    wsect (din.addr NDIRECT) indirect
    return getWord indirect j
  else return getWord indirect j

/-- The block for block `fbn` of a file, and its inode, in which it may be new. -/
def blockFor (din : Inode) (fbn : ℕ) : MM (Inode × ℕ) := do
  if fbn < NDIRECT then do
    let din ← fillAddr din fbn
    return (din, din.addr fbn)
  else do
    let din ← fillAddr din NDIRECT
    let x ← fillEntry din (fbn - NDIRECT)
    return (din, x)

/-- The loop of `iappend`. `fuel` bounds the iterations; each takes at least one byte of `p`. -/
def appendLoop : ℕ → Inode → ℕ → List UInt8 → MM (Inode × ℕ)
  | 0, din, off, _ => return (din, off)
  | fuel + 1, din, off, p =>
    if p.length > 0 then do
      let fbn := off / BSIZE
      if fbn < MAXFILE then do
        let (din, x) ← blockFor din fbn
        let n1 := min p.length ((fbn + 1) * BSIZE - off)
        let buf ← rsect x
        wsect x (blit buf (off - fbn * BSIZE) n1 fun j => p.getD j 0)
        appendLoop fuel din (off + n1) (p.drop n1)
      else throw .assert
    else return (din, off)

def iappend (inum : ℕ) (p : List UInt8) : MM Unit := do
  let din ← rinode inum
  let (din, off) ← appendLoop p.length din din.size.toNat p
  winode inum { din with size := UInt32.ofNat off }

/-! ### The program -/

def appendEntry (rootino inum : ℕ) (name : List UInt8) : MM Unit :=
  iappend rootino (Dirent.encode ⟨inum, strncpy name DIRSIZ⟩)

def addFile (rootino : ℕ) (f : HostFile) : MM Unit := do
  if 47 ∈ f.name then throw .assert
  else do
    let inum ← ialloc T_FILE
    appendEntry rootino inum f.fsName
    forEach (iappend inum) f.pieces

def superBlock : Block :=
  setFields zeroBlock [⟨0, 4, sb.size⟩, ⟨4, 4, FSSIZE - nmeta⟩, ⟨8, 4, sb.ninodes⟩,
    ⟨12, 4, sb.nlog⟩, ⟨16, 4, sb.logstart⟩, ⟨20, 4, sb.inodestart⟩, ⟨24, 4, sb.bmapstart⟩]

def fixSize (rootino : ℕ) : MM Unit := do
  let din ← rinode rootino
  winode rootino { din with size := UInt32.ofNat ((din.size.toNat / BSIZE + 1) * BSIZE) }

/-- After the image has been zeroed and the super block written. -/
def build (files : List HostFile) : MM Unit := do
  let rootino ← ialloc T_DIR
  if rootino ≠ Xv6.ROOTINO then throw .assert
  else do
    appendEntry rootino rootino dot
    appendEntry rootino rootino dotdot
    forEach (addFile rootino) files
    fixSize rootino
    let m ← get
    balloc m.freeblock

/-- `main`. -/
def main (files : List HostFile) : MM Unit := do
  forUpTo (fun i => wsect i zeroBlock) FSSIZE
  wsect 1 superBlock
  build files

/-- An empty file, and the counters when the blocks are about to be written. -/
def start : Image := ⟨0, fun _ => zeroBlock, 1, nmeta⟩

/-- The image that `mkfs` writes. -/
def mkfs (files : List HostFile) : Except Exit Image := (main files start).map (·.2)

end Xv6.Mkfs
