import Xv6.Fs.Inode
import Xv6.Lib.Bitmap
import Xv6.Lib.Hoare

/-!
# Blocks and inode contents

The lower half of `fs.c`: the block allocator, the map from a file's blocks to disk blocks, and
reading and writing a file's bytes. The functions run inside a transaction, so `bread` sees every
earlier `log_write`, and the state is the current contents of all blocks together with the
in-memory inodes.

`ip` is an inode number here. Its in-memory copy is what `ilock` leaves there: the cached copy if
there is one, otherwise what the disk says. `bmap` changes the copy and leaves it to its caller to
write it back.

A panic stops the program with an error. Machine integers are natural numbers; where an operation
of the source can wrap, the reduction is written out.
-/

namespace Xv6.Fs

open LittleEndian Bitmap Hoare

inductive Panic where
  /-- `panic("balloc: out of blocks")`. -/
  | outOfBlocks
  /-- `panic("freeing free block")`. -/
  | freeingFreeBlock
  /-- `panic("bmap: out of range")`. -/
  | bmapOutOfRange
  deriving DecidableEq, Repr

/-- All blocks as `bread` sees them, and the valid in-memory inodes. -/
structure State where
  disk : Disk
  icache : ℕ → Option Inode

abbrev FsM : Type → Type := StateT State (Except Panic)

/-- Number of entries of `devsw`. -/
def NDEV : ℕ := 10

/-- `devsw[]`: the read and write functions of a device by major number. A read function takes the
count and gives its return value and what it delivered; a write function takes the source and the
count. -/
structure Devsw where
  read : ℕ → Option (ℕ → ℤ × List UInt8)
  write : ℕ → Option ((ℕ → UInt8) → ℕ → ℤ)

def bread (b : ℕ) : FsM Block := do return (← get).disk b

def State.write (s : State) (b : ℕ) (data : Block) : State :=
  { s with disk := Function.update s.disk b data }

/-- Change a block: modify `bp->data`, then `log_write(bp)`. -/
def logWrite (b : ℕ) (data : Block) : FsM Unit := modify fun s => s.write b data

section Functions

variable (L : Layout)

/-- Inode `i` on disk. -/
def State.dinode (s : State) (i : ℕ) : Inode :=
  getDinode (s.disk (IBLOCK i L.toSuperblock)) (i % IPB)

/-- Inode `i` as a process that has locked it sees it. -/
def State.inode (s : State) (i : ℕ) : Inode := (s.icache i).getD (s.dinode L i)

/-- The fields of `ip`. -/
def inode (i : ℕ) : FsM Inode := do return (← get).inode L i

def State.cache (s : State) (i : ℕ) (ip : Inode) : State :=
  { s with icache := Function.update s.icache i (some ip) }

/-- Assign to fields of `ip`. -/
def setInode (i : ℕ) (ip : Inode) : FsM Unit := modify fun s => s.cache i ip

def bzero (b : ℕ) : FsM Unit := logWrite b zeroBlock

/-- The two loops of `balloc`: the first clear bit, one free-map block at a time. -/
def findFree (d : Disk) : Option ℕ :=
  (List.range ((L.size + BPB - 1) / BPB)).findSome? fun k =>
    let b := k * BPB
    let bp := d (BBLOCK b L.toSuperblock)
    ((List.range BPB).find? fun bi => b + bi < L.size && !getBit bp bi).map fun bi => b + bi

def balloc : FsM ℕ := do
  let s ← get
  match findFree L s.disk with
  | some b => do
    let bp ← bread (BBLOCK b L.toSuperblock)
    logWrite (BBLOCK b L.toSuperblock) (setBit bp (b % BPB))
    bzero b
    return b
  | none => throw .outOfBlocks

def bfree (b : ℕ) : FsM Unit := do
  let bp ← bread (BBLOCK b L.toSuperblock)
  if getBit bp (b % BPB) = false then throw .freeingFreeBlock
  else logWrite (BBLOCK b L.toSuperblock) (clearBit bp (b % BPB))

def iupdate (i : ℕ) : FsM Unit := do
  let bp ← bread (IBLOCK i L.toSuperblock)
  let ip ← inode L i
  logWrite (IBLOCK i L.toSuperblock) (putDinode bp (i % IPB) ip)

/-- `if((addr = ip->addrs[k]) == 0) ip->addrs[k] = addr = balloc(ip->dev);` -/
def bmapAddr (i k : ℕ) : FsM ℕ := do
  let ip ← inode L i
  if ip.addr k = 0 then do
    let addr ← balloc L
    let ip ← inode L i
    setInode i (ip.setAddr k addr)
    return addr
  else return ip.addr k

/-- `if((addr = a[j]) == 0){ a[j] = addr = balloc(ip->dev); log_write(bp); }`, where `a` is the
indirect block. -/
def bmapEntry (addr j : ℕ) : FsM ℕ := do
  let bp ← bread addr
  if getWord bp j = 0 then do
    let b ← balloc L
    logWrite addr (setWord bp j b)
    return b
  else return getWord bp j

/-- Return the disk block address of the `bn`th block in inode `i`. If there is no such block,
`bmap` allocates one. -/
def bmap (i bn : ℕ) : FsM ℕ :=
  if bn < NDIRECT then bmapAddr L i bn
  else if bn - NDIRECT < NINDIRECT then do
    -- load indirect block, allocating if necessary
    let addr ← bmapAddr L i NDIRECT
    bmapEntry L addr (bn - NDIRECT)
  else throw .bmapOutOfRange

def itruncDirect (i : ℕ) : FsM Unit :=
  forUpTo (fun k => do
    let ip ← inode L i
    if ip.addr k = 0 then pure ()
    else do
      bfree L (ip.addr k)
      setInode i (ip.setAddr k 0)) NDIRECT

/-- The second half of `itrunc`: the blocks in the indirect block, then the indirect block. -/
def itruncIndirect (i : ℕ) : FsM Unit := do
  let ip ← inode L i
  if ip.addr NDIRECT = 0 then pure ()
  else do
    let bp ← bread (ip.addr NDIRECT)
    forUpTo (fun j => if getWord bp j = 0 then pure () else bfree L (getWord bp j)) NINDIRECT
    bfree L (ip.addr NDIRECT)
    setInode i (ip.setAddr NDIRECT 0)

def itrunc (i : ℕ) : FsM Unit := do
  itruncDirect L i
  itruncIndirect L i
  let ip ← inode L i
  setInode i { ip with size := 0 }
  iupdate L i

/-- `memmove(bp->data + off, src, m)`. -/
def blit (bp : Block) (off m : ℕ) (src : ℕ → UInt8) : Block := fun j =>
  if off ≤ j ∧ (j : ℕ) < off + m then src (j - off) else bp j

/-- The loop of `readi`. `fuel` bounds the iterations; each delivers at least one byte. -/
def readLoop (i n : ℕ) : ℕ → ℕ → ℕ → FsM (List UInt8)
  | 0, _, _ => return []
  | fuel + 1, tot, off =>
    if tot < n then do
      let addr ← bmap L i (off / BSIZE)
      let bp ← bread addr
      let m := min (n - tot) (BSIZE - off % BSIZE)
      let rest ← readLoop i n fuel (tot + m) (off + m)
      return (List.range m).map (fun j => byteAt bp (off % BSIZE + j)) ++ rest
    else return []

/-- The loop of `writei`. It returns the final `off`. -/
def writeLoop (i n : ℕ) (src : ℕ → UInt8) : ℕ → ℕ → ℕ → FsM ℕ
  | 0, _, off => return off
  | fuel + 1, tot, off =>
    if tot < n then do
      let addr ← bmap L i (off / BSIZE)
      let bp ← bread addr
      let m := min (n - tot) (BSIZE - off % BSIZE)
      logWrite addr (blit bp (off % BSIZE) m fun j => src (tot + j))
      writeLoop i n src fuel (tot + m) (off + m)
    else return off

/-- `if(n > 0 && off > ip->size){ ip->size = off; iupdate(ip); }` -/
def growSize (i n off : ℕ) : FsM Unit := do
  let ip ← inode L i
  if n > 0 ∧ off > ip.size.toNat then do
    setInode i { ip with size := UInt32.ofNat off }
    iupdate L i
  else pure ()

variable (devsw : Devsw)

/-- Read data from inode: the return value, and the bytes stored at `dst`. -/
def readi (i off n : ℕ) : FsM (ℤ × List UInt8) := do
  let ip ← inode L i
  if ip.type = T_DEV then
    if ip.major < 0 ∨ ip.major.toInt ≥ NDEV then return (-1, [])
    else match devsw.read ip.major.toInt.toNat with
      | none => return (-1, [])
      | some read => return read n
  else if off > ip.size.toNat ∨ (off + n) % 2 ^ 32 < off then return (-1, [])
  else do
    let n := if (off + n) % 2 ^ 32 > ip.size.toNat then ip.size.toNat - off else n
    let dst ← readLoop L i n n 0 off
    return (n, dst)

def writei (i : ℕ) (src : ℕ → UInt8) (off n : ℕ) : FsM ℤ := do
  let ip ← inode L i
  if ip.type = T_DEV then
    if ip.major < 0 ∨ ip.major.toInt ≥ NDEV then return -1
    else match devsw.write ip.major.toInt.toNat with
      | none => return -1
      | some write => return write src n
  else if off > ip.size.toNat ∨ (off + n) % 2 ^ 32 < off then return -1
  else if (off + n) % 2 ^ 32 > MAXFILE * BSIZE then return -1
  else do
    let off ← writeLoop L i n src n 0 off
    growSize L i n off
    return n

end Functions

end Xv6.Fs
