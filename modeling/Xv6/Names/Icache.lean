import Xv6.Fs.Inode
import Xv6.Lib.Hoare
import Xv6.Names.Dirent

/-!
# The inode cache

The upper half of `fs.c` works on in-memory inodes: entries of a fixed table, referenced by pointer
and counted. This module has the state that the file system calls work on, and the functions that
get, lock, release and change an inode.

One process runs at a time, each call to its end. So a sleep-lock that is found locked is held by
the calling process, and `acquiresleep` then sleeps for ever: `Stop.deadlock`. Transactions
(`begin_op`, `end_op`) are not visible at this level.

The contents of a file are the flat array of bytes of `Fs.Contents`; an inode on disk is its fields
and its contents. That leaves out one panic, `balloc: out of blocks`. All inodes are on one device.
-/

namespace Xv6.Names

open Splice Hoare

def NINODE : ℕ := 50

def NFILE : ℕ := 100

def NOFILE : ℕ := 16

def NPROC : ℕ := 64

def ROOTINO : ℕ := 1

instance : NeZero NINODE := ⟨by decide⟩
instance : NeZero NPROC := ⟨by decide⟩

structure Dinode where
  type : Int16
  major : Int16
  minor : Int16
  nlink : Int16
  data : List UInt8
  deriving DecidableEq

def Dinode.size (dip : Dinode) : ℕ := dip.data.length

/-- `struct inode *`: an entry of the inode cache. -/
abbrev Ptr := Fin NINODE

structure Incore where
  inum : ℕ
  ref : ℕ
  /-- `lock.locked`. -/
  locked : Bool
  valid : Bool
  dip : Dinode

/-- The `type` of a `struct file`. -/
inductive FdType where
  | none
  | pipe
  | inode
  deriving DecidableEq

/-- `struct file`. -/
structure File where
  type : FdType
  ref : ℕ
  readable : Bool
  writable : Bool
  /-- Where `type` is `inode`. -/
  ip : Ptr
  off : ℕ

/-- What a `struct proc` has to do with files. -/
structure Proc where
  live : Bool
  cwd : Ptr
  ofile : Fin NOFILE → Option (Fin NFILE)

structure Kernel where
  disk : ℕ → Dinode
  icache : Ptr → Incore
  ftable : Fin NFILE → File
  procs : Fin NPROC → Proc

inductive Stop where
  /-- `acquiresleep` on a lock the process holds. -/
  | deadlock
  /-- `panic("iget: no inodes")`. -/
  | igetNoInodes
  /-- `panic("ilock")`. -/
  | ilock
  /-- `panic("ilock: no type")`. -/
  | ilockNoType
  /-- `panic("iunlock")`. -/
  | iunlock
  /-- `panic("ialloc: no inodes")`. -/
  | iallocNoInodes
  /-- `panic("dirlookup not DIR")`. -/
  | dirlookupNotDir
  /-- `panic("dirlookup read")`. -/
  | dirlookupRead
  /-- `panic("dirlink read")`. -/
  | dirlinkRead
  /-- `panic("dirlink")`. -/
  | dirlink
  /-- `panic("isdirempty: readi")`. -/
  | isdiremptyReadi
  /-- `panic("unlink: nlink < 1")`. -/
  | unlinkNlink
  /-- `panic("unlink: writei")`. -/
  | unlinkWritei
  /-- `panic("create dots")`. -/
  | createDots
  /-- `panic("create: dirlink")`. -/
  | createDirlink
  /-- `panic("filedup")`. -/
  | filedup
  /-- `panic("fileclose")`. -/
  | fileclose
  /-- `panic("fileread")`. -/
  | fileread
  /-- `panic("filewrite")`. -/
  | filewrite
  /-- `panic("short filewrite")`. -/
  | shortFilewrite
  /-- `panic("init exiting")`. -/
  | initExiting
  deriving DecidableEq, Repr

abbrev KM : Type → Type := StateT Kernel (Except Stop)

/-! ### Cache entries -/

/-- `*ip`. -/
def incore (ip : Ptr) : KM Incore := do return (← get).icache ip

def Kernel.setIncore (s : Kernel) (ip : Ptr) (x : Incore) : Kernel :=
  { s with icache := Function.update s.icache ip x }

/-- Change fields of `*ip`. -/
def modifyIncore (ip : Ptr) (f : Incore → Incore) : KM Unit :=
  modify fun s => s.setIncore ip (f (s.icache ip))

def Kernel.setDinode (s : Kernel) (inum : ℕ) (dip : Dinode) : Kernel :=
  { s with disk := Function.update s.disk inum dip }

def modifyDinode (inum : ℕ) (f : Dinode → Dinode) : KM Unit :=
  modify fun s => s.setDinode inum (f (s.disk inum))

def acquiresleep (ip : Ptr) : KM Unit := do
  let e ← incore ip
  if e.locked then throw .deadlock
  else modifyIncore ip fun e => { e with locked := true }

def releasesleep (ip : Ptr) : KM Unit := modifyIncore ip fun e => { e with locked := false }

/-- Find the inode with number `inum` and return the in-memory copy. Does not lock the inode and
does not read it from disk. -/
def iget (inum : ℕ) : KM Ptr := do
  let s ← get
  -- Is the inode already cached?
  match (List.finRange NINODE).find? fun ip =>
      0 < (s.icache ip).ref ∧ (s.icache ip).inum = inum with
  | some ip => do
    modifyIncore ip fun e => { e with ref := e.ref + 1 }
    return ip
  | none =>
    -- Recycle an inode cache entry.
    match (List.finRange NINODE).find? fun ip => (s.icache ip).ref = 0 with
    | none => throw .igetNoInodes
    | some ip => do
      modifyIncore ip fun e => { e with inum := inum, ref := 1, valid := false }
      return ip

/-- Increment reference count for `ip`. -/
def idup (ip : Ptr) : KM Ptr := do
  modifyIncore ip fun e => { e with ref := e.ref + 1 }
  return ip

def loadInode (ip : Ptr) : KM Unit := do
  let s ← get
  modifyIncore ip fun e => { e with dip := s.disk e.inum, valid := true }

/-- Lock the given inode. Reads the inode from disk if necessary. -/
def ilock (ip : Ptr) : KM Unit := do
  let e ← incore ip
  if e.ref < 1 then throw .ilock
  else do
    acquiresleep ip
    let e ← incore ip
    if e.valid then pure ()
    else do
      loadInode ip
      let e ← incore ip
      if e.dip.type = 0 then throw .ilockNoType else pure ()

def iunlock (ip : Ptr) : KM Unit := do
  let e ← incore ip
  if ¬ e.locked ∨ e.ref < 1 then throw .iunlock
  else releasesleep ip

def iupdate (ip : Ptr) : KM Unit := do
  let e ← incore ip
  modifyDinode e.inum fun _ => e.dip

/-- Assign to fields of the copy, then `iupdate(ip)`. -/
def updateInode (ip : Ptr) (f : Dinode → Dinode) : KM Unit := do
  modifyIncore ip fun e => { e with dip := f e.dip }
  iupdate ip

def itrunc (ip : Ptr) : KM Unit := updateInode ip fun dip => { dip with data := [] }

/-- Drop a reference to an in-memory inode. If that was the last reference, the inode cache entry
can be recycled. If that was the last reference and the inode has no links to it, free the inode
(and its content) on disk. -/
def iput (ip : Ptr) : KM Unit := do
  acquiresleep ip
  let e ← incore ip
  if e.valid ∧ e.dip.nlink = 0 ∧ e.ref = 1 then do
    -- inode has no links and no other references: truncate and free.
    itrunc ip
    updateInode ip fun dip => { dip with type := 0 }
    modifyIncore ip fun e => { e with valid := false }
  else pure ()
  releasesleep ip
  modifyIncore ip fun e => { e with ref := e.ref - 1 }

def iunlockput (ip : Ptr) : KM Unit := do
  iunlock ip
  iput ip

def inode (ip : Ptr) : KM Dinode := do return (← incore ip).dip

/-- Allocate an inode: mark it as allocated by giving it type `type`. Returns an unlocked but
allocated and referenced inode. `ninodes` is `sb.ninodes`. -/
def ialloc (ninodes : ℕ) (type : Int16) : KM Ptr := do
  let s ← get
  match (List.range' 1 (ninodes - 1)).find? fun inum => (s.disk inum).type = 0 with
  | none => throw .iallocNoInodes
  | some inum => do
    modifyDinode inum fun _ => ⟨type, 0, 0, 0, []⟩
    iget inum

/-! ### Contents

Of inodes that are no devices. -/

def readi (ip : Ptr) (off n : ℕ) : KM (ℤ × List UInt8) := do
  let dip ← inode ip
  if off > dip.size ∨ (off + n) % 2 ^ 32 < off then return (-1, [])
  else return ((slice dip.data off n).length, slice dip.data off n)

/-- Write data to inode. The blocks are those of the inode on disk. -/
def writei (ip : Ptr) (src : List UInt8) (off : ℕ) : KM ℤ := do
  let e ← incore ip
  if off > e.dip.size ∨ (off + src.length) % 2 ^ 32 < off then return -1
  else if (off + src.length) % 2 ^ 32 > MAXFILE * BSIZE then return -1
  else do
    modifyIncore ip fun e => { e with dip.data := splice e.dip.data off src }
    modifyDinode e.inum fun dip => { dip with data := splice e.dip.data off src }
    return src.length

end Xv6.Names
