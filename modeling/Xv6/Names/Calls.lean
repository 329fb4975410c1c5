import Xv6.Names.Icache
import Xv6.Names.Path

/-!
# Directories, path lookup and the file system calls

The rest of `fs.c` and the calls of `sysfile.c` on names, together with the parts of `file.c`,
`fork` and `exit` that hold references to inodes.

The loops over a directory and over a path are bounded by a counter that is larger than what is
left to do, so it does not run out.

A path argument is `none` where `argstr` fails.
-/

namespace Xv6.Names

open Hoare Function

/-! ### Directories -/

/-- The loop of `dirlookup`. -/
def dirlookupLoop (dp : Ptr) (name : List UInt8) : ℕ → ℕ → KM (Option (Ptr × ℕ))
  | 0, _ => return none
  | fuel + 1, off => do
    let d ← inode dp
    if off < d.size then do
      let (r, b) ← readi dp off DESIZE
      if r ≠ DESIZE then throw .dirlookupRead
      else
        let de := Dirent.decode b
        if de.inum = 0 then dirlookupLoop dp name fuel (off + DESIZE)
        else if namecmp name de.name = 0 then do
          -- entry matches path element
          let ip ← iget de.inum
          return some (ip, off)
        else dirlookupLoop dp name fuel (off + DESIZE)
    else return none

/-- Look for a directory entry in a directory. If found, also the byte offset of the entry. -/
def dirlookup (dp : Ptr) (name : List UInt8) : KM (Option (Ptr × ℕ)) := do
  let d ← inode dp
  if d.type ≠ T_DIR then throw .dirlookupNotDir
  else dirlookupLoop dp name (d.size + 1) 0

/-- The loop of `dirlink`: look for an empty dirent. -/
def dirlinkLoop (dp : Ptr) : ℕ → ℕ → KM ℕ
  | 0, off => return off
  | fuel + 1, off => do
    let d ← inode dp
    if off < d.size then do
      let (r, b) ← readi dp off DESIZE
      if r ≠ DESIZE then throw .dirlinkRead
      else if (Dirent.decode b).inum = 0 then return off
      else dirlinkLoop dp fuel (off + DESIZE)
    else return off

/-- Write a new directory entry `(name, inum)` into the directory `dp`. -/
def dirlink (dp : Ptr) (name : List UInt8) (inum : ℕ) : KM ℤ := do
  -- Check that name is not present.
  match ← dirlookup dp name with
  | some (ip, _) => do
    iput ip
    return -1
  | none => do
    let d ← inode dp
    let off ← dirlinkLoop dp (d.size + 1) 0
    let de : Dirent := ⟨inum, strncpy name DIRSIZ⟩
    let r ← writei dp de.encode off
    if r ≠ DESIZE then throw .dirlink else return 0

/-- The loop of `isdirempty`. -/
def isdiremptyLoop (dp : Ptr) : ℕ → ℕ → KM Bool
  | 0, _ => return true
  | fuel + 1, off => do
    let d ← inode dp
    if off < d.size then do
      let (r, b) ← readi dp off DESIZE
      if r ≠ DESIZE then throw .isdiremptyReadi
      else if (Dirent.decode b).inum ≠ 0 then return false
      else isdiremptyLoop dp fuel (off + DESIZE)
    else return true

/-- Is the directory `dp` empty except for `"."` and `".."`? -/
def isdirempty (dp : Ptr) : KM Bool := do
  let d ← inode dp
  isdiremptyLoop dp (d.size + 1) (2 * DESIZE)

section Calls

variable (ninodes : ℕ) (p : Fin NPROC)

/-! ### Paths -/

/-- `*myproc()`. -/
def myproc : KM Proc := do return (← get).procs p

/-- The loop of `namex`: the inode, and the last name if the parent is looked for. -/
def namexLoop (nameiparent : Bool) : ℕ → Path → Ptr → KM (Option (Ptr × List UInt8))
  | 0, _, _ => return none
  | fuel + 1, path, ip =>
    match skipelem path with
    | some (path, name) => do
      ilock ip
      let d ← inode ip
      if d.type ≠ T_DIR then do
        iunlockput ip
        return none
      else if nameiparent ∧ path = [] then do
        -- Stop one level early.
        iunlock ip
        return some (ip, name)
      else do
        match ← dirlookup ip name with
        | none => do
          iunlockput ip
          return none
        | some (next, _) => do
          iunlockput ip
          namexLoop nameiparent fuel path next
    | none =>
      if nameiparent then do
        iput ip
        return none
      else return some (ip, [])

def namexStart (path : Path) : KM Ptr :=
  if path.head? = some slash then iget ROOTINO
  else do
    let cur ← myproc p
    idup cur.cwd

/-- Look up and return the inode for a path name, or the inode for the parent and the final path
element. -/
def namex (path : Path) (nameiparent : Bool) : KM (Option (Ptr × List UInt8)) := do
  let ip ← namexStart p path
  namexLoop nameiparent (path.length + 1) path ip

def namei (path : Path) : KM (Option Ptr) := do
  return (← namex p path false).map Prod.fst

def nameiparent (path : Path) : KM (Option (Ptr × List UInt8)) := namex p path true

/-! ### Open files -/

def Kernel.setFile (s : Kernel) (f : Fin NFILE) (x : File) : Kernel :=
  { s with ftable := update s.ftable f x }

def Kernel.setProc (s : Kernel) (p : Fin NPROC) (x : Proc) : Kernel :=
  { s with procs := update s.procs p x }

/-- `*f`. -/
def file (f : Fin NFILE) : KM File := do return (← get).ftable f

/-- Change `*f`. -/
def setFile (f : Fin NFILE) (x : File) : KM Unit := modify fun s => s.setFile f x

def setProc (x : Proc) : KM Unit := modify fun s => s.setProc p x

/-- Set `ofile[fd]`. -/
def setOfile (fd : Fin NOFILE) (f : Option (Fin NFILE)) : KM Unit := do
  let cur ← myproc p
  setProc p { cur with ofile := update cur.ofile fd f }

def filealloc : KM (Option (Fin NFILE)) := do
  let s ← get
  match (List.finRange NFILE).find? fun f => (s.ftable f).ref = 0 with
  | none => return none
  | some f => do
    setFile f { s.ftable f with ref := 1 }
    return some f

/-- Increment ref count for file `f`. -/
def filedup (f : Fin NFILE) : KM Unit := do
  let x ← file f
  if x.ref < 1 then throw .filedup
  else setFile f { x with ref := x.ref + 1 }

/-- Close file `f`. (Decrement ref count, close when reaches 0.) Closing a pipe has no effect on
inodes. -/
def fileclose (f : Fin NFILE) : KM Unit := do
  let ff ← file f
  if ff.ref < 1 then throw .fileclose
  else if ff.ref - 1 > 0 then setFile f { ff with ref := ff.ref - 1 }
  else do
    setFile f { ff with ref := 0, type := .none }
    match ff.type with
    | .inode => iput ff.ip
    | .pipe => pure ()
    | .none => pure ()

def fdalloc (f : Fin NFILE) : KM (Option (Fin NOFILE)) := do
  let cur ← myproc p
  match (List.finRange NOFILE).find? fun fd => (cur.ofile fd).isNone with
  | none => return none
  | some fd => do
    setOfile p fd (some f)
    return some fd

/-! ### The calls -/

/-- Create the path `new` as a link to the same inode as `old`. -/
def sysLink (old new : Option Path) : KM ℤ :=
  match old, new with
  | some old, some new => do
    match ← namei p old with
    | none => return -1
    | some ip => do
      ilock ip
      let d ← inode ip
      if d.type = T_DIR then do
        iunlockput ip
        return -1
      else do
        updateInode ip fun d => { d with nlink := d.nlink + 1 }
        iunlock ip
        let bad : KM ℤ := do
          ilock ip
          updateInode ip fun d => { d with nlink := d.nlink - 1 }
          iunlockput ip
          return -1
        match ← nameiparent p new with
        | none => bad
        | some (dp, name) => do
          ilock dp
          let e ← incore ip
          let r ← dirlink dp name e.inum
          if r < 0 then do
            iunlockput dp
            bad
          else do
            iunlockput dp
            iput ip
            return 0
  | _, _ => return -1

/-- `!(ip->type == T_DIR && !isdirempty(ip))`. -/
def unlinkable (ip : Ptr) (type : Int16) : KM Bool :=
  if type = T_DIR then isdirempty ip else return true

/-- `if(ip->type == T_DIR){ dp->nlink--; iupdate(dp); }` -/
def unlinkParent (dp : Ptr) (type : Int16) : KM Unit :=
  if type = T_DIR then updateInode dp fun d => { d with nlink := d.nlink - 1 } else pure ()

/-- The part of `sys_unlink` after both inodes are locked; `off` is the offset of the entry. -/
def unlinkLocked (dp ip : Ptr) (off : ℕ) : KM ℤ := do
  let d ← inode ip
  if d.nlink < 1 then throw .unlinkNlink
  else do
    let ok ← unlinkable ip d.type
    if ¬ ok then do
      iunlockput ip
      iunlockput dp
      return -1
    else do
      let r ← writei dp Dirent.free.encode off
      if r ≠ DESIZE then throw .unlinkWritei
      else do
        unlinkParent dp d.type
        iunlockput dp
        updateInode ip fun d => { d with nlink := d.nlink - 1 }
        iunlockput ip
        return 0

def sysUnlink (path : Option Path) : KM ℤ :=
  match path with
  | none => return -1
  | some path => do
    match ← nameiparent p path with
    | none => return -1
    | some (dp, name) => do
      ilock dp
      -- Cannot unlink "." or "..".
      if namecmp name dot = 0 ∨ namecmp name dotdot = 0 then do
        iunlockput dp
        return -1
      else do
        match ← dirlookup dp name with
        | none => do
          iunlockput dp
          return -1
        | some (ip, off) => do
          ilock ip
          unlinkLocked dp ip off

/-- Create `.` and `..` entries. -/
def createDots (dp ip : Ptr) : KM Unit := do
  -- for ".."; no ip->nlink++ for ".": avoid cyclic ref count.
  updateInode dp fun d => { d with nlink := d.nlink + 1 }
  let e ← incore ip
  let d ← incore dp
  let r ← dirlink ip dot e.inum
  if r < 0 then throw .createDots
  else do
    let r ← dirlink ip dotdot d.inum
    if r < 0 then throw .createDots else pure ()

/-- `if(type == T_DIR){ ... }` -/
def createParent (dp ip : Ptr) (type : Int16) : KM Unit :=
  if type = T_DIR then createDots dp ip else pure ()

/-- The part of `create` that makes a new inode. -/
def createNew (dp : Ptr) (name : List UInt8) (type major minor : Int16) : KM Ptr := do
  let ip ← ialloc ninodes type
  ilock ip
  updateInode ip fun d => { d with major := major, minor := minor, nlink := 1 }
  createParent dp ip type
  let e ← incore ip
  let r ← dirlink dp name e.inum
  if r < 0 then throw .createDirlink
  else do
    iunlockput dp
    return ip

def create (path : Path) (type major minor : Int16) : KM (Option Ptr) := do
  match ← nameiparent p path with
  | none => return none
  | some (dp, name) => do
    ilock dp
    match ← dirlookup dp name with
    | some (ip, _) => do
      iunlockput dp
      ilock ip
      let d ← inode ip
      if type = T_FILE ∧ d.type = T_FILE then return some ip
      else do
        iunlockput ip
        return none
    | none => do
      let ip ← createNew ninodes dp name type major minor
      return some ip

def O_RDONLY : UInt32 := 0x000

def O_WRONLY : UInt32 := 0x001

def O_RDWR : UInt32 := 0x002

def O_CREATE : UInt32 := 0x200

/-- The first half of `sys_open`: the inode, locked. -/
def openInode (path : Path) (omode : UInt32) : KM (Option Ptr) :=
  if omode &&& O_CREATE ≠ 0 then create ninodes p path T_FILE 0 0
  else do
    match ← namei p path with
    | none => return none
    | some ip => do
      ilock ip
      let d ← inode ip
      if d.type = T_DIR ∧ omode ≠ O_RDONLY then do
        iunlockput ip
        return none
      else return some ip

/-- The second half of `sys_open`: a file and a descriptor for a locked inode. -/
def openFile (ip : Ptr) (omode : UInt32) : KM ℤ := do
  match ← filealloc with
  | none => do
    iunlockput ip
    return -1
  | some f => do
    match ← fdalloc p f with
    | none => do
      fileclose f
      iunlockput ip
      return -1
    | some fd => do
      iunlock ip
      let x ← file f
      setFile f
        { x with
          type := .inode
          ip := ip
          off := 0
          readable := omode &&& O_WRONLY = 0
          writable := omode &&& O_WRONLY ≠ 0 ∨ omode &&& O_RDWR ≠ 0 }
      return (fd : ℕ)

def sysOpen (path : Option Path) (omode : UInt32) : KM ℤ :=
  match path with
  | none => return -1
  | some path => do
    match ← openInode ninodes p path omode with
    | none => return -1
    | some ip => openFile p ip omode

def sysMkdir (path : Option Path) : KM ℤ :=
  match path with
  | none => return -1
  | some path => do
    match ← create ninodes p path T_DIR 0 0 with
    | none => return -1
    | some ip => do
      iunlockput ip
      return 0

def sysMknod (path : Option Path) (major minor : Int32) : KM ℤ :=
  match path with
  | none => return -1
  | some path => do
    match ← create ninodes p path T_DEV major.toInt16 minor.toInt16 with
    | none => return -1
    | some ip => do
      iunlockput ip
      return 0

def sysChdir (path : Option Path) : KM ℤ :=
  match path with
  | none => return -1
  | some path => do
    match ← namei p path with
    | none => return -1
    | some ip => do
      ilock ip
      let d ← inode ip
      if d.type ≠ T_DIR then do
        iunlockput ip
        return -1
      else do
        iunlock ip
        let cur ← myproc p
        iput cur.cwd
        setProc p { cur with cwd := ip }
        return 0

/-- `argfd` takes an `int`. -/
def sysClose (fd : ℤ) : KM ℤ := do
  let cur ← myproc p
  if h : 0 ≤ fd ∧ fd < NOFILE then
    match cur.ofile ⟨fd.toNat, by omega⟩ with
    | none => return -1
    | some f => do
      setOfile p ⟨fd.toNat, by omega⟩ none
      fileclose f
      return 0
  else return -1

/-- What `fork` does to files: the new process `np` gets the descriptors and the current directory.
`none` where there is no free process or no memory. -/
def fork (np : Option (Fin NPROC)) : KM ℤ :=
  match np with
  | none => return -1
  | some np => do
    let cur ← myproc p
    forEach (fun fd => match cur.ofile fd with
      | none => pure ()
      | some f => do
        filedup f
        setOfile np fd (some f)) (List.finRange NOFILE)
    let cwd ← idup cur.cwd
    let new ← myproc np
    setProc np { new with cwd := cwd, live := true }
    return 0

/-- What `exit` does to files. -/
def exit : KM ℤ :=
  if p.val = 0 then throw .initExiting
  else do
    -- Close all open files.
    forEach (fun fd => do
      let cur ← myproc p
      match cur.ofile fd with
      | none => pure ()
      | some f => do
        fileclose f
        setOfile p fd none) (List.finRange NOFILE)
    let cur ← myproc p
    iput cur.cwd
    setProc p { cur with live := false }
    return 0

end Calls

inductive Call where
  | open (path : Option Path) (omode : UInt32)
  | close (fd : ℤ)
  | link (old new : Option Path)
  | unlink (path : Option Path)
  | mkdir (path : Option Path)
  | mknod (path : Option Path) (major minor : Int32)
  | chdir (path : Option Path)
  | fork (np : Option (Fin NPROC))
  | exit

/-- The call by process `p`. -/
def Call.run (ninodes : ℕ) (p : Fin NPROC) : Call → KM ℤ
  | .open path omode => sysOpen ninodes p path omode
  | .close fd => sysClose p fd
  | .link old new => sysLink p old new
  | .unlink path => sysUnlink p path
  | .mkdir path => sysMkdir ninodes p path
  | .mknod path major minor => sysMknod ninodes p path major minor
  | .chdir path => sysChdir p path
  | .fork np => Names.fork p np
  | .exit => Names.exit p

/-- The process that `allocproc` hands to `fork`. -/
def Call.newProc : Call → Option (Fin NPROC)
  | .fork np => np
  | _ => none

/-- The process exists, and `fork` gets an unused one. -/
def Enabled (s : Kernel) (p : Fin NPROC) (c : Call) : Prop :=
  (s.procs p).live = true ∧ ∀ np ∈ c.newProc, (s.procs np).live = false

instance (s : Kernel) (p : Fin NPROC) (c : Call) : Decidable (Enabled s p c) :=
  inferInstanceAs (Decidable (_ ∧ _))

def step (ninodes : ℕ) (s : Kernel) (a : Fin NPROC × Call) : Option Kernel :=
  if Enabled s a.1 a.2 then
    match a.2.run ninodes a.1 s with
    | .ok (_, s') => some s'
    | .error _ => none
  else none

end Xv6.Names
