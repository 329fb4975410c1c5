import Xv6.Lib.LittleEndian
import Xv6.Lib.Bitmap
import Xv6.Lib.Crash
import Xv6.Lib.Hoare
import Xv6.Lib.Run
import Xv6.Lib.Ownership
import Xv6.Lib.Splice
import Xv6.Disk
import Xv6.Log.Recovery
import Xv6.Log.CrashAtomicity
import Xv6.Log.Protocol
import Xv6.Log.Invariant
import Xv6.Log.GroupCommit
import Xv6.Log.Reservation
import Xv6.Log.Store
import Xv6.Inode.Iput
import Xv6.Fs.Inode
import Xv6.Fs.Ops
import Xv6.Fs.View
import Xv6.Fs.Slots
import Xv6.Fs.Bmap
import Xv6.Fs.Itrunc
import Xv6.Fs.Contents
import Xv6.Fs.Blocks
import Xv6.Names.Dirent
import Xv6.Names.Dangling
import Xv6.Names.Leak
import Xv6.Names.Namespace
import Xv6.Sched.Family
import Xv6.Sched.Kill
import Xv6.Sched.Priority
import Xv6.Mkfs.Format
import Xv6.Mkfs.Holes
import Xv6.Vm.Copy
import Xv6.Vm.Spaces
import Xv6.Vm.Exec
import Xv6.Pipe.Wakeup
import Xv6.Console.Line
import Xv6.Bio.Cache
import Xv6.Fs.Offset
import Xv6.Names.Exec
import Xv6.Files.Flock
import Xv6.Fs.Writeback
import Xv6.Ide.Queue
import Xv6.Names.Types
import Xv6.User.Umalloc
import Xv6.Sh.Grammar
import Xv6.Ptable.Ps
import Xv6.Dev.Text
import Xv6.Fs.Filewrite
import Xv6.Fs.Logged
import Xv6.Names.Wrap
import Xv6.Mp.Table
import Xv6.User.Grep
import Xv6.User.Printf
import Xv6.Names.DirMap
import Xv6.Vm.Mappages
import Xv6.Names.Namei
import Xv6.User.Sbrk
import Xv6.Lib.Move
import Xv6.User.Memmove
import Xv6.Vm.Dealloc
import Xv6.Sched.Intr
