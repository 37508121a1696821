import Xv6.Schemes.Bytes
import Xv6.Schemes.Circular
import Xv6.Schemes.Count
import Xv6.Schemes.Halving
import Xv6.Schemes.Extents
import Xv6.Schemes.Hoare
import Xv6.Schemes.Ledger
import Xv6.Schemes.Prog
import Xv6.Schemes.Radix
import Xv6.Schemes.Packed
import Xv6.Schemes.Ring
import Xv6.Schemes.Shuffle
import Xv6.Schemes.Simulation
import Xv6.Schemes.System
import Xv6.Schemes.Update
import Xv6.Schemes.Writes
import Xv6.Kernel.Param
import Xv6.Kernel.Log.Header
import Xv6.Kernel.Log.Recovery
import Xv6.Kernel.Bio.Machine
import Xv6.Kernel.Log.Group
import Xv6.Kernel.Log.Isolation
import Xv6.Kernel.Log.Admission
import Xv6.Kernel.Log.Commit
import Xv6.Kernel.Bio.Frames
import Xv6.Kernel.Bio.Refcnt
import Xv6.Kernel.Bio.Transparent
import Xv6.Kernel.Bio.Written
import Xv6.Kernel.Log.Refine
import Xv6.Kernel.Fs.Inode
import Xv6.Kernel.Fs.Icache
import Xv6.Kernel.Fs.IcacheSafe
import Xv6.Kernel.Fs.IcacheSole
import Xv6.Kernel.Fs.Layout
import Xv6.Kernel.Fs.Files
import Xv6.Kernel.Fs.Names
import Xv6.Kernel.Fs.Exec
import Xv6.Kernel.Fs.Sysfile
import Xv6.Kernel.Fs.Blocks
import Xv6.Kernel.Fs.Invariant
import Xv6.Kernel.Fs.BlockSpec
import Xv6.Kernel.Fs.InodeSpec
import Xv6.Kernel.Fs.FileSpec
import Xv6.Kernel.Fs.NameSpec
import Xv6.Kernel.Fs.CallSpec
import Xv6.Kernel.Fs.CreateSpec
import Xv6.Kernel.Fs.Accounting
import Xv6.Kernel.Fs.Room
import Xv6.Kernel.Fs.Contents
import Xv6.Kernel.Fs.Arrays
import Xv6.Kernel.Fs.Shared
import Xv6.Kernel.Fs.SharedSpec
import Xv6.Kernel.Proc.Machine
import Xv6.Kernel.Proc.Steps
import Xv6.Kernel.Proc.Coherent
import Xv6.Kernel.Proc.OneCpu
import Xv6.Kernel.Proc.Family
import Xv6.Kernel.Proc.Wakeup
import Xv6.Kernel.Proc.Kill
import Xv6.Kernel.Proc.Records
import Xv6.Kernel.Proc.Reap
import Xv6.Kernel.Proc.Naps
import Xv6.Kernel.Proc.Interrupts
import Xv6.Kernel.Mem.Machine
import Xv6.Kernel.Mem.Vm
import Xv6.Kernel.Mem.Calls
import Xv6.Kernel.Mem.View
import Xv6.Kernel.Mem.Moves
import Xv6.Kernel.Mem.Sound
import Xv6.Kernel.Mem.Table
import Xv6.Kernel.Mem.PageSpec
import Xv6.Kernel.Mem.VmSpec
import Xv6.Kernel.Mem.CopySpec
import Xv6.Kernel.Mem.CallSpec
import Xv6.Kernel.Mem.SyscallSpec
import Xv6.Kernel.Mem.Spaces
import Xv6.Kernel.Mem.Lifetimes
import Xv6.Kernel.Mem.Sv39
import Xv6.Kernel.Mem.PageMap
import Xv6.Kernel.Mem.Copy
import Xv6.Kernel.Mem.CopyUser
import Xv6.Kernel.Mem.Uvm
import Xv6.Kernel.Mem.AddressSpace
import Xv6.Kernel.Mem.Refine
import Xv6.Kernel.Mem.Process
import Xv6.Kernel.Mem.Sbrk
import Xv6.Kernel.Mem.ForkCopy
import Xv6.Kernel.Sleep.Machine
import Xv6.Kernel.Sleep.Steps
import Xv6.Kernel.Sleep.Held
import Xv6.Kernel.Sleep.Kill
import Xv6.Kernel.Sleep.Files
import Xv6.Kernel.Sleep.Wakeups
import Xv6.Kernel.Sleep.Fifo
import Xv6.Kernel.Sleep.Notes
import Xv6.Kernel.Sleep.Counts
import Xv6.Kernel.Sleep.Console
import Xv6.Kernel.File.Table
import Xv6.Kernel.File.Refs
import Xv6.Kernel.File.CallSpec
import Xv6.Kernel.Buddy.Machine
import Xv6.Kernel.Buddy.Refine
import Xv6.Kernel.Buddy.Calls
import Xv6.Kernel.Buddy.Invariant
import Xv6.Kernel.Buddy.History
import Xv6.User.Malloc.Machine
import Xv6.User.Malloc.FreeList
import Xv6.User.Malloc.Calls
import Xv6.User.Malloc.Invariant
import Xv6.User.Malloc.Sbrk
import Xv6.User.Ulib
import Xv6.Kernel.Str
import Xv6.User.Xargs
import Xv6.User.Grep.Matcher
import Xv6.User.Grep.Buffer
import Xv6.User.Nsh.Relay
import Xv6.User.Nsh.Scanner
import Xv6.User.Nsh.Words
import Xv6.User.Nsh.Plain
import Xv6.User.Nsh.Blocking
