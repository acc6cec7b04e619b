import Ostep.Lib.CInt
import Ostep.Lib.Rle
import Ostep.Zip.Wzip
import Ostep.Zip.WzipSpec
import Ostep.Zip.Pzip
import Ostep.Zip.RoundTrip
import Ostep.Zip.PzipSpec
import Ostep.Zip.Parallel
import Ostep.Lib.Run
import Ostep.Xv6.Proc
import Ostep.Xv6.ProcSpec
import Ostep.Xv6.SlotClean
import Ostep.Xv6.Join
import Ostep.Xv6.AddrSpace
import Ostep.Xv6.Mmu
import Ostep.Xv6.Vm
import Ostep.Xv6.Protect
import Ostep.Xv6.SharedSz
import Ostep.Xv6.KernelStores
import Ostep.Xv6.StoreRange
import Ostep.Lib.CStr
import Ostep.Lib.Linked
import Ostep.Lib.Probe
import Ostep.MapReduce.Store
import Ostep.MapReduce.StoreSpec
import Ostep.MapReduce.Threads
import Ostep.MapReduce.ThreadsSpec
import Ostep.MapReduce.Grouping
import Ostep.MapReduce.Drain
import Ostep.Lib.Loop
import Ostep.Fs.Format
import Ostep.Fs.Xcheck
import Ostep.Fs.Decode
import Ostep.Fs.Bitmap
import Ostep.Fs.Scan
import Ostep.Fs.Range
import Ostep.Fs.Kernel
import Ostep.Fs.KernelSpec
import Ostep.Lib.Prefix
import Ostep.Fs.DirScan
import Ostep.Fs.RefCount
import Ostep.Fs.Dots
import Ostep.Lib.Crash
import Ostep.Fs.Log
import Ostep.Fs.Recovery
import Ostep.Fs.Admission
import Ostep.Lib.Bump
import Ostep.Fs.Mkfs
import Ostep.Fs.MkfsSpec
import Ostep.Fs.MkfsImage
import Ostep.Lib.GetD
import Ostep.Fs.MkfsCheck
import Ostep.Lib.Ring
import Ostep.Xv6.Pipe
import Ostep.Xv6.PipeSpec
import Ostep.Xv6.Scheduler
import Ostep.Xv6.Tickets
import Ostep.Xv6.ExitWake
import Ostep.Lib.RefCounts
import Ostep.Xv6.Ftable
import Ostep.Xv6.FtableSpec
import Ostep.Fs.MkfsAccept
import Ostep.Fs.MkfsRead
import Ostep.Lib.Slots
import Ostep.Fs.Blocks
import Ostep.Fs.Trunc
import Ostep.Fs.MkfsBlocks
import Ostep.Lib.Extents
import Ostep.Lib.Path
import Ostep.Lib.Word
import Ostep.Xv6.Malloc
import Ostep.Xv6.MallocSpec
import Ostep.Xv6.MallocRun
import Ostep.Lib.Affine
import Ostep.Xv6.Draws
import Ostep.Lib.Inventory
import Ostep.Xv6.PageTable
import Ostep.Xv6.Frames
import Ostep.Xv6.Kvm
import Ostep.Xv6.Exec
import Ostep.Xv6.ExecSpec
import Ostep.Xv6.ExecArgs
import Ostep.Xv6.ExecFault
import Ostep.Lib.Strtok
import Ostep.Wish.Wish
import Ostep.Wish.Parse
import Ostep.Wish.Segments
import Ostep.Zip.Canonical
import Ostep.Lib.Parking
import Ostep.MapReduce.Probes
import Ostep.MapReduce.Garbage
import Ostep.Fs.FileWrite
import Ostep.Fs.Names
import Ostep.Fs.Dir
import Ostep.Fs.Icache
import Ostep.Fs.Namex
import Ostep.Xv6.Grep
import Ostep.Xv6.MallocSize
import Ostep.Xv6.Memmove
import Ostep.Xv6.Pstat
import Ostep.MapReduce.Invariants
import Ostep.Wish.Path
import Ostep.Wish.Session
import Ostep.Xv6.Sh
import Ostep.Xv6.ShText
import Ostep.Xv6.Console
import Ostep.Xv6.ConsoleSpec
import Ostep.Lib.Dll
import Ostep.Xv6.Bio
import Ostep.Xv6.BioSpec
import Ostep.Fs.Tree
import Ostep.Fs.Nodes
import Ostep.Fs.Calls
import Ostep.Fs.Cached
import Ostep.Fs.CallWrites
import Ostep.Fs.CallsSpec
import Ostep.Fs.CallRuns
import Ostep.Fs.MkfsTree
import Ostep.Fs.Links
import Ostep.MapReduce.Wordcount
import Ostep.Xv6.Family
