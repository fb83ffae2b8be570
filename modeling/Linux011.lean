import Linux011.Lib.Count
import Linux011.Lib.Except
import Linux011.Lib.Trans
import Linux011.Lib.Path
import Linux011.Lib.Long
import Linux011.Lib.Delta
import Linux011.Lib.Prog
import Linux011.Lib.Linked
import Linux011.Lib.Bytes
import Linux011.Lib.Ring
import Linux011.Lib.Elevator
import Linux011.Lib.Slots
import Linux011.Lib.Doubly
import Linux011.Lib.Words
import Linux011.Mm.Memory
import Linux011.Mm.Refs
import Linux011.Mm.Inv
import Linux011.Mm.Tables
import Linux011.Mm.Pages
import Linux011.Mm.Ops
import Linux011.Mm.Tasks
import Linux011.Mm.Moves
import Linux011.Mm.SysInv
import Linux011.Mm.Accesses
import Linux011.Mm.Runs
import Linux011.Mm.Isolation
import Linux011.Mm.CopyOut
import Linux011.Mm.Sharing
import Linux011.Fs.Buffer
import Linux011.Fs.Procs
import Linux011.Fs.Identity
import Linux011.Fs.InodeLocks
import Linux011.Fs.SelfWait
import Linux011.Fs.InodeIds
import Linux011.Fs.InodeIdsRuns
import Linux011.Fs.Pipe
import Linux011.Fs.PipeInv
import Linux011.Fs.PipeRuns
import Linux011.Fs.Tables
import Linux011.Fs.Bmap
import Linux011.Fs.Inode
import Linux011.Fs.Namei
import Linux011.Fs.NameCalls
import Linux011.Fs.FileCalls
import Linux011.Fs.TaskCalls
import Linux011.Fs.Refs
import Linux011.Fs.RefSpecs
import Linux011.Fs.RefPaths
import Linux011.Fs.RefCalls
import Linux011.Fs.RefRuns
import Linux011.Fs.Deaths
import Linux011.Fs.Tabled
import Linux011.Fs.WriteAccess
import Linux011.Fs.Extend
import Linux011.Fs.ExtendRuns
import Linux011.Fs.Exclusive
import Linux011.Fs.ExclusiveRuns
import Linux011.Fs.Truncate
import Linux011.Fs.TruncateRuns
import Linux011.Fs.Trees
import Linux011.Fs.TreeSpecs
import Linux011.Fs.TreePaths
import Linux011.Fs.Confinement
import Linux011.Fs.Balance
import Linux011.Fs.Seek
import Linux011.Blk.Request
import Linux011.Blk.Elevator
import Linux011.Blk.MakeRequest
import Linux011.Blk.Integrity
import Linux011.Kernel.Timer
import Linux011.Kernel.TimerRuns
import Linux011.Kernel.Sched
import Linux011.Kernel.Wait
import Linux011.Kernel.SleepOn
import Linux011.Kernel.InterruptibleSleep
import Linux011.Kernel.Fork
import Linux011.Kernel.Signal
import Linux011.Kernel.ProcTable
import Linux011.Kernel.ProcRuns
import Linux011.Kernel.Fpu
import Linux011.Chr.Tty
import Linux011.Chr.TtyRuns
import Linux011.Chr.Write
import Linux011.Chr.Overrun
import Linux011.Malloc.Buckets
import Linux011.Malloc.Shape
import Linux011.Malloc.Ops
import Linux011.Malloc.Pages
import Linux011.Malloc.Runs
import Linux011.Chr.Console
import Linux011.Chr.ConsoleRuns
import Linux011.Exec.Header
import Linux011.Exec.Strings
import Linux011.Exec.Execve
import Linux011.Exec.ArgPages
import Linux011.Exec.Stack
import Linux011.Exec.Segment
import Linux011.Exec.Layout
import Linux011.Exec.Script
import Linux011.Chr.OverrunRuns
import Linux011.Fs.DirMap
import Linux011.Fs.DirAdd
import Linux011.Fs.Queues
import Linux011.Fs.QueueRuns
import Linux011.Fs.BufferWait
import Linux011.Fs.ReadAhead
import Linux011.Mm.VerifyArea
import Linux011.Fs.Bitmap
import Linux011.Fs.BitmapSpecs
import Linux011.Fs.CloseOnExec
import Linux011.Blk.ReadsFirst
import Linux011.Kernel.Kill
import Linux011.Fs.Access
import Linux011.Kernel.Alarm
import Linux011.Fs.EmptyDir
import Linux011.Fs.Ledger
import Linux011.Fs.ReadSuper
import Linux011.Blk.RamdiskLoad
import Linux011.Blk.Floppy
import Linux011.Blk.Hd
import Linux011.Blk.LastRequest
import Linux011.Chr.ConWrite
import Linux011.Chr.ConWriteRuns
import Linux011.Boot.ReadIt
import Linux011.Exec.Descriptor
import Linux011.Fs.BufferLayout
import Linux011.Kernel.Mktime
import Linux011.Kernel.Number
import Linux011.Kernel.Vsprintf
import Linux011.Kernel.StringOps
import Linux011.Kernel.Strtok
import Linux011.Chr.SavedCursor
import Linux011.Boot.Build
import Linux011.Lib.Steps
import Linux011.Boot.Setup
import Linux011.Boot.Paging
import Linux011.Chr.Serial
import Linux011.Kernel.Fairness
import Linux011.Boot.Memory
import Linux011.Chr.Keyboard
import Linux011.Kernel.Credentials
import Linux011.Blk.Motor
import Linux011.Lib.Writers
import Linux011.Fs.Contents
import Linux011.Blk.Geometry
import Linux011.Lib.Records
import Linux011.Fs.DiskLayout
import Linux011.Blk.RamdiskRequests
