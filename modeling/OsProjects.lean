import OsProjects.Lib.Buffer
import OsProjects.Lib.Writes
import OsProjects.Lib.Reach
import OsProjects.Lib.Ownership
import OsProjects.Lib.FlatArray
import OsProjects.Lib.FoldM
import OsProjects.Lib.Prog
import OsProjects.Kernel.Param
import OsProjects.Kernel.Commit
import OsProjects.Kernel.Log
import OsProjects.Kernel.Bitmap
import OsProjects.Kernel.Dinode
import OsProjects.Kernel.Tree
import OsProjects.Kernel.Bmap
import OsProjects.Kernel.FileIo
import OsProjects.Kernel.Format
import OsProjects.Kernel.FileArray
import OsProjects.Kernel.Itrunc
import OsProjects.Kernel.Itable
import OsProjects.Kernel.Packing
import OsProjects.Kernel.BlockOwnership
import OsProjects.Kernel.Dirent
import OsProjects.Kernel.Vfs
import OsProjects.Kernel.Sysfile
import OsProjects.Kernel.Resolve
import OsProjects.Kernel.OpenLinks
import OsProjects.Kernel.Effects
import OsProjects.Kernel.OpenDir
import OsProjects.Kernel.SymlinkRecord
import OsProjects.Lib.Slots
import OsProjects.Kernel.DirMap
import OsProjects.Kernel.Balance
import OsProjects.Kernel.GroupCommit
import OsProjects.Kernel.NoHoles
import OsProjects.Dispatch.Config
import OsProjects.Dispatch.Machine
import OsProjects.Dispatch.Tables
import OsProjects.Dispatch.Handover
import OsProjects.Dispatch.LockStep
import OsProjects.Dispatch.Alive
import OsProjects.Kernel.Bcache
import OsProjects.Kernel.BcacheCode
import OsProjects.Kernel.CacheInv
import OsProjects.Kernel.CacheCommit
import OsProjects.Kernel.CacheView
import OsProjects.Kernel.CacheRoom
import OsProjects.Dispatch.Commands
import OsProjects.Dispatch.Dismissal
import OsProjects.Dispatch.Format
import OsProjects.Kernel.Pipe
import OsProjects.Kernel.Console
import OsProjects.Kernel.VirtioDisk
import OsProjects.Kernel.VirtioInv
import OsProjects.Kernel.VirtioRun
import OsProjects.Kernel.Proc
import OsProjects.Kernel.ProcInv
import OsProjects.Kernel.FreeSlots
import OsProjects.Kernel.Reaping
import OsProjects.Kernel.FileRules
import OsProjects.Kernel.FileRefs
import OsProjects.Kernel.FileCounts
import OsProjects.Kernel.PageTable
import OsProjects.Kernel.VmRules
import OsProjects.Kernel.UserMemory
import OsProjects.Kernel.VmCalls
import OsProjects.Kernel.VmInv
import OsProjects.Kernel.AddressSpaces
import OsProjects.Kernel.Truncation
import OsProjects.Kernel.TruncLog
import OsProjects.Kernel.BmapFailure
import OsProjects.Kernel.Grants
import OsProjects.Kernel.WriteRounds
import OsProjects.Kernel.WriteReport
import OsProjects.Kernel.VfsBlocks
import OsProjects.Kernel.WriteLog
import OsProjects.Kernel.CreateLink
import OsProjects.Kernel.SymlinkCall
import OsProjects.Kernel.SymlinkTargets
import OsProjects.Lib.Links
import OsProjects.Lib.Spans
import OsProjects.User.Umalloc
import OsProjects.User.FreeList
import OsProjects.User.Malloc
import OsProjects.User.HeapRuns
import OsProjects.Dispatch.TextLoad
import OsProjects.Dispatch.Bounds
import OsProjects.Kernel.UserCopy
import OsProjects.Kernel.OpenCreate
import OsProjects.Kernel.CreateFails
import OsProjects.User.Grep
import OsProjects.Kernel.BitmapSet
import OsProjects.User.Sbrk
import OsProjects.Kernel.Memmove
import OsProjects.Kernel.Spinlock
import OsProjects.Kernel.Uart
