import Panuti.Library.ByteMemory
import Panuti.Library.IntrusiveList
import Panuti.Library.Arena
import Panuti.Library.Climb
import Panuti.Libc.Malloc
import Panuti.Libc.HeapLayout
import Panuti.Libc.FreeList
import Panuti.Libc.RegionUpdates
import Panuti.Libc.RegionSteps
import Panuti.Libc.HeapSteps
import Panuti.Libc.HeapCalls
import Panuti.Libc.HeapSafety
import Panuti.Libc.HeapStructure
import Panuti.Kernel.Handle
import Panuti.Kernel.Task
import Panuti.Kernel.Accounting
import Panuti.Kernel.Descriptors
import Panuti.Kernel.Ownership
import Panuti.Kernel.HandleEvents
import Panuti.Kernel.HandleRuns
import Panuti.Native.Registry
import Panuti.Native.Counts
import Panuti.Native.Destroy
import Panuti.Native.Tree
import Panuti.Native.Links
import Panuti.Native.Creates
import Panuti.Native.Renames
import Panuti.Native.Namespace
import Panuti.Native.Runs
import Panuti.Native.Drops
import Panuti.Native.Replaces
import Panuti.Process.Tasks
import Panuti.Process.Pids
import Panuti.Process.Waits
import Panuti.Process.Collections
import Panuti.Process.WaitRuns
import Panuti.Library.Runs
import Panuti.Library.Ring
import Panuti.Kernel.Pipe
import Panuti.Kernel.PipeFlow
import Panuti.Kernel.PipeRuns
import Panuti.Kernel.PipeWaiters
import Panuti.Library.PageTable
import Panuti.Memory.Vmm
import Panuti.Elf.Loader
import Panuti.Memory.Maps
import Panuti.Memory.Vmalloc
import Panuti.Memory.SlabRuns
import Panuti.Elf.UserHalf
import Panuti.Memory.MapFrames
import Panuti.Elf.ImagePlan
import Panuti.Elf.ImageSteps
import Panuti.Elf.ImageContents
import Panuti.Library.RecordChain
import Panuti.Ext2.Dirents
import Panuti.Ext2.DirentBounds
import Panuti.Ext2.DirentLayout
import Panuti.Ext2.DirentMap
import Panuti.Library.Bitmap
import Panuti.Ext2.Volume
import Panuti.Ext2.Allocators
import Panuti.Ext2.BitmapView
import Panuti.Ext2.AllocatorState
import Panuti.Ext2.BlockSteps
import Panuti.Ext2.FlushSteps
import Panuti.Ext2.InodeSteps
import Panuti.Ext2.AllocatorRuns
import Panuti.Library.Word32
import Panuti.Ext2.Mount
import Panuti.Ext2.CheckedCalls
import Panuti.Ext2.MountRuns
import Panuti.Ext2.Listing
import Panuti.Ext2.ListingSearch
import Panuti.Ext2.ListingRuns
import Panuti.Ext2.Emptiness
import Panuti.Ext2.Removal
import Panuti.Mounts.Registry
import Panuti.Mounts.Calls
import Panuti.Mounts.Caches
import Panuti.Mounts.Unlinks
import Panuti.Library.ListWalk
import Panuti.Native.DirWalks
import Panuti.Log.Kmsg
import Panuti.Log.KmsgReads
import Panuti.Log.KmsgRuns
import Panuti.Pur.Commands
import Panuti.Pur.Delivery
import Panuti.Block.HandleRuns
import Panuti.Memory.Pmm
import Panuti.Memory.PmmRuns
import Panuti.Memory.BitmapPlace
import Panuti.Elf.SpaceRuns
import Panuti.Nib.Editing
import Panuti.Calc.Eval
import Panuti.Calc.Exactness
import Panuti.Disk.Ata
import Panuti.Disk.Partitions
import Panuti.Kernel.DescriptorBits
import Panuti.Kernel.DescriptorRuns
import Panuti.Library.Calendar
import Panuti.Log.KmsgResyncs
import Panuti.Time.Calendars
import Panuti.Native.Mkdirs
import Panuti.Iso9660.Directory
import Panuti.Iso9660.Extents
import Panuti.Iso9660.Listings
import Panuti.Files.Ext2Files
import Panuti.Library.Quicksort
import Panuti.Pcrutils.Comm
import Panuti.Pcrutils.Cut
import Panuti.Pcrutils.Head
import Panuti.Pcrutils.Sort
import Panuti.Pcrutils.Split
import Panuti.Pcrutils.Tail
import Panuti.Pcrutils.Tr
import Panuti.Library.Crc
import Panuti.Library.MergeJoin
import Panuti.Library.Wildcard
import Panuti.Pcrutils.Cksum
import Panuti.Pcrutils.Find
import Panuti.Pcrutils.Glob
import Panuti.Pcrutils.Join
import Panuti.Pur.Exec
import Panuti.Pcrutils.Seq
import Panuti.Nib.RoundTrip
import Panuti.Serial.Baud
import Panuti.Serial.Lossless
import Panuti.Tty.Terminal
import Panuti.Kbd.Wakeups
import Panuti.Kbd.Ps2
import Panuti.Kbd.Line
import Panuti.Cp.Contents
import Panuti.Cp.Trees
import Panuti.Process.ReadyQueue
import Panuti.Pcrutils.Rev
import Panuti.Pcrutils.Nl
import Panuti.Pcrutils.Paste
import Panuti.Pcrutils.Uniq
import Panuti.Pcrutils.Cmp
import Panuti.Conway.Life
import Panuti.Pur.Run
