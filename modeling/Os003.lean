import Os003.Fs.File
import Os003.Fs.View
import Os003.Lib.Chain
import Os003.Fs.Alloc
import Os003.Fs.Commands
import Os003.Fs.DriveIsolation
import Os003.Fs.Walk
import Os003.Fs.Contents
import Os003.Fs.Hint
import Os003.Fs.Supply
import Os003.Fs.WriteLoop
import Os003.Fs.Write
import Os003.Fs.Append
import Os003.Fs.Lookup
import Os003.Fs.Tidy
import Os003.Fs.LongName
import Os003.Fs.Selection
import Os003.Fs.Emptiness
import Os003.Fs.Boundaries
import Os003.Fs.Endless
import Os003.Fs.Fragments
import Os003.Fs.Refusal
import Os003.Fs.Listing
import Os003.Fs.FreeChain
import Os003.Fs.Reading
import Os003.Fs.Paths
import Os003.Kernel.Partition
import Os003.Kernel.Exclusion
import Os003.Kernel.Kill
import Os003.Kernel.Rotation
import Os003.Mm.Pmm
import Os003.Mm.Records
import Os003.Mm.BootMap
import Os003.Mm.Metadata
import Os003.Mm.BootData
import Os003.Mm.PageMap
import Os003.Mm.Separate
import Os003.Kernel.Table
import Os003.Kernel.AddressSpace
import Os003.Kernel.Release
import Os003.Kernel.Semaphores
import Os003.Kernel.Sleeping
import Os003.Kernel.Syscall
import Os003.Kernel.Spinlock
import Os003.Kernel.StackFrames
import Os003.Kernel.Failure
import Os003.Mm.Search
import Os003.Mm.Translation
import Os003.Mm.Frame
import Os003.Mm.RegionTable
import Os003.Drives.Keyboard
import Os003.Mm.Bounds
import Os003.Mm.Atomicity
import Os003.Drives.ReadErrors
import Os003.Drives.AtaPorts
import Os003.Drives.Blit
import Os003.Drives.Acpi
import Os003.Kernel.Clock
import Os003.Kernel.Format
import Os003.Fs.FilePages
import Os003.Fs.TwoHandles
import Os003.Drives.Line
import Os003.Fs.Deletion
import Os003.Fs.BoundedRuns
import Os003.Fs.TreeRuns
import Os003.Fs.Sessions
