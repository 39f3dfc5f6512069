import Nachos.Lib.Program
import Nachos.Lib.Interleave
import Nachos.Lib.Multitask
import Nachos.Lib.Bytes
import Nachos.Lib.Linked
import Nachos.FileSys.Sector
import Nachos.FileSys.Kernel
import Nachos.FileSys.BitMap
import Nachos.FileSys.FileHeader
import Nachos.FileSys.OpenFile
import Nachos.FileSys.Directory
import Nachos.FileSys.FileSystem
import Nachos.FileSys.FileNode
import Nachos.FileSys.FileSpec
import Nachos.FileSys.InPlace
import Nachos.FileSys.Allocate
import Nachos.FileSys.Extend
import Nachos.FileSys.Grow
import Nachos.FileSys.Allocation
import Nachos.FileSys.ByteArray
import Nachos.FileSys.ReadClamp
import Nachos.FileSys.Built
import Nachos.FileSys.IndexBound
import Nachos.FileSys.Drift
import Nachos.FileSys.DirSpec
import Nachos.FileSys.Path
import Nachos.FileSys.Dirs
import Nachos.FileSys.Volume
import Nachos.FileSys.Resolve
import Nachos.FileSys.Layout
import Nachos.FileSys.VolumeUpdate
import Nachos.FileSys.CreateSpec
import Nachos.FileSys.FormatSpec
import Nachos.FileSys.FailedGrowth
import Nachos.FileSys.PlainPath
import Nachos.FileSys.OpenSpec
import Nachos.FileSys.OpenExact
import Nachos.FileSys.Refusal
import Nachos.FileSys.CreateFrame
import Nachos.FileSys.NewDirectory
import Nachos.FileSys.BitSet
import Nachos.FileSys.WriteSpec
import Nachos.FileSys.FailedCreate
import Nachos.FileSys.RemoveSpec
import Nachos.FileSys.RemoveTree
import Nachos.FileSys.Removal
import Nachos.FileSys.Subtree
import Nachos.FileSys.Persistence
import Nachos.FileSys.Ownership
import Nachos.FileSys.Visits
import Nachos.FileSys.RoundTrip
import Nachos.FileSys.Clients
import Nachos.FileSys.Serial
import Nachos.FileSys.LostUpdate
import Nachos.Network.Packet
import Nachos.Threads.Machine
import Nachos.Threads.Synch
import Nachos.Threads.Action
import Nachos.Threads.Conserved
import Nachos.Threads.Dispatch
import Nachos.Threads.Blocked
import Nachos.Threads.Permits
import Nachos.Threads.Frame
import Nachos.Threads.Lock
import Nachos.Threads.Holder
import Nachos.Threads.Condition
import Nachos.Threads.RWLock
import Nachos.Threads.SynchList
import Nachos.Threads.SynchDisk
import Nachos.Threads.Alone
import Nachos.Threads.ConsoleInput
import Nachos.Threads.SynchConsole
import Nachos.Network.Sending
import Nachos.Network.PostalWorker
import Nachos.Network.Delivery
import Nachos.Threads.Reclaim
import Nachos.Threads.ThreadId
import Nachos.Machine.Memory
import Nachos.Machine.Paging
import Nachos.Machine.FrameMap
import Nachos.Machine.LeastRecent
import Nachos.Machine.Coherence
import Nachos.Machine.Reads
import Nachos.Machine.SingleUser
import Nachos.Machine.Loader
import Nachos.Machine.Placement
import Nachos.Machine.Isolation
import Nachos.Machine.Mappings
import Nachos.Lib.Mips
import Nachos.Machine.Instruction
import Nachos.Machine.Multiply
import Nachos.Machine.Alu
import Nachos.Machine.Overflow
import Nachos.Machine.VirtualMemory
import Nachos.Machine.Restart
import Nachos.Threads.List
import Nachos.Machine.Interrupt
import Nachos.Machine.Simultaneous
import Nachos.Machine.Disk
import Nachos.Machine.Elevator
import Nachos.Machine.ElevatorSpeed
import Nachos.Bin.Coff2Noff
import Nachos.Machine.Simulator
import Nachos.Machine.HostArithmetic
import Nachos.Machine.Timer
