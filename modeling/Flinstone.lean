import Flinstone.Disk.Codec
import Flinstone.Disk.Links
import Flinstone.Drivers.Console
import Flinstone.Drivers.Cstr
import Flinstone.Drivers.Dma
import Flinstone.Drivers.Keyboard
import Flinstone.Drivers.Ownership
import Flinstone.Drivers.PciConfig
import Flinstone.Drivers.RamDisk
import Flinstone.Drivers.Sequence
import Flinstone.Fs.FailedCalls
import Flinstone.Fs.JailOpen
import Flinstone.Fs.PathLog
import Flinstone.Fs.Policy
import Flinstone.Fs.RemovalComplete
import Flinstone.Fs.UndoOrder
import Flinstone.Heap.Sizes
import Flinstone.Mm.ArenaSizes
import Flinstone.Mm.Frames
import Flinstone.Mm.Primitives
import Flinstone.Sched.Handles
import Flinstone.Sched.PoolService
import Flinstone.Shell.Batch
import Flinstone.Shell.History
import Flinstone.Shell.Reruns
import Flinstone.Shell.Resolve
import Flinstone.Sys.CloseRace
import Flinstone.Sys.Drain
import Flinstone.Sys.MessageQueue
import Flinstone.Sys.Messages
import Flinstone.Vfs.Host
import Flinstone.Vfs.Listing
import Flinstone.Vm.ByteMoves
import Flinstone.Vm.Checkpoints
import Flinstone.Vm.Determinism
import Flinstone.Vm.Ide
import Flinstone.Vm.Image
import Flinstone.Vm.Interrupts
import Flinstone.Vm.Isolation
import Flinstone.Vm.Keyboard
import Flinstone.Vm.Paging
import Flinstone.Vm.Pci
import Flinstone.Vm.Replay
import Flinstone.Vm.ResetRequests
import Flinstone.Vm.Termination
