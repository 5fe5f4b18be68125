import LuojiOs.Scheduler.ReadySet
import LuojiOs.Scheduler.Priority
import LuojiOs.Scheduler.Highest
import LuojiOs.Kernel.Lists
import LuojiOs.Semaphore.HandOver
import LuojiOs.Mailbox.WakeUp
import LuojiOs.Mailbox.Timeouts
import LuojiOs.Waiting.Forever
import LuojiOs.Timer.Expiry
import LuojiOs.Timer.Periodic
import LuojiOs.Serial.RxFifo
import LuojiOs.Heap.Lock
import LuojiOs.Heap.WellFormed
import LuojiOs.Heap.Safety
import LuojiOs.Heap.Undo
import LuojiOs.Heap.Commute
import LuojiOs.Heap.Accounting
import LuojiOs.Heap.MallocAlign
import LuojiOs.Env.RoundTrip
import LuojiOs.Env.Capacity
import LuojiOs.Env.Agreement
import LuojiOs.Env.Unset
import LuojiOs.Env.AnySector
import LuojiOs.Env.Atomic
import LuojiOs.Env.Mac
import LuojiOs.Env.Checksum
import LuojiOs.Boot.Arguments
import LuojiOs.Boot.Command
import LuojiOs.Boot.Argvize
import LuojiOs.Tftp.Download
import LuojiOs.Tftp.Upload
import LuojiOs.Tftp.WrapAround
import LuojiOs.Tftp.Retry
import LuojiOs.Tftp.Acknowledged
import LuojiOs.Tftp.Firmware
import LuojiOs.Interrupt.Switching
import LuojiOs.Interrupt.Restored
import LuojiOs.Flash.Programming
import LuojiOs.Mtd.Partition
import LuojiOs.Files.DeviceReads
import LuojiOs.Files.ReadAhead
import LuojiOs.Files.Errors
import LuojiOs.Fat.Chain
import LuojiOs.Fat.Delivery
import LuojiOs.Fat.Geometry
import LuojiOs.Fat.Progress
import LuojiOs.Fat.RootLookup
import LuojiOs.Clock.Date
import LuojiOs.Shell.Completion
import LuojiOs.Shell.History
import LuojiOs.Shell.Indices
import LuojiOs.Shell.Refinement
import LuojiOs.Shell.Split
import LuojiOs.Mtd.Chunks
import LuojiOs.Mtd.Confinement
import LuojiOs.Mtd.Survival
import LuojiOs.Mtd.PartitionErrors
import LuojiOs.Flash.Bursts
import LuojiOs.Flash.Verify
import LuojiOs.Elf.SymbolBounds
import LuojiOs.Parse.Patterns
import LuojiOs.Parse.UrlText
import LuojiOs.Nand.Correction
import LuojiOs.Nand.Plain
import LuojiOs.Tcp.Network
import LuojiOs.Tcp.Window
import LuojiOs.Lwip.Expiry
import LuojiOs.Gmac.Receive
