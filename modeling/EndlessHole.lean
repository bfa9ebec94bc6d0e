import EndlessHole.Lib.Fault
import EndlessHole.Lib.Usize
import EndlessHole.Lib.Regions
import EndlessHole.Lib.Bytes
import EndlessHole.Lib.Iterator
import EndlessHole.Memory.Basic
import EndlessHole.Memory.Buddy
import EndlessHole.Memory.BuddyInvariant
import EndlessHole.Memory.BuddyRegion
import EndlessHole.Memory.PageTable
import EndlessHole.Memory.PageTableTree
import EndlessHole.Memory.PageTableWalk
import EndlessHole.Memory.PageTableMap
import EndlessHole.Memory.Heap
import EndlessHole.Memory.HeapInvariant
import EndlessHole.Memory.SubtractRanges
import EndlessHole.Collections.HandleAllocator
import EndlessHole.Collections.HandleMap
import EndlessHole.Collections.HandleMapConcurrent
import EndlessHole.Collections.HandleMapSpec
import EndlessHole.Collections.HandleMapSerial
import EndlessHole.Collections.HandleMapDrop
import EndlessHole.Collections.ArcSwap
import EndlessHole.Logger
import EndlessHole.Platform.DeviceTree.Iter
import EndlessHole.Platform.DeviceTree.Values
import EndlessHole.Platform.DeviceTree.Lookup
import EndlessHole.Platform.DeviceTree.Blob
import EndlessHole.Platform.DeviceTree.Grammar
import EndlessHole.Platform.DeviceTree.Parse
import EndlessHole.Process.Scheduler
import EndlessHole.Exceptions.Interrupt
import EndlessHole.Platform.Cpu
import EndlessHole.Platform.Smp
import EndlessHole.Platform.DeviceTree.Paths
import EndlessHole.Logger.Concurrent
import EndlessHole.Logger.Integrity
import EndlessHole.Logger.Order
import EndlessHole.Logger.Wrap
