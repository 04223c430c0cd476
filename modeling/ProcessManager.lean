import ProcessManager.Library.Rounding
import ProcessManager.Library.Loop
import ProcessManager.Library.HeapOrder
import ProcessManager.Library.Tiling
import ProcessManager.Library.Serial
import ProcessManager.Library.Machines
import ProcessManager.Library.Posix
import ProcessManager.Library.PrefixSums
import ProcessManager.Library.Scan
import ProcessManager.Library.DoublyLinked
import ProcessManager.Library.Progress
import ProcessManager.Library.Coordinator
import ProcessManager.Library.Sha256
import ProcessManager.Library.Service
import ProcessManager.Library.Fallible
import ProcessManager.ProcessData
import ProcessManager.LinkedList
import ProcessManager.ListPointers
import ProcessManager.ListRefinement
import ProcessManager.DequeuePointers
import ProcessManager.Loading
import ProcessManager.LoadRoundTrip
import ProcessManager.MinHeap
import ProcessManager.ReadyQueue
import ProcessManager.IntHeap
import ProcessManager.PriorityQueue
import ProcessManager.MemoryAllocation
import ProcessManager.MemoryInvariant
import ProcessManager.MemoryRelease
import ProcessManager.AllocationPass
import ProcessManager.MemoryMap
import ProcessManager.BestFit
import ProcessManager.AllocationFairness
import ProcessManager.FreeingOrder
import ProcessManager.AllocationUndo
import ProcessManager.PointerWorld
import ProcessManager.PointerOwnership
import ProcessManager.AllocatorRefinement
import ProcessManager.AllocatorRelease
import ProcessManager.CycleInvariant
import ProcessManager.CycleMemory
import ProcessManager.Driving
import ProcessManager.NumCycles
import ProcessManager.Conservation
import ProcessManager.ServiceTime
import ProcessManager.Arrivals
import ProcessManager.Trace
import ProcessManager.Makespan
import ProcessManager.Termination
import ProcessManager.Ownership
import ProcessManager.StateField
import ProcessManager.Signals
import ProcessManager.SignalDiscipline
import ProcessManager.Handshake
import ProcessManager.HandshakeSafety
import ProcessManager.HandshakeHash
import ProcessManager.ProcessHash
import ProcessManager.HandshakeProgress
import ProcessManager.Fleet
import ProcessManager.FleetRun
import ProcessManager.FinishTimes
import ProcessManager.ExactTimes
import ProcessManager.ShortestFirst
import ProcessManager.Statistics
import ProcessManager.FileOrder
import ProcessManager.ShortestJob
import ProcessManager.RoundRobin
import ProcessManager.ResponseTime
import ProcessManager.MemoryRoom
import ProcessManager.RoomForAll
import ProcessManager.AllocatorRuns
import ProcessManager.AllocatorCycle
