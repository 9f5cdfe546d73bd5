import OsSim.AdmittedOnce
import OsSim.Arguments
import OsSim.Arrivals
import OsSim.BuddyAllocation
import OsSim.BuddyHistory
import OsSim.BuddyIntact
import OsSim.BuddyList
import OsSim.BuddyMemory
import OsSim.BuddyOwnership
import OsSim.CircularQueue
import OsSim.CircularQueueRing
import OsSim.CircularQueueRuns
import OsSim.ClearAndExit
import OsSim.CreateProcesses
import OsSim.CreationMoves
import OsSim.EndToEnd
import OsSim.ExecutionChart
import OsSim.FailedFork
import OsSim.GeneratedInput
import OsSim.HashMap
import OsSim.HashMapCells
import OsSim.HashMapOccupancy
import OsSim.HashMapProbing
import OsSim.HashMapRuns
import OsSim.IQueue
import OsSim.InputFile
import OsSim.InputLines
import OsSim.Library.BinaryHeap
import OsSim.Library.Decimal
import OsSim.Library.DoublyLinked
import OsSim.Library.Dyadic
import OsSim.Library.Greedy
import OsSim.Library.LeftEdge
import OsSim.Library.Lifetime
import OsSim.Library.OpenAddressing
import OsSim.Library.PointerMemory
import OsSim.Library.Printf
import OsSim.Library.Replay
import OsSim.Library.Ring
import OsSim.Library.RoundRobin
import OsSim.Library.Simulation
import OsSim.Library.SinkPath
import OsSim.Library.Tiling
import OsSim.Library.Timeline
import OsSim.Library.Trace
import OsSim.LinkedList
import OsSim.LinkedListRuns
import OsSim.LogTexts
import OsSim.MachineInt
import OsSim.MemoryAssignment
import OsSim.MemoryLedger
import OsSim.MemoryManager
import OsSim.MemoryRecords
import OsSim.MemoryTrace
import OsSim.OldestFit
import OsSim.Orphans
import OsSim.PerformanceStatistics
import OsSim.PriorityQueue
import OsSim.PriorityQueueCells
import OsSim.PriorityQueueHeapify
import OsSim.PriorityQueueInt
import OsSim.PriorityQueueOrder
import OsSim.PriorityQueueRuns
import OsSim.Process
import OsSim.ProcessGenerator
import OsSim.RoundNumber
import OsSim.RunProcess
import OsSim.Scheduler
import OsSim.SchedulerClock
import OsSim.SchedulerHandlers
import OsSim.SchedulerHpf
import OsSim.SchedulerMoves
import OsSim.SchedulerProgress
import OsSim.SchedulerQuantum
import OsSim.SchedulerRemaining
import OsSim.SchedulerRr
import OsSim.SchedulerShutdown
import OsSim.SchedulerSignals
import OsSim.SchedulerSpec
import OsSim.SchedulerSrtn
import OsSim.SchedulerStartup
import OsSim.SchedulerStatements
import OsSim.SchedulerTally
import OsSim.SchedulerTiling
import OsSim.SchedulerTrace
import OsSim.SchedulerTurnaround
import OsSim.SchedulerUtilization
import OsSim.SchedulerWorld
import OsSim.Teardown
import OsSim.TestGenerator
import OsSim.WaitingBranch
import OsSim.WaitingDrain
import OsSim.WaitingServed
