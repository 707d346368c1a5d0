import Contur.Types
import Contur.Transition
import Contur.Block
import Contur.PhysicalMemory
import Contur.PageTable
import Contur.MinElement
import Contur.Recency
import Contur.Replacement
import Contur.Mmu
import Contur.Paging
import Contur.MmuView
import Contur.MmuInvariant
import Contur.MmuRefinement
import Contur.MmuRollback
import Contur.MmuLog
import Contur.MmuPolicies
import Contur.MmuAllocation
import Contur.MmuAges
import Contur.SecondChance
import Contur.ClockChance
import Contur.OptimalReplacement
import Contur.MmuTables
import Contur.VirtualMemory
import Contur.MmuResidue
import Contur.BlockFile
import Contur.SimpleFs
import Contur.SimpleFsBlocks
import Contur.SimpleFsInvariant
import Contur.SimpleFsRefinement
import Contur.NameTree
import Contur.SimpleFsTree
import Contur.SimpleFsNamespace
import Contur.SimpleFsWrite
import Contur.Placement
import Contur.Process
import Contur.PcbTimestamps
import Contur.SchedulingPolicy
import Contur.Scheduler
import Contur.SchedulerInvariant
import Contur.SchedulerErrors
import Contur.SelectionOrder
import Contur.PolicyOrder
import Contur.Execution
import Contur.Dispatcher
import Contur.Kernel
import Contur.PidAllocation
import Contur.KernelInvariant
import Contur.TimeAccounts
import Contur.KernelTime
import Contur.Cpu
import Contur.CpuRegisters
import Contur.CpuArithmetic
import Contur.StackDiscipline
import Contur.Interpreter
import Contur.TimeSlices
import Contur.Interleaving
import Contur.KernelProtection
import Contur.KernelBatching
import Contur.KernelPids
import Contur.WorkBoard
import Contur.DispatcherPool
import Contur.DispatcherPoolInvariant
import Contur.DispatcherPoolRefinement
import Contur.CycleSearch
import Contur.CycleNodes
import Contur.DeadlockDetector
import Contur.WaitForGraph
import Contur.DeadlockCycles
import Contur.LockOrder
import Contur.SafeOrder
import Contur.SafetyCheck
import Contur.SafetyBounds
import Contur.Pipe
import Contur.StableOrder
import Contur.MessageQueue
import Contur.DeviceManager
import Contur.WaitingLine
import Contur.Priorities
import Contur.Mutex
import Contur.Semaphore
import Contur.MutexProtocol
import Contur.SemaphorePermits
import Contur.PriorityInheritance
import Contur.SemaphoreOverRelease
import Contur.SchedulerContract
import Contur.SchedulerTracking
import Contur.RoundRobinTurns
import Contur.BlockSteps
import Contur.HrrnWaits
import Contur.BurstPredictions
import Contur.HistoryBuffer
import Contur.TuiController
import Contur.TuiHistory
import Contur.CarriedTime
import Contur.TuiAutoplay
import Contur.Segments
import Contur.PathSplit
import Contur.IpcManager
import Contur.KernelCalls
import Contur.MPDispatcher
import Contur.PoolProgress
import Contur.NotifiedPool
import Contur.PooledDispatcher
import Contur.KernelDraining
import Contur.KernelReadModel
import Contur.Tracer
import Contur.Linearization
import Contur.DeviceLocks
import Contur.DeviceSerial
import Contur.KernelTurns
import Contur.PrivateCode
import Contur.KernelComputation
