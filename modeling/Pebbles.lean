import Pebbles.DataStructure.ListHistories
import Pebbles.DataStructure.LooseLinks
import Pebbles.DataStructure.StrayNodes
import Pebbles.Exception.FaultDelivery
import Pebbles.Exception.FrameReturn
import Pebbles.Exception.KernelEntry
import Pebbles.Exception.Privilege
import Pebbles.Hardware.BackspaceGuard
import Pebbles.Hardware.Console
import Pebbles.Hardware.Interrupts
import Pebbles.Hardware.KeyRing
import Pebbles.Hardware.Keyboard
import Pebbles.Hardware.LineBuffer
import Pebbles.Hardware.ScreenText
import Pebbles.Hardware.TypedLines
import Pebbles.Library.DroppingQueue
import Pebbles.Library.LineEditing
import Pebbles.Library.Monitors
import Pebbles.Library.Scrolling
import Pebbles.Library.SharedObjects
import Pebbles.Library.Tallies
import Pebbles.Libthread.CondVar
import Pebbles.Libthread.FailedCreate
import Pebbles.Libthread.JoinedOnce
import Pebbles.Libthread.LastExit
import Pebbles.Libthread.MutualExclusion
import Pebbles.Libthread.RootThread
import Pebbles.Libthread.RwLock
import Pebbles.Libthread.RwLockExclusion
import Pebbles.Libthread.RwLockProgress
import Pebbles.Libthread.RwLockRest
import Pebbles.Libthread.RwLockTokens
import Pebbles.Libthread.Semaphore
import Pebbles.Libthread.StackRounding
import Pebbles.Libthread.StackSearch
import Pebbles.Libthread.ThreadBlocks
import Pebbles.Libthread.ThreadJoin
import Pebbles.Libthread.ThreadLibrary
import Pebbles.Libthread.ThreadLocks
import Pebbles.Libthread.ThreadMutexes
import Pebbles.Libthread.ThreadOwners
import Pebbles.Libthread.ThreadPlaces
import Pebbles.Libthread.ThreadPointers
import Pebbles.Libthread.ThreadReaping
import Pebbles.Libthread.ThreadResources
import Pebbles.Libthread.ThreadStacks
import Pebbles.Libthread.ThreadStart
import Pebbles.Libthread.ThreadSteps
import Pebbles.Libthread.UserMutex
import Pebbles.Libthread.WaitLists
import Pebbles.Libthread.WakeUpContract
import Pebbles.Malloc.HeapGuarantees
import Pebbles.Memory.AddressSpaces
import Pebbles.Memory.Boot
import Pebbles.Memory.CleanSlate
import Pebbles.Memory.Directories
import Pebbles.Memory.ExecArguments
import Pebbles.Memory.ExecStack
import Pebbles.Memory.FailureReports
import Pebbles.Memory.ForkContents
import Pebbles.Memory.ForkCopy
import Pebbles.Memory.ForkExits
import Pebbles.Memory.ForkPages
import Pebbles.Memory.ForkReap
import Pebbles.Memory.ForkStale
import Pebbles.Memory.FrameAllocator
import Pebbles.Memory.FrameSupply
import Pebbles.Memory.HeapCycle
import Pebbles.Memory.Isolation
import Pebbles.Memory.KernelHeap
import Pebbles.Memory.LoadedImage
import Pebbles.Memory.NewPages
import Pebbles.Memory.PageContents
import Pebbles.Memory.Paging
import Pebbles.Memory.ProgramFiles
import Pebbles.Memory.RangeRoundTrip
import Pebbles.Memory.RegionRemoval
import Pebbles.Memory.Regions
import Pebbles.Memory.SpaceSteps
import Pebbles.Memory.Startup
import Pebbles.Memory.UserAccess
import Pebbles.Memory.UserHalf
import Pebbles.Process.ChildLedger
import Pebbles.Process.Creation
import Pebbles.Process.DescheduleRace
import Pebbles.Process.EarlyReap
import Pebbles.Process.FamilyTree
import Pebbles.Process.FaultHandler
import Pebbles.Process.InterruptedUpdates
import Pebbles.Process.LastThread
import Pebbles.Process.LockDiscipline
import Pebbles.Process.LooseQueues
import Pebbles.Process.LostUpdates
import Pebbles.Process.LostWakeUp
import Pebbles.Process.MutexHandOff
import Pebbles.Process.NextThread
import Pebbles.Process.QueueContents
import Pebbles.Process.QueuePartition
import Pebbles.Process.QueueUpdates
import Pebbles.Process.RoundRobin
import Pebbles.Process.Sleepers
import Pebbles.Process.StackSwitchRuns
import Pebbles.Process.UpdateStages
import Pebbles.Process.UpdateWindows
import Pebbles.Process.Waiters
import Pebbles.Process.WakeUps
import Pebbles.Syscall.CallLinkage
import Pebbles.Syscall.ForkedThread
import Pebbles.Syscall.ThreadFork
