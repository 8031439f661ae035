import BareKernel.Lib.ByteMemory
import BareKernel.Lib.BlockList
import BareKernel.Lib.BuddyTree
import BareKernel.Lib.ImplicitTree
import BareKernel.Lib.Runs
import BareKernel.Lib.MultiQueue
import BareKernel.Lib.RingBuffer
import BareKernel.Lib.Loops
import BareKernel.Lib.Numerals
import BareKernel.Lib.ByteStrings
import BareKernel.Lib.LinkedList
import BareKernel.Lib.Rounds
import BareKernel.Memory.MemoryManager
import BareKernel.Memory.Session
import BareKernel.Memory.NaiveManager
import BareKernel.Memory.NaiveInvariant
import BareKernel.Memory.NaiveRuns
import BareKernel.Memory.BuddyManager
import BareKernel.Memory.BuddyInvariant
import BareKernel.Memory.BuddyRuns
import BareKernel.Memory.ClientContract
import BareKernel.Memory.Linked
import BareKernel.Memory.BuddyOrders
import BareKernel.Memory.BuddyCompleteness
import BareKernel.Memory.NaiveCompleteness
import BareKernel.Memory.CanonicalHeap
import BareKernel.Memory.DoubleFree
import BareKernel.Kernel.Process
import BareKernel.Kernel.Scheduler
import BareKernel.Kernel.SchedulerFacts
import BareKernel.Kernel.SemaphoreTable
import BareKernel.Kernel.State
import BareKernel.Kernel.Semaphores
import BareKernel.Kernel.Files
import BareKernel.Kernel.Lifecycle
import BareKernel.Kernel.Steps
import BareKernel.Kernel.Actions
import BareKernel.Kernel.StepActions
import BareKernel.Kernel.SemaphoreNames
import BareKernel.Kernel.ReadyQueues
import BareKernel.Kernel.StepTrace
import BareKernel.Kernel.SemaphoreLifetimes
import BareKernel.Kernel.KillReferences
import BareKernel.Kernel.HeapExhaustion
import BareKernel.Kernel.Boot
import BareKernel.Kernel.Descriptors
import BareKernel.Kernel.FileSteps
import BareKernel.Kernel.StepPosts
import BareKernel.Kernel.Transfers
import BareKernel.Kernel.DescriptorChecks
import BareKernel.Kernel.DescriptorOwners
import BareKernel.Kernel.PipeCredits
import BareKernel.Kernel.PipeFifo
import BareKernel.Kernel.StrandedWriters
import BareKernel.Kernel.UserBlocks
import BareKernel.Kernel.AgingPasses
import BareKernel.Kernel.Selection
import BareKernel.Kernel.AgingHeap
import BareKernel.Terminal.Console
import BareKernel.Terminal.Keyboard
import BareKernel.Terminal.ScreenBounds
import BareKernel.Terminal.KeyDeque
import BareKernel.Terminal.Readers
import BareKernel.Terminal.BackgroundReads
import BareKernel.Terminal.KeyTokens
import BareKernel.Terminal.Interrupts
import BareKernel.Kernel.ReadyProcesses
import BareKernel.Kernel.IdleProcess
import BareKernel.Kernel.BoostedTurns
import BareKernel.Kernel.Starvation
import BareKernel.Kernel.YieldRounds
import BareKernel.Kernel.CreateProcess
import BareKernel.Terminal.TabStops
import BareKernel.Terminal.KeyHandlers
import BareKernel.Kernel.PipeCreation
import BareKernel.Userland.CommandLine
import BareKernel.Userland.UintToBase
import BareKernel.Userland.ParseArguments
import BareKernel.Userland.LineReader
import BareKernel.Userland.Vfprintf
import BareKernel.Userland.PrintNumbers
import BareKernel.Userland.FormatEnds
import BareKernel.Userland.Vsscanf
import BareKernel.Userland.ProcessLists
import BareKernel.Kernel.WaitingQueues
import BareKernel.Kernel.WakeUps
import BareKernel.Kernel.KeyboardInterrupt
import BareKernel.Kernel.Locks
import BareKernel.Kernel.LostWaiters
import BareKernel.Kernel.WaitStatus
import BareKernel.Kernel.SemaphoreCounts
import BareKernel.Kernel.InitProcess
import BareKernel.Kernel.QueueADT
import BareKernel.Toolchain.ModulePacker
import BareKernel.Kernel.ModuleLoader
import BareKernel.Userland.Memmove
import BareKernel.Userland.IntToString
import BareKernel.Userland.WordCount
import BareKernel.Userland.Mvar
import BareKernel.Userland.MvarTokens
import BareKernel.Userland.MvarRestart
import BareKernel.Userland.MvarHandover
import BareKernel.Userland.TestSync
import BareKernel.Lib.X86
import BareKernel.Lib.Simulations
import BareKernel.Kernel.InterruptHandlers
import BareKernel.Kernel.SystemCalls
import BareKernel.Kernel.ContextSwitch
import BareKernel.Kernel.Preemption
import BareKernel.Kernel.CallEvents
