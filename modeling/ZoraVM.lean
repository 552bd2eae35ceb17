import ZoraVM.Kernel.InterruptPrivilege
import ZoraVM.Kernel.UserModeFlags
import ZoraVM.Kernel.UserModeScheduling
import ZoraVM.Kernel.SyscallDispatch
import ZoraVM.Kernel.DescriptorIsolation
import ZoraVM.Kernel.InterruptAccounting
import ZoraVM.Kernel.DescriptorUpdates
import ZoraVM.Kernel.OpenCreate
import ZoraVM.Kernel.PageTables
import ZoraVM.Kernel.RangeMapping
import ZoraVM.Kernel.FrameOwnership
import ZoraVM.Kernel.SchedulerPlaces
import ZoraVM.Kernel.PickNext
import ZoraVM.Vfs.SiblingNames
import ZoraVM.Shell.Identity
import ZoraVM.Shell.Credentials
import ZoraVM.Shell.UserFile
import ZoraVM.Vfs.Mirror
import ZoraVM.Vfs.ReadWrite
import ZoraVM.Vfs.Confinement
import ZoraVM.Vfs.AccessControl
import ZoraVM.Shell.CopyMove
import ZoraVM.Unix.IpcIds
import ZoraVM.Meisei.PoolBlocks
import ZoraVM.System.ProcessPids
import ZoraVM.System.SchedulerReferences
import ZoraVM.Unix.Messages
import ZoraVM.Unix.Semaphores
import ZoraVM.Unix.Readers
import ZoraVM.Kernel.SocketTable
import ZoraVM.Kernel.Listeners
import ZoraVM.Kernel.NetworkStatistics
import ZoraVM.Package.Bookkeeping
import ZoraVM.Package.Dependencies
import ZoraVM.System.JobControl
import ZoraVM.System.RealProcessSlots
import ZoraVM.Kernel.InterruptDelivery
import ZoraVM.Vfs.RelativePaths
import ZoraVM.Vfs.RootSurvival
import ZoraVM.Kernel.MemoryMap
import ZoraVM.Lua.Authority
import ZoraVM.Sandbox.FileFilter
import ZoraVM.Network.Egress
import ZoraVM.Vfs.BlockEnds
import ZoraVM.Unix.AwkRecords
import ZoraVM.Shell.ConditionalLists
import ZoraVM.Shell.Pipelines
import ZoraVM.Shell.Sourcing
import ZoraVM.Foundation.LexicalPath
import ZoraVM.Shell.PathMeaning
import ZoraVM.Shell.TreeSearch
import ZoraVM.Shell.RedirectionParsing
import ZoraVM.Shell.VariableExpansion
import ZoraVM.Vfs.PathResolution
import ZoraVM.Vfs.DirectoryCreation
import ZoraVM.Vfs.Removal
import ZoraVM.Vfs.Symlinks
import ZoraVM.Kernel.SystemMonitor
import ZoraVM.Vfs.PermissionStrings
import ZoraVM.System.DiskInfo
import ZoraVM.Kernel.PageMapping
import ZoraVM.Kernel.RangeCalls
import ZoraVM.Kernel.FrameLeaks
import ZoraVM.Vfs.UnreadableHost
import ZoraVM.Vfs.SyncFrames
import ZoraVM.Vfs.Refresh
import ZoraVM.Vfs.NewerContent
import ZoraVM.Kernel.FailedWrites
import ZoraVM.Kernel.SequentialReads
import ZoraVM.Kernel.Keyboard
import ZoraVM.Kernel.RoundRobin
import ZoraVM.Kernel.QuantumExpiry
import ZoraVM.Kernel.InterruptGates
import ZoraVM.System.SuspendCount
import ZoraVM.Kernel.Receives
import ZoraVM.Kernel.MemoryBlocks
import ZoraVM.Unix.IpcGetAgain
import ZoraVM.Kernel.Checksum
import ZoraVM.Kernel.DottedQuads
import ZoraVM.Unix.ParagraphFill
import ZoraVM.Unix.SedDeletion
import ZoraVM.Unix.SedInsertion
import ZoraVM.Unix.SedSubstitution
import ZoraVM.Unix.GrepPartition
import ZoraVM.Unix.Nroff
import ZoraVM.Editors.EditorRun
import ZoraVM.Devices.DeviceList
import ZoraVM.Devices.TerminalConfig
import ZoraVM.Unix.WordCount
import ZoraVM.Meisei.PoolBounds
import ZoraVM.Kernel.ProcessQueue
import ZoraVM.Games.Snake
import ZoraVM.Games.SnakeBody
import ZoraVM.Games.SnakeCourse
import ZoraVM.Foundation.Sieve
import ZoraVM.Foundation.BubbleSort
import ZoraVM.Foundation.Radix
import ZoraVM.Foundation.CInt
import ZoraVM.Games.Primes
import ZoraVM.Editors.SaveAndLoad
import ZoraVM.Foundation.Runs
import ZoraVM.Shell.UniqCommand
import ZoraVM.Shell.SortCommand
import ZoraVM.Shell.TarCommand
import ZoraVM.Kernel.SchedulerRefinement
import ZoraVM.Vfs.Cleanup
import ZoraVM.Vfs.EntryMapRuns
import ZoraVM.Shell.TextFilters
import ZoraVM.Shell.CountAndCompare
import ZoraVM.Shell.History
import ZoraVM.Unix.IpcBlocks
import ZoraVM.Games.Hangman
import ZoraVM.Kernel.CpuRun
