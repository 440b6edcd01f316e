import Archarch.Memory.PmmRuns
import Archarch.Memory.FirstFit
import Archarch.Memory.MarkUsed
import Archarch.Memory.HeapRuns
import Archarch.Memory.HeapAnswers
import Archarch.Memory.Defragmentation
import Archarch.Volumes.RootDirectory
import Archarch.Volumes.Spellings
import Archarch.Volumes.ChainReads
import Archarch.Volumes.ReadRounds
import Archarch.Files.DescriptorRuns
import Archarch.Files.ReadOverflow
import Archarch.Files.ReadExtents
import Archarch.Files.ClosedPipes
import Archarch.Files.Duplication
import Archarch.Files.CleanFailures
import Archarch.Tasks.WaitHonesty
import Archarch.Tasks.RoundRobin
import Archarch.Tasks.Deadlocks
import Archarch.Spaces.ForkImages
import Archarch.Spaces.NewImages
import Archarch.Spaces.SpawnFailures
import Archarch.Spaces.PointUpdate
import Archarch.Spaces.HeapFailures
import Archarch.Spaces.HeapBreaks
import Archarch.Spaces.HeapPages
import Archarch.Traps.Transparency
import Archarch.Traps.KernelExits
import Archarch.Traps.UserPointers
import Archarch.Traps.KillSignals
import Archarch.Devices.BlockRuns
import Archarch.Devices.PolledRuns
import Archarch.Devices.BringUpRuns
import Archarch.Devices.RingRuns
import Archarch.Shell.Pipelines
import Archarch.Devices.BarAssignment
import Archarch.Devices.Capabilities
import Archarch.Devices.ReceiveRuns
import Archarch.Files.ConsoleLines
import Archarch.Files.WriteReports
import Archarch.Network.Checksums
import Archarch.Shell.CleanUp
import Archarch.Shell.WordCount
import Archarch.Traps.ListingBuffer
import Archarch.Spaces.KernelMapping
import Archarch.Interrupts.DispatchRuns
import Archarch.Programs.Exec
import Archarch.Volumes.ImageRoundTrip
