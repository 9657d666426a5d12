import Nstd.Container.MultiMapCount
import Nstd.Container.BufferAttach
import Nstd.Container.BufferTerminator
import Nstd.Container.BufferSwap
import Nstd.Container.ArrayHeap
import Nstd.Container.LinkedListSort
import Nstd.Container.Assignments
import Nstd.Server.PollNull
import Nstd.Server.Interrupt
import Nstd.Server.HandlesRuns
import Nstd.Server.Receiving
import Nstd.Server.PollScan
import Nstd.Callback.History
import Nstd.Document.Comments
import Nstd.Document.ErrorLines
import Nstd.Document.JsonExponent
import Nstd.Document.XmlWriter
import Nstd.Document.XmlGrammar
import Nstd.Document.XmlReuse
import Nstd.Document.XmlWrites
import Nstd.Future.QueueSafety
import Nstd.Future.FastSignal
import Nstd.Future.ThreadPool
import Nstd.Future.Monitor
import Nstd.Future.Atomics
import Nstd.Shared.XmlVariants
import Nstd.Shared.VariantRuns
import Nstd.Shared.VariantCopies
import Nstd.Shared.StringEnds
import Nstd.Shared.StringBase64
import Nstd.Shared.StringQueries
import Nstd.Text.Utf8Valid
import Nstd.File.RelativePath
import Nstd.File.Rename
import Nstd.File.ReadAll
import Nstd.File.WildMatch
import Nstd.Console.Screen
import Nstd.Console.Input
import Nstd.Process.CommandLine
import Nstd.Process.CommandLineWindows
import Nstd.Process.Reading
import Nstd.Process.WaitingRuns
import Nstd.Future.Joining
import Nstd.Future.PoolLock
import Nstd.Process.EnvironmentBlock
import Nstd.Server.TimerRuns
import Nstd.File.DirectoryPurge
import Nstd.Crypto.Sha256Digest
