import Optics.Lib.Bytes
import Optics.Lib.LinkedList
import Optics.Lib.Tiling
import Optics.Lib.Probing
import Optics.Lib.Sorting
import Optics.Base
import Optics.Utils.Bits
import Optics.Utils.Htables
import Optics.Utils.HtableMap
import Optics.Utils.HtableGrowth
import Optics.Regions
import Optics.Allocator
import Optics.AllocatorInv
import Optics.Lib.Runs
import Optics.AllocatorRuns
import Optics.AllocatorMoves
import Optics.Lib.SpinLock
import Optics.AllocatorThreads
import Optics.AllocatorThreadsInv
import Optics.AllocatorThreadsRuns
import Optics.RegionThreads
import Optics.Lib.Holdings
import Optics.ShmFiles
import Optics.RegionCalls
import Optics.RegionCallsInv
import Optics.RegionCallsRuns
import Optics.RegionCallsNames
import Optics.Lenses
import Optics.LensBlocks
import Optics.LensList
import Optics.Registry
import Optics.RegistryInv
import Optics.RegistryOps
import Optics.RegistryRuns
import Optics.RegistryWear
import Optics.RegistryFailure
import Optics.RegistryRelease
import Optics.RegistryNames
import Optics.LensSlots
import Optics.Recording
import Optics.Traversal
import Optics.TraversalInv
import Optics.TraversalSteps
import Optics.TraversalPoller
import Optics.TraversalWalk
import Optics.TraversalMapping
import Optics.Doubles
import Optics.Utils.Random
import Optics.LensDist
import Optics.LensQuantile
import Optics.LensReads
import Optics.DistRounds
import Optics.DistMax
import Optics.DistPercentiles
import Optics.DistLock
import Optics.Utils.Keys
import Optics.Polling
import Optics.PollTotals
import Optics.PollReturns
import Optics.Lib.Patterns
import Optics.Utils.Routing
import Optics.PollNames
import Optics.Lib.Decimals
import Optics.Lib.JsonText
import Optics.Lib.Utf8
import Optics.Lib.ByteOrder
import Optics.Utils.Buffers
import Optics.Utils.Formats
import Optics.BackendRest
import Optics.RestDocument
import Optics.RestHistos
import Optics.RestPolls
import Optics.Timers
import Optics.RegionBounds
import Optics.Utils.Bodies
import Optics.Normalize
import Optics.Lib.Lines
import Optics.Utils.FormatValues
import Optics.BackendCarbon
import Optics.CarbonRead
import Optics.HistoCounts
import Optics.QuantileMerge
import Optics.Lib.Binary64
import Optics.QuantileDraws
import Optics.QuantileRuns
import Optics.Lib.Arrays
import Optics.Lib.Sampling
import Optics.DistMerge
import Optics.DistArrays
import Optics.DistReservoirs
import Optics.DistUniform
import Optics.Lib.Xorshift
import Optics.Utils.RandomStates
import Optics.Lib.Pieces
import Optics.Utils.Paths
import Optics.Utils.HtableDiff
import Optics.Utils.HtableLimits
import Optics.Utils.Errors
import Optics.RegistryData
import Optics.LensWords
import Optics.LensRuns
import Optics.Lib.Blocks
import Optics.Utils.Responses
import Optics.Utils.Server
import Optics.Utils.ServerRuns
import Optics.RestServer
import Optics.Lib.Cells
import Optics.PollerDumps
import Optics.CarbonSockets
import Optics.RegionPolls
import Optics.UnlinkAll
import Optics.Utils.RingLogs
import Optics.Utils.RingThreads
