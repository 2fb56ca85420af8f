import Maruswap.GuardedRun
import Maruswap.ServerBookkeeping
import Maruswap.CommitBarrier
import Maruswap.SharedGroup
import Maruswap.OpenReplies
import Maruswap.ReadYourWrites
import Maruswap.SwapSlots
import Maruswap.OpenCheck
import Maruswap.MulticastLoop
import Maruswap.CommitPaths
import Maruswap.BatchAccounts
import Maruswap.PublishedBlocks
import Maruswap.SendQueue
import Maruswap.BinderLeaks
import Maruswap.ModuleInit
import Maruswap.Teardown
import Maruswap.BitFields
import Maruswap.ByteRanges
import Maruswap.HeaderCodec
import Maruswap.PageRanges
import Maruswap.RpcBuffers
import Maruswap.CommitWalk
import Maruswap.CommitLocks
import Maruswap.LastFrame
import Maruswap.DriverCalls
import Maruswap.RpcResult
import Maruswap.StageRing
import Maruswap.BlockIndices
import Maruswap.PageMappings
import Maruswap.ReadTargets
import Maruswap.SoloCalls
import Maruswap.RpcRuns
import Maruswap.OpenFaults
import Maruswap.GetPage
import Maruswap.SendSchedules
import Maruswap.LinkedServer
import Maruswap.ListRace
import Maruswap.DeployedReads
import Maruswap.Replicas
import Maruswap.OpenedBlocks
import Maruswap.CommitWait
import Maruswap.RpcExchanges
import Maruswap.TestRuns
