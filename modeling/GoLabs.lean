import GoLabs.Reasoning.Runs
import GoLabs.Reasoning.Tables
import GoLabs.Reasoning.Precedence
import GoLabs.Reasoning.Linearizability
import GoLabs.Reasoning.Strings
import GoLabs.Reasoning.Json
import GoLabs.Reasoning.GoMap
import GoLabs.Reasoning.Grouping
import GoLabs.Reasoning.Attempts
import GoLabs.Reasoning.Search
import GoLabs.Reasoning.Loops
import GoLabs.KvSrv.Server
import GoLabs.KvSrv.CompareAndSwap
import GoLabs.KvSrv.Clerk
import GoLabs.KvSrv.ClerkRuns
import GoLabs.KvSrv.PutResults
import GoLabs.KvSrv.NoKey
import GoLabs.KvSrv.CallViews
import GoLabs.KvSrv.Versions
import GoLabs.KvSrv.KvModel
import GoLabs.KvSrv.Linearizable
import GoLabs.KvSrv.Porcupine
import GoLabs.KvSrv.Lock
import GoLabs.KvSrv.RoundTrip
import GoLabs.KvSrv.Programs
import GoLabs.KvSrv.Outline
import GoLabs.KvSrv.MutualExclusion
import GoLabs.KvSrv.Release
import GoLabs.KvSrv.Orphans
import GoLabs.MapReduce.Files
import GoLabs.MapReduce.Coordinator
import GoLabs.MapReduce.CoordSys
import GoLabs.MapReduce.Accounting
import GoLabs.MapReduce.Books
import GoLabs.MapReduce.Worker
import GoLabs.MapReduce.Newcomer
import GoLabs.MapReduce.Progress
import GoLabs.MapReduce.Records
import GoLabs.MapReduce.Sequential
import GoLabs.MapReduce.Names
import GoLabs.MapReduce.Job
import GoLabs.MapReduce.JobRuns
import GoLabs.MapReduce.DiskOps
import GoLabs.MapReduce.MapFiles
import GoLabs.MapReduce.MapHandlers
import GoLabs.MapReduce.Snapshot
import GoLabs.MapReduce.Schedule
import GoLabs.MapReduce.TwoRuns
import GoLabs.MapReduce.MapPhase
import GoLabs.MapReduce.ReduceWork
import GoLabs.MapReduce.ReduceOutput
import GoLabs.MapReduce.DoneSound
import GoLabs.MapReduce.Leftovers
import GoLabs.MapReduce.Pipeline
import GoLabs.MapReduce.Shutdown
import GoLabs.Reasoning.Balance
import GoLabs.Reasoning.Leveling
import GoLabs.ShardCfg.Config
import GoLabs.ShardCfg.Rebalance
import GoLabs.ShardCfg.Reassign
import GoLabs.ShardCfg.Calls
import GoLabs.ShardCfg.Orders
import GoLabs.ShardCfg.Migration
import GoLabs.ShardCfg.Valid
import GoLabs.Tester.Network
import GoLabs.Tester.Group
import GoLabs.Tester.Connectivity
import GoLabs.Tester.Contents
import GoLabs.Tester.Partition
import GoLabs.Tester.Requests
import GoLabs.Tester.Lineage
import GoLabs.Tester.Restart
import GoLabs.ShardCtrler.Lock
import GoLabs.ShardCtrler.Leadership
import GoLabs.ShardCtrler.Wraparound
import GoLabs.KvTest.Appends
import GoLabs.KvTest.AppendRuns
import GoLabs.KvTest.CheckAppends
import GoLabs.KvTest.LostAppends
import GoLabs.KvTest.ConcurrentPuts
import GoLabs.KvTest.CheckPuts
import GoLabs.KvTest.OneWriter
import GoLabs.KvTest.LockClients
import GoLabs.KvTest.LockData
import GoLabs.KvTest.LockRuns
import GoLabs.LabGob
import GoLabs.Raft.Applier
import GoLabs.Raft.SnapSys
import GoLabs.Raft.Snapshots
import GoLabs.MapReduce.Finished
import GoLabs.MapReduce.Apps
import GoLabs.LabRpc
import GoLabs.Tester.Clnts
import GoLabs.KvSrv.Stack
import GoLabs.KvSrv.StackRuns
import GoLabs.KvSrv.StackEnds
import GoLabs.KvSrv.StackReliable
import GoLabs.KvTest.Recorded
import GoLabs.KvTest.CheckPorcupine
