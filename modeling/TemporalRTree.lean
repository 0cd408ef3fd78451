import TemporalRTree.Lib.Binary64
import TemporalRTree.Lib.StateError
import TemporalRTree.Lib.StoreTree
import TemporalRTree.Lib.Cursor
import TemporalRTree.Lib.Pruning
import TemporalRTree.Lib.Transition
import TemporalRTree.Lib.WaitChain
import TemporalRTree.Lib.RedoLog
import TemporalRTree.Lib.WriteBack
import TemporalRTree.Lib.Chain
import TemporalRTree.Lib.Ledger
import TemporalRTree.Lib.Digits
import TemporalRTree.Lib.Calendar
import TemporalRTree.Lib.Regex
import TemporalRTree.Model.Box
import TemporalRTree.Model.Cube
import TemporalRTree.Model.TsRange
import TemporalRTree.Model.Split
import TemporalRTree.Model.Page
import TemporalRTree.Model.Buffer
import TemporalRTree.Model.Insert
import TemporalRTree.Model.Vacuum
import TemporalRTree.Model.Build
import TemporalRTree.Model.Table
import TemporalRTree.Model.BufferPool
import TemporalRTree.Model.Server
import TemporalRTree.Model.Sessions
import TemporalRTree.Model.VacuumWalk
import TemporalRTree.Model.LockSteps
import TemporalRTree.Model.Search
import TemporalRTree.Model.ScanBuffers
import TemporalRTree.Model.Generator
import TemporalRTree.Model.ExplainText
import TemporalRTree.Model.Metrics
import TemporalRTree.Model.Planner
import TemporalRTree.Model.Hooks
import TemporalRTree.Correctness.Picksplit
import TemporalRTree.Correctness.SplitPolicy
import TemporalRTree.Correctness.BufferRun
import TemporalRTree.Correctness.InsertCases
import TemporalRTree.Correctness.Tree
import TemporalRTree.Correctness.InsertTree
import TemporalRTree.Correctness.InsertForesight
import TemporalRTree.Correctness.InsertRun
import TemporalRTree.Correctness.VacuumTree
import TemporalRTree.Correctness.VacuumRoot
import TemporalRTree.Correctness.VacuumCases
import TemporalRTree.Correctness.Operations
import TemporalRTree.Correctness.PageRoom
import TemporalRTree.Correctness.TreeShape
import TemporalRTree.Correctness.PageLife
import TemporalRTree.Correctness.Counters
import TemporalRTree.Correctness.Levels
import TemporalRTree.Correctness.RightLinks
import TemporalRTree.Correctness.PageCapacity
import TemporalRTree.Correctness.Contents
import TemporalRTree.Correctness.ConcurrentInsert
import TemporalRTree.Correctness.Effects
import TemporalRTree.Correctness.Recovery
import TemporalRTree.Correctness.Eviction
import TemporalRTree.Correctness.Codec
import TemporalRTree.Correctness.PageMbr
import TemporalRTree.Correctness.ExactBoxes
import TemporalRTree.Correctness.VacuumSurvivors
import TemporalRTree.Correctness.ScanVisits
import TemporalRTree.Correctness.Strategy
import TemporalRTree.Correctness.Decoding
import TemporalRTree.Correctness.TemporalMeaning
import TemporalRTree.Correctness.Scan
import TemporalRTree.Correctness.ScanKeys
import TemporalRTree.Correctness.ScanCalls
import TemporalRTree.Correctness.ScanEnds
import TemporalRTree.Correctness.ScanBalance
import TemporalRTree.Correctness.TimeOnly
import TemporalRTree.Correctness.ConcurrentScan
import TemporalRTree.Correctness.ConcurrentVacuum
import TemporalRTree.Correctness.ConcurrentLevels
import TemporalRTree.Correctness.ScanVacuum
import TemporalRTree.Correctness.LockRanks
import TemporalRTree.Correctness.LockSessions
import TemporalRTree.Correctness.LockOrder
import TemporalRTree.Correctness.LockSerial
import TemporalRTree.Correctness.SelfWait
import TemporalRTree.Correctness.InsertFailure
import TemporalRTree.Correctness.CrashPrefix
import TemporalRTree.Correctness.CrashCycles
import TemporalRTree.Correctness.VacuumPrefix
import TemporalRTree.Correctness.Generator
import TemporalRTree.Correctness.Table
import TemporalRTree.Correctness.TemporalData
import TemporalRTree.Correctness.Metrics
import TemporalRTree.Correctness.CostEstimate
import TemporalRTree.Correctness.Hooks
import TemporalRTree.Correctness.PlanAnswers
