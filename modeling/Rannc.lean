import Rannc.Lib.RoundRobin
import Rannc.Lib.Blocks
import Rannc.Lib.Schedule
import Rannc.Lib.Traced
import Rannc.Lib.Rendezvous
import Rannc.Lib.OptionFold
import Rannc.Lib.Probe
import Rannc.Lib.Keeps
import Rannc.Lib.Slices
import Rannc.Lib.Mean
import Rannc.Lib.Spread
import Rannc.Lib.Views
import Rannc.Lib.Faults
import Rannc.Lib.Dict
import Rannc.Lib.Digraph
import Rannc.Lib.TopologicalSort
import Rannc.Lib.Dataflow
import Rannc.Lib.RenameApart
import Rannc.Lib.Deal
import Rannc.Lib.Grouping
import Rannc.Lib.Relocation
import Rannc.Lib.Worklist
import Rannc.Lib.Greedy
import Rannc.Lib.Boundaries
import Rannc.Common.BatchSplit
import Rannc.Common.BatchDims
import Rannc.Comm.Redist
import Rannc.Comp.Routes
import Rannc.Comp.GraphConnector
import Rannc.Comp.ConnectorRun
import Rannc.Comp.GraphLauncher
import Rannc.Comp.Delivery
import Rannc.Comp.PipelineExchange
import Rannc.Graph.IRType
import Rannc.Comm.TypeReduction
import Rannc.Graph.IRGraph
import Rannc.Graph.MLGraph
import Rannc.Graph.Partitioner
import Rannc.Graph.Coarsening
import Rannc.Graph.BGraph
import Rannc.Graph.Ranks
import Rannc.Graph.SubGraphs
import Rannc.Graph.Closed
import Rannc.Graph.CreateDeployment
import Rannc.Graph.MasterRoutes
import Rannc.Graph.MergeSmall
import Rannc.Graph.GraphMergeHelper
import Rannc.Graph.MLPartDecomposer
import Rannc.Graph.SubGraphFlow
import Rannc.Graph.FirstNodes
import Rannc.Graph.MergeRuns
import Rannc.Graph.VisibleOutputs
import Rannc.Graph.DPStaging
import Rannc.Graph.StageLoops
import Rannc.Graph.StageAllocation
import Rannc.Graph.StageTrials
import Rannc.Graph.StageLeast
import Rannc.Graph.InfeasibleLayers
import Rannc.Graph.StagePruning
import Rannc.Graph.StageCompleteness
import Rannc.Graph.GraphMem
import Rannc.Graph.OptimizerMem
import Rannc.Graph.RunDpComm
import Rannc.Graph.ZeroDivisors
import Rannc.Graph.Evaluation
import Rannc.Graph.RemoveUnused
import Rannc.Graph.MergeMeaning
import Rannc.Graph.CloneInputs
import Rannc.Graph.Allocation
import Rannc.Graph.DeviceCount
import Rannc.Graph.BatchEdges
import Rannc.Graph.BoundaryValues
import Rannc.Graph.KnownInputs
import Rannc.Graph.SmallMergeOrder
import Rannc.Graph.MergeCache
import Rannc.Graph.CachedRanges
import Rannc.Graph.StaleInputs
import Rannc.Graph.Regrouping
import Rannc.Graph.Boundaries
import Rannc.Graph.BoundaryMoves
import Rannc.Graph.BoundaryPlaces
import Rannc.Graph.AdjustedHierarchy
import Rannc.Graph.EdgeSizes
import Rannc.Graph.MergeStatistics
import Rannc.Graph.ProfilerUtil
import Rannc.Graph.Uncoarsening
import Rannc.Graph.Towers
import Rannc.Graph.SharedProgram
import Rannc.Graph.BoundaryGraphs
import Rannc.Graph.MoveMeaning
import Rannc.Graph.ScatteredTypes
import Rannc.Graph.Links
import Rannc.Graph.RoundTrip
import Rannc.Graph.GuessValueTypes
import Rannc.Graph.SizeSplit
import Rannc.Comm.TagMap
import Rannc.Comm.TagAgreement
import Rannc.Comm.P2PRedist
import Rannc.Comp.GradientSum
import Rannc.Comp.LossAverage
import Rannc.Comp.ParamStorage
import Rannc.Comp.ParamRelease
import Rannc.Comp.ParamDeploy
import Rannc.Comp.ParamLifetime
import Rannc.Comp.ParamSegments
import Rannc.Comp.ZeroPad
import Rannc.Graph.CutSearch
import Rannc.Graph.BalanceBlocks
import Rannc.Graph.Balance
import Rannc.Comp.GraphProfiler
import Rannc.Torch.IValueTypes
import Rannc.Torch.SliceConcat
import Rannc.Torch.GuessBatchSize
import Rannc.Comp.ParamReuse
import Rannc.Comp.GradNorm
import Rannc.Comp.GradReduction
import Rannc.Comp.GradNormSum
import Rannc.Torch.AlignTensor
import Rannc.Opt.StateDict
import Rannc.Opt.ParamOrder
import Rannc.Opt.GatheredState
import Rannc.Opt.TorchOptimizer
import Rannc.Opt.StateRoundTrip
import Rannc.Opt.ZeroState
import Rannc.Lib.InOrder
import Rannc.Lib.OptionRel
import Rannc.Torch.Related
import Rannc.Comp.SequentialRun
import Rannc.Comm.Distribute
import Rannc.Comp.DataParallel
import Rannc.Comp.RowWise
import Rannc.Comp.LauncherRun
import Rannc.Graph.DeployedRoutes
import Rannc.Graph.StagePartition
import Rannc.Graph.DeployedStages
import Rannc.Graph.VerifyDeployment
import Rannc.Comp.DeployedModel
import Rannc.Comp.LaunchedModel
import Rannc.Graph.MergedLayers
import Rannc.Graph.SearchedStages
